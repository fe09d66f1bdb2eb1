import Zephyria.Leadership

namespace Zephyria

def SentUnstake (p : SystemParams) (calls : List Call) (a : Address) : Prop :=
  ∃ msg data, Call.system msg data ∈ calls ∧ msg.toAddr = some p.stakingAddr ∧ msg.fromAddr = a ∧
    data = unstakePayload

def configuredEngine (network : Network) (slashes : List Address) : ZeliusEngine :=
  slashes.foldl ZeliusEngine.slash (newZelius (getNetworkConfig network).validators)

def GenesisValidatorsKept (K : Keccak256) (p : SystemParams) (e : ZeliusEngine) (s : StateDB)
    (calls : List Call) : Prop :=
  ∀ v ∈ e.validators, ¬SentUnstake p calls v.address →
    ∃ e', (StateDB.exec (syncValidators K e) (execCalls K p s calls)).1 = some e' ∧
      ∃ u ∈ e'.validators, u.address = v.address ∧ v.stake ≤ u.stake

theorem configuredEngine_sublist (network : Network) (slashes : List Address) :
    (configuredEngine network slashes).validators.Sublist (getNetworkConfig network).validators := by
  induction slashes using List.reverseRecOn with
  | nil => exact List.Sublist.refl _
  | append_singleton slashes a ih =>
    unfold configuredEngine
    rw [List.foldl_append, List.foldl_cons, List.foldl_nil, ZeliusEngine.slash,
      (ZeliusEngine.removeValidator_cases _ a).1, strike]
    split
    · exact ih
    · exact List.eraseP_sublist.trans ih

theorem getNetworkConfig_staked (network : Network) :
    ∀ v ∈ (getNetworkConfig network).validators, 0 < v.stake := by
  cases network <;> decide

/-- A registry that is not empty replaces the list whole, and gives every stake as zero. -/
theorem genesis_validators_kept_iff (K : Keccak256) (network : Network) (slashes : List Address) (s : StateDB)
    (calls : List Call)
    (hreward : ∀ k, (book K s).storage (getNetworkConfig network).params.rewardAddr k = 0) :
    GenesisValidatorsKept K (getNetworkConfig network).params (configuredEngine network slashes) s calls ↔
      (book K (execCalls K (getNetworkConfig network).params s calls)).storage
          (getNetworkConfig network).params.validatorAddr 0 = 0 ∨
        ∀ v ∈ (configuredEngine network slashes).validators,
          SentUnstake (getNetworkConfig network).params calls v.address := by
  have hstaked (v : Validator) (hv : v ∈ (configuredEngine network slashes).validators) : 0 < v.stake :=
    getNetworkConfig_staked network v ((configuredEngine_sublist network slashes).subset hv)
  rw [getNetworkConfig_params] at *
  have hempty (k : Hash) : (book K (execCalls K systemParams s calls)).storage syncStakingAddr k = 0 := by
    rw [execCalls_elsewhere (by decide) (by decide)]
    exact hreward k
  constructor
  · intro hkept
    by_contra! hmissing
    obtain ⟨hcount, v, hv, hnone⟩ := hmissing
    obtain ⟨e', hsync, u, hu, -, hle⟩ := hkept v hv hnone
    obtain ⟨hzero, -⟩ | ⟨-, hvalidators, -⟩ := syncValidators_cases hsync
    · exact hcount hzero
    · rw [hvalidators] at hu
      obtain ⟨i, -, rfl⟩ := List.mem_map.mp hu
      dsimp only at hle
      rw [hempty] at hle
      exact absurd (hstaked v hv) (Nat.not_lt.mpr hle)
  · rintro (hcount | hall) v hv hnone
    · refine ⟨configuredEngine network slashes, ?_, v, hv, rfl, le_rfl⟩
      rw [exec_syncValidators]
      exact if_pos hcount
    · exact absurd (hall v hv) hnone

theorem simulation_validators_kept :
    GenesisValidatorsKept .ideal systemParams (configuredEngine .simulation []) (.new .empty)
      [.balance systemParams.stakingAddr 5, stakingMessage 10 5 unstakePayload] :=
  (genesis_validators_kept_iff .ideal .simulation [] (.new .empty) _ fun _ => rfl).mpr
    (Or.inl (by decide +kernel))

theorem outside_deposit_displaces :
    ¬GenesisValidatorsKept .ideal systemParams (configuredEngine .simulation []) (.new .empty)
      [stakingMessage 10 5 []] := by
  intro hkept
  have hnone : ¬SentUnstake systemParams [stakingMessage 10 5 []] defaultAccount := by
    rintro ⟨msg, data, hmem, -, hfrom, -⟩
    obtain ⟨rfl, -⟩ := Call.system.inj (List.mem_singleton.mp hmem)
    revert hfrom
    decide
  obtain ⟨e', hsync, u, hu, haddr, -⟩ := hkept ⟨defaultAccount, 100⟩ (by decide) hnone
  have hread : (StateDB.exec (syncValidators .ideal (configuredEngine .simulation []))
      (execCalls .ideal systemParams (.new .empty) [stakingMessage 10 5 []])).1.map
        ZeliusEngine.validators = some [⟨10, 0⟩] := by decide +kernel
  rw [hsync, Option.map_some, Option.some.injEq] at hread
  rw [hread, List.mem_singleton] at hu
  rw [hu] at haddr
  revert haddr
  decide

end Zephyria
