import Zephyria.StakingHistory
import Zephyria.Zelius

namespace Zephyria

section Sync

variable (K : Keccak256)

def syncValidatorAddr : Address := 0x3000

def syncStakingAddr : Address := 0x2000

def readValidators : List ℕ → StateM (List Validator)
  | [] => pure []
  | i :: is => do
    let addrHash ← getState K syncValidatorAddr (bigToHash i)
    let addr := bytesToAddress (hashBytes addrHash)
    let stake ← getState K syncStakingAddr (addressKey addr)
    let rest ← readValidators is
    pure (⟨addr, stake.toNat⟩ :: rest)

/-- No result where the loop counter can never pass the count, the largest `uint64`. -/
def syncValidators (e : ZeliusEngine) : StateM (Option ZeliusEngine) := do
  let count ← getState K syncValidatorAddr 0
  if count = 0 then pure (some e)
  else if count.toNat % 2 ^ 64 = 2 ^ 64 - 1 then pure none
  else
    let newValidators ← readValidators K (List.range' 1 (count.toNat % 2 ^ 64))
    pure (some (ZeliusEngine.recalculateSchedule
      { e with validators := newValidators, f := (newValidators.length - 1) / 3 }))

end Sync

def registeredValidators (p : SystemParams) (w : Accounts) : List Validator :=
  (List.range' 1 (w.slot p 0).toNat).map fun i =>
    let a := bytesToAddress (hashBytes (w.slot p (bigToHash i)))
    ⟨a, (w.stake p a).toNat⟩

def Synced (K : Keccak256) (p : SystemParams) (e : ZeliusEngine) (s : StateDB) : Prop :=
  ∃ e', (StateDB.exec (syncValidators K e) s).1 = some e' ∧ e'.validators = registeredValidators p (book K s)

section Frame

variable {p : SystemParams} {w : Accounts} {b : Address}

theorem removeValidator_elsewhere (hs : b ≠ p.stakingAddr) (hv : b ≠ p.validatorAddr) (key : Hash) :
    (w.removeValidator p key).storage b = w.storage b := by
  unfold Accounts.removeValidator
  simp only
  split <;> simp [hs, hv, Accounts.swapLast]

theorem stakingContract_elsewhere (hs : b ≠ p.stakingAddr) (hv : b ≠ p.validatorAddr) (a : Address)
    (value : ℕ) (data : Bytes) : (w.stakingContract p a value data).storage b = w.storage b := by
  have hdeposit : (if value > 0 then w.deposit p a value else w).storage b = w.storage b := by
    unfold Accounts.deposit
    simp only
    split_ifs <;> simp [hs, hv]
  unfold Accounts.stakingContract
  simp only
  rw [← hdeposit]
  generalize (if value > 0 then w.deposit p a value else w) = deposited
  unfold Accounts.unstake
  split_ifs <;> simp [removeValidator_elsewhere hs hv, Accounts.transfer]

variable {K : Keccak256}

theorem execCalls_elsewhere (hs : b ≠ p.stakingAddr) (hv : b ≠ p.validatorAddr) (s : StateDB)
    (calls : List Call) : (book K (execCalls K p s calls)).storage b = (book K s).storage b := by
  induction calls using List.reverseRecOn with
  | nil => rfl
  | append_singleton calls c ih =>
    rw [execCalls_concat, execCall_storage, ← ih]
    cases c with
    | balance a v => rfl
    | system msg data =>
      simp only
      split
      · exact stakingContract_elsewhere hs hv _ _ _
      · rfl

end Frame

section Reads

variable (K : Keccak256) (m : Bytes → Bytes)

theorem denote_readValidators (is : List ℕ) : (readValidators K is).denote m =
    (is.map fun i =>
      let a := bytesToAddress (hashBytes ((accounts K m).storage syncValidatorAddr (bigToHash i)))
      ⟨a, ((accounts K m).storage syncStakingAddr (addressKey a)).toNat⟩, m) := by
  induction is with
  | nil => rfl
  | cons i is ih => simp [readValidators, ih]

end Reads

theorem exec_syncValidators (K : Keccak256) (e : ZeliusEngine) (s : StateDB) :
    (StateDB.exec (syncValidators K e) s).1 =
      let count := (book K s).storage syncValidatorAddr 0
      if count = 0 then some e
      else if count.toNat % 2 ^ 64 = 2 ^ 64 - 1 then none
      else
        let newValidators := ((readValidators K (List.range' 1 (count.toNat % 2 ^ 64))).denote
          s.getVerkleValue).1
        some (ZeliusEngine.recalculateSchedule
          { e with validators := newValidators, f := (newValidators.length - 1) / 3 }) := by
  rw [(StateDB.exec_denote _ s).1]
  simp only [syncValidators, Prog.denote_bind, Prog.denote_ite, Prog.denote_pure, denote_getState]
  split_ifs <;> rfl

theorem Registered.registeredValidators_cons {p : SystemParams} {N : ℕ} {w : Accounts} {a : Address}
    {l : List Address} (h : Registered p N w (a :: l)) :
    ∃ v vs, registeredValidators p w = v :: vs ∧ v.stake ≠ 0 := by
  have hlen : (a :: l).length < 2 ^ 256 := by
    have hle := h.spread.length_le
    have hhigh := h.spread.high a List.mem_cons_self
    have hlt := a.isLt
    omega
  have hcount : (w.slot p 0).toNat = l.length + 1 := by
    rw [Accounts.slot, h.layout.count, toNat_bigToHash hlen, List.length_cons]
  have hslot : w.slot p (bigToHash 1) = addressKey a := h.layout.slot 0 a rfl
  have hstake := (h.staked a).mp List.mem_cons_self
  unfold registeredValidators
  rw [hcount, List.range'_succ, List.map_cons, hslot, bytesToAddress_addressKey]
  refine ⟨_, _, rfl, fun hz => hstake (BitVec.eq_of_toNat_eq hz)⟩

/-- Whatever the registry holds, the engine reads the stakes where none are recorded. -/
theorem synced_iff (K : Keccak256) (network : Network) (s : StateDB) (calls : List Call) (e : ZeliusEngine)
    (hstart : Untouched (getNetworkConfig network).params (book K s))
    (hreward : ∀ k, (book K s).storage (getNetworkConfig network).params.rewardAddr k = 0)
    (hsender : ∀ a ∈ senders calls, deposits (getNetworkConfig network).params calls < a.toNat)
    (hvalue : ∀ msg data, Call.system msg data ∈ calls → msg.value < 2 ^ 256) :
    Synced K (getNetworkConfig network).params e (execCalls K (getNetworkConfig network).params s calls) ↔
      e.validators = [] ∧
        (book K (execCalls K (getNetworkConfig network).params s calls)).slot
          (getNetworkConfig network).params 0 = 0 := by
  rw [getNetworkConfig_params] at *
  have hp : systemParams.stakingAddr ≠ systemParams.validatorAddr := by decide
  obtain ⟨l, hl, -, -⟩ := registered_execCalls hp hstart calls le_rfl hsender hvalue
  have hempty (k : Hash) : (book K (execCalls K systemParams s calls)).storage syncStakingAddr k = 0 := by
    rw [execCalls_elsewhere (by decide) (by decide)]
    exact hreward k
  generalize execCalls K systemParams s calls = s' at hl hempty ⊢
  have hsync := exec_syncValidators K e s'
  by_cases hcount : (book K s').slot systemParams 0 = 0
  · have hnone : registeredValidators systemParams (book K s') = [] := by
      rw [registeredValidators, hcount]
      rfl
    rw [Synced, hsync, hnone]
    simp only [show (book K s').storage syncValidatorAddr 0 = 0 from hcount, if_true, hcount, and_true,
      Option.some.injEq, exists_eq_left']
  · refine iff_of_false ?_ fun h => hcount h.2
    rintro ⟨e', he', hval⟩
    cases l with
    | nil => exact hcount (hl.layout.count.trans rfl)
    | cons a l =>
      obtain ⟨v, vs, hreg, hv⟩ := hl.registeredValidators_cons
      rw [hreg] at hval
      rw [hsync] at he'
      simp only [show (book K s').storage syncValidatorAddr 0 ≠ 0 from hcount, if_false] at he'
      split at he'
      · cases he'
      · rw [denote_readValidators] at he'
        obtain rfl := Option.some.inj he'
        have hmem : v ∈ v :: vs := List.mem_cons_self
        rw [← hval] at hmem
        obtain ⟨i, -, rfl⟩ := List.mem_map.mp hmem
        exact hv (by simp only [hempty]; rfl)

def unstakingRun : List Call :=
  [.balance systemParams.stakingAddr 5, stakingMessage 10 5 [], stakingMessage 10 0 unstakePayload]

theorem mem_unstakingRun {msg : Message} {data : Bytes} (h : Call.system msg data ∈ unstakingRun) :
    msg.fromAddr = 10 ∧ msg.value ≤ 5 := by
  simp only [unstakingRun, stakingMessage, List.mem_cons, Call.system.injEq, reduceCtorEq, false_or,
    List.not_mem_nil, or_false] at h
  rcases h with ⟨rfl, -⟩ | ⟨rfl, -⟩ <;> decide

theorem synced_when_unstaked :
    Synced .ideal systemParams (newZelius []) (execCalls .ideal systemParams (.new .empty) unstakingRun) ∧
      ¬Synced .ideal systemParams (newZelius []) (execCalls .ideal systemParams (.new .empty) stakingRun) := by
  constructor
  · refine (synced_iff .ideal .simulation (.new .empty) unstakingRun (newZelius []) (fun _ => ⟨rfl, rfl⟩)
      (fun _ => rfl) ?_ ?_).mpr ⟨rfl, by decide +kernel⟩
    · rintro a ⟨msg, data, hm, rfl⟩
      rw [(mem_unstakingRun hm).1]
      decide
    · intro msg data hm
      have hle := (mem_unstakingRun hm).2
      omega
  · intro hsynced
    obtain ⟨-, hcount⟩ := (synced_iff .ideal .simulation (.new .empty) stakingRun (newZelius []) (fun _ => ⟨rfl, rfl⟩)
      (fun _ => rfl) senders_stakingRun values_stakingRun).mp hsynced
    revert hcount
    decide +kernel

theorem sync_misses_stake :
    ¬Synced .ideal systemParams (newZelius (getNetworkConfig .simulation).validators)
      (execCalls .ideal systemParams (.new .empty) [stakingMessage 10 5 []]) := by
  rintro ⟨e', he', hval⟩
  have hread : (StateDB.exec (syncValidators .ideal (newZelius (getNetworkConfig .simulation).validators))
      (execCalls .ideal systemParams (.new .empty) [stakingMessage 10 5 []])).1.map
        ZeliusEngine.validators = some [⟨10, 0⟩] := by decide +kernel
  have hreg : registeredValidators systemParams (book .ideal (execCalls .ideal systemParams (.new .empty)
      [stakingMessage 10 5 []])) = [⟨10, 5⟩] := by decide +kernel
  rw [he', Option.map_some, hval, hreg] at hread
  revert hread
  decide

end Zephyria
