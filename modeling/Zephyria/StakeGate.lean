import Zephyria.Lib.Runs
import Zephyria.Slashing

namespace Zephyria

/-- `append(s[:i], s[i+1:]...)` on an array whose first `n` elements are the slice `s`: the rest moves
down, and the last element stays behind as well. -/
def eraseInPlace {α : Type} (array : List α) (n i : ℕ) : List α :=
  array.take i ++ (array.take n).drop (i + 1) ++ array.drop (n - 1)

inductive SliceMove where
  | keep
  | push (a : Address)
  | erase (a : Address)
  | replace (l : List Address)

def SliceMove.apply (l : List Address) : SliceMove → List Address
  | .keep => l
  | .push a => l ++ [a]
  | .erase a => l.erase a
  | .replace l' => l'

structure Gate where
  consensus : Consensus
  config : List Address
  shared : Bool

inductive AuthOutcome where
  | removed
  | checked (isTrusted : Bool)
deriving DecidableEq

section Gate

variable (K : Keccak256) (S : Sealing) (p : SystemParams)

def handleAuth (config : List Address) (challenge signature : Bytes) : AuthOutcome :=
  match S.sigToPub (bytesToHash (K.sum challenge)) signature with
  | none => .removed
  | some addr => .checked (config.contains addr)

namespace Gate

def start (validators : List Validator) (s : StateDB) : Gate where
  consensus := ⟨newZelius validators, s⟩
  config := validators.map Validator.address
  shared := true

variable (g : Gate)

def addresses : List Address := g.consensus.engine.validators.map Validator.address

def removal (a : Address) : SliceMove := if Removable g.consensus.engine.validators a then .erase a else .keep

def move : EngineOp → SliceMove
  | .addValidator a _ => if g.addresses.contains a then .keep else .push a
  | .removeValidator a | .slash a => g.removal a
  | .recordNonCompliance a =>
    if 1000 ≤ (g.consensus.engine.nonCompliantValidators.lookup a).getD 0 + 1 then g.removal a else .keep
  | .syncValidators =>
    if (book K g.consensus.state).storage syncValidatorAddr 0 = 0 then .keep
    else .replace ((syncedList (book K g.consensus.state)).map Validator.address)
  | .getLeader _ | .verify _ | .message _ => .keep

/-- `append` to a slice of fewer elements than its array writes into the array, and to a full one it
moves to another array. -/
def moveConfig : SliceMove → List Address × Bool
  | .keep => (g.config, g.shared)
  | .push a =>
    if g.shared ∧ g.addresses.length < g.config.length then (g.config.set g.addresses.length a, true)
    else (g.config, false)
  | .erase a =>
    (if g.shared then eraseInPlace g.config g.addresses.length (g.addresses.idxOf a) else g.config, g.shared)
  | .replace _ => (g.config, false)

def step (op : EngineOp) : Option Gate :=
  (g.consensus.step K S p op).map fun c => ⟨c, (g.moveConfig (g.move K op)).1, (g.moveConfig (g.move K op)).2⟩

def run (ops : List EngineOp) : Option Gate := ops.foldlM (step K S p) g

end Gate

def Signs (a : Address) : Prop := ∃ challenge signature, S.sigToPub (bytesToHash (K.sum challenge)) signature = some a

def TrustFollows (g : Gate) : Prop :=
  ∀ challenge signature a, S.sigToPub (bytesToHash (K.sum challenge)) signature = some a →
    (handleAuth K S g.config challenge signature = .checked true ↔ a ∈ g.addresses)

/-- The configuration sees the change: a validator joins in a free slot of the configured array, one
leaves that neither the last slot of the list nor one behind it holds, and a new list has the
configured addresses. -/
def Gate.Sees (g : Gate) : SliceMove → Prop
  | .keep => True
  | .push a => Signs K S a → g.shared ∧ g.addresses.length < g.config.length
  | .erase a => Signs K S a → a ∈ g.addresses.erase a ∨ g.shared ∧ a ∉ g.config.drop (g.addresses.length - 1)
  | .replace l => ∀ a, Signs K S a → (a ∈ g.config ↔ a ∈ l)

end Gate

namespace Gate

variable {K : Keccak256} {S : Sealing} {p : SystemParams} {g g' : Gate} {op : EngineOp}

def OnArray (g : Gate) : Prop := g.shared → g.addresses <+: g.config

def Fits (g : Gate) : SliceMove → Prop
  | .push a => a ∉ g.addresses
  | .erase a => a ∈ g.addresses
  | .keep | .replace _ => True

theorem trustFollows_iff : TrustFollows K S g ↔ ∀ a, Signs K S a → (a ∈ g.config ↔ a ∈ g.addresses) := by
  constructor
  · rintro h a ⟨challenge, signature, hsig⟩
    rw [← h challenge signature a hsig]
    simp [handleAuth, hsig]
  · intro h challenge signature a hsig
    rw [← h a ⟨challenge, signature, hsig⟩]
    simp [handleAuth, hsig]

theorem removal_fits (a : Address) : g.Fits (g.removal a) := by
  unfold removal
  split
  next h => exact h.2
  next => trivial

theorem move_fits (op : EngineOp) : g.Fits (g.move K op) := by
  cases op with
  | addValidator a stake =>
    rw [move]
    split
    next => trivial
    next h => exact mt List.contains_iff_mem.mpr h
  | removeValidator a => exact removal_fits a
  | slash a => exact removal_fits a
  | recordNonCompliance a =>
    rw [move]
    split
    · exact removal_fits a
    · trivial
  | syncValidators =>
    rw [move]
    split <;> trivial
  | getLeader view => trivial
  | verify b => trivial
  | message c => trivial

theorem removal_apply (a : Address) :
    (g.removal a).apply g.addresses = (strike g.consensus.engine.validators a).map Validator.address := by
  unfold removal
  split
  next h => rw [map_address_strike h.1]; rfl
  next h => rw [strike_of_not_removable h]; rfl

theorem addresses_step (h : g.step K S p op = some g') : g'.addresses = (g.move K op).apply g.addresses := by
  obtain ⟨c, hc, rfl⟩ := Option.map_eq_some_iff.mp h
  cases op with
  | addValidator a stake =>
    obtain rfl := Option.some.inj hc
    refine (ZeliusEngine.addValidator_cases g.consensus.engine a stake).2.trans ?_
    change (if a ∈ g.addresses then g.addresses else g.addresses ++ [a]) = _
    rw [move]
    simp only [List.contains_iff_mem]
    split <;> rfl
  | removeValidator a | slash a =>
    obtain rfl := Option.some.inj hc
    refine Eq.trans ?_ (removal_apply a).symm
    exact congrArg _ (ZeliusEngine.removeValidator_cases g.consensus.engine a).1
  | recordNonCompliance a =>
    obtain rfl := Option.some.inj hc
    refine (congrArg _ (ZeliusEngine.recordNonCompliance_eq (K := K) g.consensus.engine a).1).trans ?_
    rw [move]
    split
    · exact (removal_apply a).symm
    · rfl
  | getLeader view =>
    obtain ⟨⟨leader, e'⟩, hleader, rfl⟩ := Option.map_eq_some_iff.mp hc
    obtain rfl | ⟨-, rfl⟩ := ZeliusEngine.getLeader_engine hleader <;> rfl
  | verify b =>
    obtain ⟨⟨r, e'⟩, hverify, rfl⟩ := Option.map_eq_some_iff.mp hc
    obtain rfl | ⟨leader, hleader⟩ := ZeliusEngine.verify_engine hverify
    · rfl
    · obtain rfl | ⟨-, rfl⟩ := ZeliusEngine.getLeader_engine hleader <;> rfl
  | syncValidators =>
    obtain ⟨e', hsync, rfl⟩ := Option.map_eq_some_iff.mp hc
    rw [move]
    obtain ⟨hzero, rfl⟩ | ⟨hcount, hvalidators, -⟩ := syncValidators_cases hsync
    · rw [if_pos hzero]
      rfl
    · rw [if_neg hcount]
      exact congrArg _ hvalidators
  | message c =>
    obtain rfl := Option.some.inj hc
    rfl

section Moves

variable {a : Address}

theorem config_push (hg : g.addresses <+: g.config) (hroom : g.addresses.length < g.config.length) :
    g.config.set g.addresses.length a = g.addresses ++ [a] ++ g.config.drop (g.addresses.length + 1) := by
  obtain ⟨rest, hrest⟩ := hg
  rw [← hrest] at hroom ⊢
  cases rest with
  | nil => simp at hroom
  | cons b rest => simp

theorem config_erase (hg : g.addresses <+: g.config) (ha : a ∈ g.addresses) :
    eraseInPlace g.config g.addresses.length (g.addresses.idxOf a) =
      g.addresses.erase a ++ g.config.drop (g.addresses.length - 1) := by
  have htake : g.config.take g.addresses.length = g.addresses := (List.prefix_iff_eq_take.mp hg).symm
  have hi := List.idxOf_lt_length_of_mem ha
  rw [eraseInPlace, htake, ← List.eraseIdx_idxOf_eq_erase, List.eraseIdx_eq_take_drop_succ]
  congr 2
  rw [← htake, List.take_take, Nat.min_eq_left (by rw [htake]; exact hi.le), htake]

theorem onArray_move {m : SliceMove} (hg : g.OnArray) (hfit : g.Fits m) :
    (g.moveConfig m).2 → m.apply g.addresses <+: (g.moveConfig m).1 := by
  intro hshared
  cases m with
  | keep => exact hg hshared
  | push a =>
    rw [moveConfig] at hshared ⊢
    split at hshared
    next h =>
      rw [if_pos h, config_push (hg h.1) h.2]
      exact List.prefix_append _ _
    next => cases hshared
  | erase a =>
    rw [moveConfig] at hshared ⊢
    rw [if_pos hshared, config_erase (hg hshared) hfit]
    exact List.prefix_append _ _
  | replace l => cases hshared

theorem sees_iff {m : SliceMove} (hg : g.OnArray) (hfit : g.Fits m)
    (htrust : ∀ a, Signs K S a → (a ∈ g.config ↔ a ∈ g.addresses)) :
    (∀ a, Signs K S a → (a ∈ (g.moveConfig m).1 ↔ a ∈ m.apply g.addresses)) ↔ g.Sees K S m := by
  cases m with
  | keep => exact iff_of_true htrust trivial
  | push a =>
    rw [moveConfig]
    split
    next h =>
      refine iff_of_true (fun b hb => ?_) fun _ => h
      rw [config_push (hg h.1) h.2, List.mem_append]
      exact ⟨fun hmem => hmem.elim id fun hdrop =>
        List.mem_append_left _ ((htrust b hb).mp (List.mem_of_mem_drop hdrop)), Or.inl⟩
    next h =>
      constructor
      · intro hall ha
        have hmem := (hall a ha).mpr (by simp [SliceMove.apply])
        exact absurd ((htrust a ha).mp hmem) hfit
      · intro hsees b hb
        have hne : b ≠ a := fun heq => h (hsees (heq ▸ hb))
        rw [htrust b hb]
        simp [SliceMove.apply, hne]
  | erase a =>
    have hother (b : Address) (hb : b ≠ a) : b ∈ g.addresses ↔ b ∈ g.addresses.erase a :=
      (List.mem_erase_of_ne hb).symm
    rw [moveConfig, Sees]
    dsimp only [SliceMove.apply]
    split
    next h =>
      rw [config_erase (hg h) hfit]
      constructor
      · intro hall ha
        by_contra hnot
        rw [not_or, not_and, not_not] at hnot
        exact hnot.1 ((hall a ha).mp (List.mem_append_right _ (hnot.2 h)))
      · intro hsees b hb
        refine ⟨fun hmem => (List.mem_append.mp hmem).elim id fun hdrop => ?_, List.mem_append_left _⟩
        by_cases heq : b = a
        · subst heq
          exact (hsees hb).resolve_right fun hnot => hnot.2 hdrop
        · exact (hother b heq).mp ((htrust b hb).mp (List.mem_of_mem_drop hdrop))
    next h =>
      constructor
      · intro hall ha
        exact Or.inl ((hall a ha).mp ((htrust a ha).mpr hfit))
      · intro hsees b hb
        rw [htrust b hb]
        by_cases heq : b = a
        · subst heq
          exact iff_of_true hfit ((hsees hb).resolve_right fun hnot => h hnot.1)
        · exact hother b heq
  | replace l => exact Iff.rfl

end Moves

theorem OnArray.step (hg : g.OnArray) (h : g.step K S p op = some g') : g'.OnArray := by
  intro hshared
  rw [addresses_step h]
  obtain ⟨c, -, rfl⟩ := Option.map_eq_some_iff.mp h
  exact onArray_move hg (move_fits op) hshared

theorem trustFollows_step (hg : g.OnArray) (htrust : TrustFollows K S g) (h : g.step K S p op = some g') :
    TrustFollows K S g' ↔ g.Sees K S (g.move K op) := by
  rw [← sees_iff hg (move_fits op) (trustFollows_iff.mp htrust), trustFollows_iff, addresses_step h]
  obtain ⟨c, -, rfl⟩ := Option.map_eq_some_iff.mp h
  exact Iff.rfl

end Gate

theorem trust_follows_iff (K : Keccak256) (S : Sealing) (p : SystemParams) (validators : List Validator)
    (s : StateDB) (ops : List EngineOp) :
    (∀ pre, pre <+: ops → ∀ g, (Gate.start validators s).run K S p pre = some g → TrustFollows K S g) ↔
      ∀ pre op, pre ++ [op] <+: ops → ∀ g, (Gate.start validators s).run K S p pre = some g →
        g.step K S p op ≠ none → g.Sees K S (g.move K op) := by
  apply forall_prefix_foldlM_iff (I := Gate.OnArray)
  · intro g g' op hg hstep
    exact hg.step hstep
  · intro g op g' hg htrust hstep
    exact Gate.trustFollows_step hg htrust hstep
  · intro _
    exact List.prefix_rfl
  · exact Gate.trustFollows_iff.mpr fun a _ => Iff.rfl

def namedSealing : Sealing where
  headerHash _ := 1
  sigToPub _ signature := some (bytesToAddress signature)
  sign _ := List.replicate 65 0

def stakeAndSync : List EngineOp := [.message (stakingMessage 10 5 []), .syncValidators]

theorem trust_misses_stake :
    (∃ g, (Gate.start (getNetworkConfig .simulation).validators (.new .empty)).run .ideal namedSealing systemParams
        stakeAndSync = some g ∧ ¬TrustFollows .ideal namedSealing g) ∧
      ∃ g, (Gate.start (getNetworkConfig .testnet).validators (.new .empty)).run .ideal namedSealing systemParams
        [.slash 0xf17f52151EbEF6C7334FAD080c5704D77216b732] = some g ∧ ¬TrustFollows .ideal namedSealing g := by
  have hsign (a : Address) : Signs .ideal namedSealing a := by
    refine ⟨[], hashBytes (addressKey a), ?_⟩
    exact congrArg some (bytesToAddress_addressKey a)
  have hbroken (g : Gate) (a : Address) (h : ¬(a ∈ g.config ↔ a ∈ g.addresses)) :
      ¬TrustFollows .ideal namedSealing g := fun htrust => h (Gate.trustFollows_iff.mp htrust a (hsign a))
  have hstaked : ((Gate.start (getNetworkConfig .simulation).validators (.new .empty)).run .ideal namedSealing
      systemParams stakeAndSync).map (fun g => (g.config, g.addresses)) =
        some (simulationValidators.map Validator.address, [10]) := by
    decide +kernel
  have hslashed : ((Gate.start (getNetworkConfig .testnet).validators (.new .empty)).run .ideal namedSealing
      systemParams [.slash 0xf17f52151EbEF6C7334FAD080c5704D77216b732]).map (fun g => (g.config, g.addresses)) =
        some (defaultValidators.map Validator.address, (defaultValidators.take 3).map Validator.address) := by
    decide +kernel
  constructor
  · obtain ⟨g, hg, heq⟩ := Option.map_eq_some_iff.mp hstaked
    refine ⟨g, hg, hbroken g 10 ?_⟩
    rw [(Prod.mk.inj heq).1, (Prod.mk.inj heq).2]
    decide
  · obtain ⟨g, hg, heq⟩ := Option.map_eq_some_iff.mp hslashed
    refine ⟨g, hg, hbroken g 0xf17f52151EbEF6C7334FAD080c5704D77216b732 ?_⟩
    rw [(Prod.mk.inj heq).1, (Prod.mk.inj heq).2]
    decide

end Zephyria
