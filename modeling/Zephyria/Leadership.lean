import Zephyria.ValidatorSync

namespace Zephyria

def pickLeader (K : Keccak256) (vs : List Validator) (view : UInt64) : Option Address :=
  if totalStake vs = 0 then vs[view.toNat % vs.length]?.map Validator.address
  else leaderFor vs ((bytesToHash (K.sum (BigEndian.minimal 8 view.toNat))).toNat % totalStake vs)

def strike (vs : List Validator) (a : Address) : List Validator :=
  if vs.length ≤ 1 then vs else vs.eraseP fun v => v.address = a

def Removable (vs : List Validator) (a : Address) : Prop := 1 < vs.length ∧ a ∈ vs.map Validator.address

instance (vs : List Validator) (a : Address) : Decidable (Removable vs a) :=
  inferInstanceAs (Decidable (_ ∧ _))

section Lists

variable {K : Keccak256} {vs : List Validator} {a : Address}

theorem leaderFor_mem {target : ℕ} (h : leaderFor vs target = some a) : a ∈ vs.map Validator.address := by
  unfold leaderFor at h
  split at h
  next leader hselect =>
    obtain rfl := Option.some.inj h
    exact selectLeader_mem hselect
  next =>
    obtain ⟨v, hv, rfl⟩ := Option.map_eq_some_iff.mp h
    exact List.mem_map_of_mem (List.mem_of_mem_head? hv)

theorem pickLeader_mem {view : UInt64} (h : pickLeader K vs view = some a) : a ∈ vs.map Validator.address := by
  unfold pickLeader at h
  split at h
  · obtain ⟨v, hv, rfl⟩ := Option.map_eq_some_iff.mp h
    exact List.mem_map_of_mem (List.mem_of_getElem? hv)
  · exact leaderFor_mem h

theorem strike_of_not_removable (h : ¬Removable vs a) : strike vs a = vs := by
  unfold strike
  split
  · rfl
  next hlen =>
    apply List.eraseP_of_forall_not
    intro v hv heq
    apply h
    refine ⟨Nat.lt_of_not_le hlen, ?_⟩
    rw [← show v.address = a by simpa using heq]
    exact List.mem_map_of_mem hv

theorem map_address_strike (h : 1 < vs.length) :
    (strike vs a).map Validator.address = (vs.map Validator.address).erase a := by
  rw [strike, if_neg (by omega), List.erase_eq_eraseP, List.eraseP_map]
  congr 2
  funext v
  rw [Function.comp_apply, beq_eq_decide]
  exact decide_eq_decide.mpr eq_comm

end Lists

namespace ZeliusEngine

variable {K : Keccak256} {S : Sealing} {e e' : ZeliusEngine} {view : UInt64} {leader a : Address}

def Fresh (K : Keccak256) (e : ZeliusEngine) : Prop :=
  ∀ view leader, e.leaderSchedule.lookup view = some leader → pickLeader K e.validators view = some leader

theorem Fresh.of_empty (h : e.leaderSchedule = ∅) : e.Fresh K := by
  intro view leader hl
  rw [h] at hl
  cases hl

theorem getLeader_fst (h : e.Fresh K) (view : UInt64) :
    (e.getLeader K view).map Prod.fst = pickLeader K e.validators view := by
  unfold getLeader
  split
  next leader hl =>
    rw [h view leader hl]
    rfl
  next =>
    unfold pickLeader
    split
    · rw [Option.map_map]
      rfl
    · rw [Option.map_map]
      exact Option.map_id_apply

theorem getLeader_engine (h : e.getLeader K view = some (leader, e')) :
    e' = e ∨ pickLeader K e.validators view = some leader ∧
      e' = { e with leaderSchedule := e.leaderSchedule.insert view leader } := by
  unfold getLeader at h
  split at h
  next =>
    obtain ⟨-, rfl⟩ := Prod.mk.inj (Option.some.inj h)
    exact Or.inl rfl
  next =>
    split at h
    next =>
      obtain ⟨v, -, hv⟩ := Option.map_eq_some_iff.mp h
      obtain ⟨-, rfl⟩ := Prod.mk.inj hv
      exact Or.inl rfl
    next hstake =>
      obtain ⟨l, hpick, hl⟩ := Option.map_eq_some_iff.mp h
      obtain ⟨rfl, rfl⟩ := Prod.mk.inj hl
      refine Or.inr ⟨?_, rfl⟩
      rw [pickLeader, if_neg hstake, hpick]

theorem Fresh.getLeader (hf : e.Fresh K) (h : e.getLeader K view = some (leader, e')) :
    e'.validators = e.validators ∧ e'.Fresh K := by
  obtain rfl | ⟨hpick, rfl⟩ := getLeader_engine h
  · exact ⟨rfl, hf⟩
  · refine ⟨rfl, fun view' leader' hl => ?_⟩
    rw [lookup_insert_ite] at hl
    split at hl
    next heq =>
      obtain rfl := Option.some.inj hl
      rw [heq]
      exact hpick
    next => exact hf view' leader' hl

theorem verify_engine {b : Block} {r : Except VerifyError Unit} (h : e.verify K S b = some (r, e')) :
    e' = e ∨ ∃ leader, e.getLeader K (UInt64.ofNat b.header.number) = some (leader, e') := by
  unfold verify at h
  dsimp only at h
  split at h
  next =>
    obtain ⟨-, rfl⟩ := Prod.mk.inj (Option.some.inj h)
    exact Or.inl rfl
  next =>
    split at h
    next =>
      obtain ⟨-, rfl⟩ := Prod.mk.inj (Option.some.inj h)
      exact Or.inl rfl
    next =>
      split at h
      next => cases h
      next leader engine hleader =>
        split at h
        next =>
          obtain ⟨-, rfl⟩ := Prod.mk.inj (Option.some.inj h)
          exact Or.inr ⟨leader, hleader⟩
        next =>
          obtain ⟨-, rfl⟩ := Prod.mk.inj (Option.some.inj h)
          exact Or.inr ⟨leader, hleader⟩

theorem Fresh.verify (hf : e.Fresh K) {b : Block} {r : Except VerifyError Unit}
    (h : e.verify K S b = some (r, e')) : e'.validators = e.validators ∧ e'.Fresh K := by
  obtain rfl | ⟨leader, hleader⟩ := verify_engine h
  · exact ⟨rfl, hf⟩
  · exact hf.getLeader hleader

theorem removeValidator_cases (e : ZeliusEngine) (a : Address) :
    (e.removeValidator a).validators = strike e.validators a ∧
      (Removable e.validators a → (e.removeValidator a).leaderSchedule = ∅) ∧
      (¬Removable e.validators a → e.removeValidator a = e) := by
  unfold removeValidator strike
  split
  next hlen => exact ⟨rfl, fun h => absurd h.1 (by omega), fun _ => rfl⟩
  next hlen =>
    rw [List.eraseP_eq_eraseIdx]
    split
    next i hi =>
      rw [hi]
      refine ⟨rfl, fun _ => rfl, fun h => absurd ⟨Nat.lt_of_not_le hlen, ?_⟩ h⟩
      obtain ⟨hlt, hp, -⟩ := List.findIdx?_eq_some_iff_getElem.mp hi
      rw [← show e.validators[i].address = a by simpa using hp]
      exact List.mem_map_of_mem (List.getElem_mem hlt)
    next hi =>
      rw [hi]
      refine ⟨rfl, fun h => ?_, fun _ => rfl⟩
      obtain ⟨v, hv, hva⟩ := List.mem_map.mp h.2
      exact absurd hva (by simpa using List.findIdx?_eq_none_iff.mp hi v hv)

theorem Fresh.removeValidator (hf : e.Fresh K) (a : Address) : (e.removeValidator a).Fresh K := by
  obtain ⟨-, hremoved, hkept⟩ := removeValidator_cases e a
  by_cases h : Removable e.validators a
  · exact .of_empty (hremoved h)
  · rw [hkept h]
    exact hf

theorem recordNonCompliance_eq (e : ZeliusEngine) (a : Address) :
    (e.recordNonCompliance a).validators =
        (if 1000 ≤ (e.nonCompliantValidators.lookup a).getD 0 + 1 then strike e.validators a
          else e.validators) ∧
      (e.Fresh K → (e.recordNonCompliance a).Fresh K) := by
  unfold recordNonCompliance
  dsimp only
  split
  · refine ⟨(removeValidator_cases _ a).1, fun hf => ?_⟩
    apply Fresh.removeValidator
    exact hf
  · exact ⟨rfl, id⟩

theorem addValidator_cases (e : ZeliusEngine) (a : Address) (stake : ℕ) :
    (e.addValidator a stake).leaderSchedule = ∅ ∧ (e.addValidator a stake).validators.map Validator.address =
      if a ∈ e.validators.map Validator.address then e.validators.map Validator.address
      else e.validators.map Validator.address ++ [a] := by
  unfold addValidator
  split
  next i hi =>
    refine ⟨rfl, ?_⟩
    obtain ⟨hlt, hp, -⟩ := List.findIdx?_eq_some_iff_getElem.mp hi
    rw [if_pos]
    · apply List.ext_getElem? fun j => ?_
      simp only [recalculateSchedule, List.getElem?_map, List.getElem?_modify]
      cases e.validators[j]? with
      | none => rfl
      | some v => by_cases hij : i = j <;> simp [hij]
    · rw [← show e.validators[i].address = a by simpa using hp]
      exact List.mem_map_of_mem (List.getElem_mem hlt)
  next hi =>
    refine ⟨rfl, ?_⟩
    rw [if_neg]
    · exact List.map_append
    · intro hmem
      obtain ⟨v, hv, hva⟩ := List.mem_map.mp hmem
      exact absurd hva (by simpa using List.findIdx?_eq_none_iff.mp hi v hv)

end ZeliusEngine

def syncedList (w : Accounts) : List Validator :=
  (List.range' 1 ((w.storage syncValidatorAddr 0).toNat % 2 ^ 64)).map fun i =>
    let a := bytesToAddress (hashBytes (w.storage syncValidatorAddr (bigToHash i)))
    ⟨a, (w.storage syncStakingAddr (addressKey a)).toNat⟩

theorem syncValidators_cases {K : Keccak256} {e e' : ZeliusEngine} {s : StateDB}
    (h : (StateDB.exec (syncValidators K e) s).1 = some e') :
    ((book K s).storage syncValidatorAddr 0 = 0 ∧ e' = e) ∨
      ((book K s).storage syncValidatorAddr 0 ≠ 0 ∧ e'.validators = syncedList (book K s) ∧
        e'.leaderSchedule = ∅) := by
  rw [exec_syncValidators] at h
  dsimp only at h
  split at h
  next hcount => exact Or.inl ⟨hcount, (Option.some.inj h).symm⟩
  next hcount =>
    split at h
    next => cases h
    next =>
      rw [denote_readValidators] at h
      obtain rfl := Option.some.inj h
      exact Or.inr ⟨hcount, rfl, rfl⟩

end Zephyria
