import Zephyria.Genesis
import Zephyria.StateDB

namespace Zephyria

structure ZeliusEngine where
  validators : List Validator
  f : ℕ
  nonCompliantValidators : Table Address ℕ
  leaderSchedule : Table UInt64 Address

inductive VerifyError where
  | missingSignature
  | signatureRecoveryFailed
  | wrongLeader (expected got : Address)

structure Sealing where
  headerHash : Header → Hash
  sigToPub : Hash → Bytes → Option Address
  sign : Hash → Bytes

def newZelius (validators : List Validator) : ZeliusEngine where
  validators := validators
  f := (validators.length - 1) / 3
  nonCompliantValidators := ∅
  leaderSchedule := ∅

def totalStake (vs : List Validator) : ℕ := (vs.map Validator.stake).sum

def selectLeader (target : ℕ) : ℕ → List Validator → Option Address
  | _, [] => none
  | current, v :: vs =>
    if current + v.stake ≥ target then some v.address else selectLeader target (current + v.stake) vs

def leaderFor (vs : List Validator) (target : ℕ) : Option Address :=
  match selectLeader target 0 vs with
  | some leader => some leader
  | none => vs.head?.map Validator.address

def sealBlock (S : Sealing) (b : Block) : Block :=
  let sig := S.sign (S.headerHash { b.header with extraData := [] })
  { b with header := { b.header with extraData := b.header.extraData ++ sig } }

namespace ZeliusEngine

variable (e : ZeliusEngine)

def recalculateSchedule : ZeliusEngine := { e with leaderSchedule := ∅ }

/-- No result where the source indexes an empty validator list. -/
def getLeader (K : Keccak256) (view : UInt64) : Option (Address × ZeliusEngine) :=
  match e.leaderSchedule.lookup view with
  | some leader => some (leader, e)
  | none =>
    if totalStake e.validators = 0 then
      e.validators[view.toNat % e.validators.length]?.map fun v => (v.address, e)
    else
      let seed := bytesToHash (K.sum (BigEndian.minimal 8 view.toNat))
      let target := seed.toNat % totalStake e.validators
      (leaderFor e.validators target).map fun leader =>
        (leader, { e with leaderSchedule := e.leaderSchedule.insert view leader })

def verify (K : Keccak256) (S : Sealing) (b : Block) : Option (Except VerifyError Unit × ZeliusEngine) :=
  let extra := b.header.extraData
  if extra.length < 65 then some (.error .missingSignature, e)
  else
    let sig := extra.drop (extra.length - 65)
    let preSealExtra := extra.take (extra.length - 65)
    match S.sigToPub (S.headerHash { b.header with extraData := preSealExtra }) sig with
    | none => some (.error .signatureRecoveryFailed, e)
    | some signer =>
      match e.getLeader K (UInt64.ofNat b.header.number) with
      | none => none
      | some (expectedLeader, e) =>
        if expectedLeader ≠ signer then some (.error (.wrongLeader expectedLeader signer), e)
        else some (.ok (), e)

theorem getLeader_again {e e' : ZeliusEngine} {K : Keccak256} {view : UInt64} {leader : Address}
    (h : e.getLeader K view = some (leader, e')) : e'.getLeader K view = some (leader, e') := by
  have hpick := h
  unfold getLeader at h
  split at h
  next =>
    obtain ⟨-, rfl⟩ := Prod.mk.inj (Option.some.inj h)
    exact hpick
  next =>
    split at h
    · obtain ⟨v, -, hv⟩ := Option.map_eq_some_iff.mp h
      obtain ⟨-, rfl⟩ := Prod.mk.inj hv
      exact hpick
    · obtain ⟨l, -, hl⟩ := Option.map_eq_some_iff.mp h
      obtain ⟨rfl, rfl⟩ := Prod.mk.inj hl
      simp [getLeader]

theorem exists_leaderFor {vs : List Validator} (h : vs ≠ []) (target : ℕ) :
    ∃ leader, leaderFor vs target = some leader := by
  unfold leaderFor
  cases selectLeader target 0 vs with
  | some leader => exact ⟨leader, rfl⟩
  | none =>
    obtain ⟨v, vs, rfl⟩ := List.exists_cons_of_ne_nil h
    exact ⟨v.address, rfl⟩

theorem exists_getLeader (K : Keccak256) {vs : List Validator} (h : totalStake vs ≠ 0) (view : UInt64) :
    ∃ leader e', (newZelius vs).getLeader K view = some (leader, e') := by
  have hne : vs ≠ [] := by
    rintro rfl
    exact h rfl
  obtain ⟨leader, hleader⟩ := exists_leaderFor hne
    ((bytesToHash (K.sum (BigEndian.minimal 8 view.toNat))).toNat % totalStake vs)
  simp [getLeader, newZelius, h, hleader]

theorem leaderFor_singleton (v : Validator) (target : ℕ) : leaderFor [v] target = some v.address := by
  unfold leaderFor selectLeader
  split <;> simp_all [selectLeader]

theorem getLeader_lone (K : Keccak256) {v : Validator} (h : v.stake ≠ 0) (view : UInt64) :
    ∃ e', (newZelius [v]).getLeader K view = some (v.address, e') := by
  simp [getLeader, newZelius, totalStake, leaderFor_singleton, h]

theorem verify_ok_iff {e e' : ZeliusEngine} {K : Keccak256} {S : Sealing} {b : Block} :
    e.verify K S b = some (.ok (), e') ↔ 65 ≤ b.header.extraData.length ∧
      ∃ signer, S.sigToPub (S.headerHash { b.header with
          extraData := b.header.extraData.take (b.header.extraData.length - 65) })
        (b.header.extraData.drop (b.header.extraData.length - 65)) = some signer ∧
        e.getLeader K (UInt64.ofNat b.header.number) = some (signer, e') := by
  unfold verify
  dsimp only
  constructor
  · intro h
    split at h
    next => cases h
    next hlen =>
      split at h
      next => cases h
      next signer hsigner =>
        split at h
        next => cases h
        next leader engine hleader =>
          split at h
          next => cases h
          next heq =>
            obtain rfl : leader = signer := not_not.mp heq
            obtain ⟨-, rfl⟩ := Prod.mk.inj (Option.some.inj h)
            exact ⟨Nat.le_of_not_lt hlen, leader, hsigner, hleader⟩
  · rintro ⟨hlen, signer, hsigner, hleader⟩
    rw [if_neg (Nat.not_lt.mpr hlen), hsigner]
    dsimp only
    rw [hleader]
    exact if_neg (not_not.mpr rfl)

theorem verify_again {e e' : ZeliusEngine} {K : Keccak256} {S : Sealing} {b : Block}
    (h : e.verify K S b = some (.ok (), e')) : e'.verify K S b = some (.ok (), e') := by
  obtain ⟨hlen, signer, hsigner, hleader⟩ := verify_ok_iff.mp h
  exact verify_ok_iff.mpr ⟨hlen, signer, hsigner, getLeader_again hleader⟩

def addValidator (addr : Address) (stake : ℕ) : ZeliusEngine :=
  match e.validators.findIdx? (fun v => v.address = addr) with
  | some i =>
    recalculateSchedule
      { e with validators := e.validators.modify i fun v => { v with stake := v.stake + stake } }
  | none =>
    recalculateSchedule
      { e with validators := e.validators ++ [⟨addr, stake⟩], f := e.validators.length / 3 }

def removeValidator (addr : Address) : ZeliusEngine :=
  if e.validators.length ≤ 1 then e
  else
    match e.validators.findIdx? (fun v => v.address = addr) with
    | some i =>
      recalculateSchedule
        { e with validators := e.validators.eraseIdx i, f := (e.validators.length - 1 - 1) / 3 }
    | none => e

def slash (addr : Address) : ZeliusEngine := e.removeValidator addr

def recordNonCompliance (addr : Address) : ZeliusEngine :=
  let count := (e.nonCompliantValidators.lookup addr).getD 0 + 1
  let e := { e with nonCompliantValidators := e.nonCompliantValidators.insert addr count }
  if count ≥ 1000 then e.slash addr else e

end ZeliusEngine

section Selection

def stakeBefore (vs : List Validator) (i : ℕ) : ℕ := totalStake (vs.take i)

def leaderCount (vs : List Validator) (a : Address) : ℕ :=
  ((Finset.range (totalStake vs)).filter fun target => leaderFor vs target = some a).card

theorem stakeBefore_cons (v : Validator) (vs : List Validator) (i : ℕ) :
    stakeBefore (v :: vs) (i + 1) = v.stake + stakeBefore vs i := by
  simp [stakeBefore, totalStake]

theorem stakeBefore_le (vs : List Validator) (i : ℕ) : stakeBefore vs i ≤ totalStake vs := by
  unfold stakeBefore totalStake
  exact ((List.take_sublist i vs).map _).sum_le_sum (by simp)

theorem selectLeader_mem {target current : ℕ} {vs : List Validator} {a : Address}
    (h : selectLeader target current vs = some a) : a ∈ vs.map Validator.address := by
  induction vs generalizing current with
  | nil => cases h
  | cons v vs ih =>
    unfold selectLeader at h
    split at h
    · obtain rfl : v.address = a := by simpa using h
      simp
    · exact List.mem_cons_of_mem _ (ih h)

theorem selectLeader_ne_none {target current : ℕ} {vs : List Validator} (hne : vs ≠ [])
    (h : target ≤ current + totalStake vs) : selectLeader target current vs ≠ none := by
  induction vs generalizing current with
  | nil => exact absurd rfl hne
  | cons v vs ih =>
    unfold selectLeader
    split
    · simp
    next hlt =>
      have hs : totalStake (v :: vs) = v.stake + totalStake vs := by simp [totalStake]
      refine ih ?_ (by omega)
      rintro rfl
      simp [totalStake] at h
      omega

theorem selectLeader_iff {target current : ℕ} {vs : List Validator}
    (hn : (vs.map Validator.address).Nodup) {i : ℕ} (hi : i < vs.length) :
    selectLeader target current vs = some vs[i].address ↔
      target ≤ current + stakeBefore vs (i + 1) ∧ (i = 0 ∨ current + stakeBefore vs i < target) := by
  induction vs generalizing current i with
  | nil => cases hi
  | cons v vs ih =>
    obtain ⟨hv, hn⟩ := List.nodup_cons.mp hn
    rw [stakeBefore_cons]
    unfold selectLeader
    cases i with
    | zero =>
      have hz : stakeBefore vs 0 = 0 := by simp [stakeBefore, totalStake]
      split
      next hge => simp [hz, hge]
      next hlt =>
        apply iff_of_false (fun h => hv (selectLeader_mem h))
        rintro ⟨hle, -⟩
        omega
    | succ i =>
      have hi' : i < vs.length := by simpa using hi
      rw [stakeBefore_cons]
      split
      next hge =>
        refine iff_of_false (fun h => hv ?_) (by omega)
        have he : v.address = vs[i].address := by simpa using h
        rw [he]
        exact List.mem_map_of_mem (List.getElem_mem hi')
      next hlt =>
        rw [List.getElem_cons_succ, ih hn hi']
        by_cases hi0 : i = 0
        · subst hi0
          have hz : stakeBefore vs 0 = 0 := by simp [stakeBefore, totalStake]
          omega
        · omega

theorem leaderFor_iff {vs : List Validator} (hn : (vs.map Validator.address).Nodup) {target : ℕ}
    (ht : target < totalStake vs) {i : ℕ} (hi : i < vs.length) :
    leaderFor vs target = some vs[i].address ↔
      target ≤ stakeBefore vs (i + 1) ∧ (i = 0 ∨ stakeBefore vs i < target) := by
  have hne : vs ≠ [] := List.ne_nil_of_length_pos (by omega)
  have hsome : leaderFor vs target = selectLeader target 0 vs := by
    unfold leaderFor
    cases h : selectLeader target 0 vs with
    | none => exact absurd h (selectLeader_ne_none hne (by omega))
    | some a => rfl
  rw [hsome, selectLeader_iff hn hi]
  simp only [Nat.zero_add]

theorem leaderCount_head {v : Validator} {vs : List Validator}
    (hn : ((v :: vs).map Validator.address).Nodup) :
    leaderCount (v :: vs) v.address = min (v.stake + 1) (totalStake (v :: vs)) := by
  have hset : ((Finset.range (totalStake (v :: vs))).filter fun t =>
      leaderFor (v :: vs) t = some v.address) = Finset.range (min (v.stake + 1) (totalStake (v :: vs))) := by
    ext t
    simp only [Finset.mem_filter, Finset.mem_range]
    have hz : stakeBefore vs 0 = 0 := by simp [stakeBefore, totalStake]
    constructor
    · rintro ⟨ht, hl⟩
      have h := (leaderFor_iff hn ht (i := 0) (by simp)).mp hl
      rw [stakeBefore_cons, hz] at h
      omega
    · intro ht
      refine ⟨by omega, (leaderFor_iff hn (by omega) (i := 0) (by simp)).mpr ?_⟩
      rw [stakeBefore_cons, hz]
      omega
  rw [leaderCount, hset, Finset.card_range]

theorem leaderCount_succ {vs : List Validator} (hn : (vs.map Validator.address).Nodup) {i : ℕ}
    (hi : i + 1 < vs.length) :
    leaderCount vs vs[i + 1].address =
      min (stakeBefore vs (i + 1 + 1)) (totalStake vs - 1) - stakeBefore vs (i + 1) := by
  have hset : ((Finset.range (totalStake vs)).filter fun t => leaderFor vs t = some vs[i + 1].address) =
      Finset.Ioc (stakeBefore vs (i + 1)) (min (stakeBefore vs (i + 1 + 1)) (totalStake vs - 1)) := by
    ext t
    simp only [Finset.mem_filter, Finset.mem_range, Finset.mem_Ioc]
    constructor
    · rintro ⟨ht, hl⟩
      have h := (leaderFor_iff hn ht hi).mp hl
      omega
    · intro ht
      exact ⟨by omega, (leaderFor_iff hn (by omega) hi).mpr (by omega)⟩
  rw [leaderCount, hset, Nat.card_Ioc]

/-- Selection is proportional to stake exactly when the first validator holds all of it: target zero
goes to the first validator whatever its stake, and every later interval is shifted by one. -/
theorem leaderCount_proportional_iff (v : Validator) (vs : List Validator)
    (hn : ((v :: vs).map Validator.address).Nodup) (hpos : 0 < totalStake (v :: vs)) :
    (∀ u ∈ v :: vs, leaderCount (v :: vs) u.address = u.stake) ↔ v.stake = totalStake (v :: vs) := by
  have hle := stakeBefore_le (v :: vs) 1
  have hone : stakeBefore (v :: vs) 1 = v.stake := by simp [stakeBefore, totalStake]
  constructor
  · intro h
    have hhead := h v List.mem_cons_self
    rw [leaderCount_head hn] at hhead
    omega
  · intro hall u hu
    obtain ⟨i, hi, rfl⟩ := List.mem_iff_getElem.mp hu
    cases i with
    | zero =>
      rw [List.getElem_cons_zero, leaderCount_head hn]
      omega
    | succ i =>
      rw [leaderCount_succ hn hi]
      have hi' : i < vs.length := by simpa using hi
      have hrest : totalStake (v :: vs) = v.stake + totalStake vs := by simp [totalStake]
      have hzero : vs[i].stake ≤ totalStake vs :=
        List.single_le_sum (by simp) _ (List.mem_map_of_mem (List.getElem_mem hi'))
      have hbefore : v.stake ≤ stakeBefore (v :: vs) (i + 1) := by
        rw [stakeBefore_cons]
        omega
      rw [List.getElem_cons_succ]
      omega

theorem leaderCount_proportional_idle_stakers : leaderCount [Validator.mk 1 3, ⟨2, 0⟩, ⟨3, 0⟩] 1 = 3 ∧
    leaderCount [Validator.mk 1 3, ⟨2, 0⟩, ⟨3, 0⟩] 2 = 0 ∧ leaderCount [Validator.mk 1 3, ⟨2, 0⟩, ⟨3, 0⟩] 3 = 0 := by
  have h := (leaderCount_proportional_iff ⟨1, 3⟩ [⟨2, 0⟩, ⟨3, 0⟩] (by decide) (by decide)).mpr rfl
  exact ⟨h ⟨1, 3⟩ (by simp), h ⟨2, 0⟩ (by simp), h ⟨3, 0⟩ (by simp)⟩

theorem leaderCount_starves :
    ¬∀ u ∈ [Validator.mk 1 1, Validator.mk 2 1],
      leaderCount [Validator.mk 1 1, Validator.mk 2 1] u.address = u.stake := by
  decide

end Selection

end Zephyria
