import Zephyria.Lib.Loops
import Zephyria.VerkleNodes

/-!
The commitments of a leaf, kept up to date value by value, are the ones of a leaf made from its values.
-/

namespace Zephyria.Verkle

theorem littleEndian_cons (b : UInt8) (bs : Bytes) : littleEndian (b :: bs) = littleEndian bs * 256 + b.toNat := by
  rw [littleEndian, List.reverse_cons, BigEndian.value_concat, littleEndian]

theorem littleEndian_append (bs bs' : Bytes) :
    littleEndian (bs ++ bs') = littleEndian bs + 256 ^ bs.length * littleEndian bs' := by
  induction bs with
  | nil => simp [littleEndian, BigEndian.value]
  | cons b bs ih =>
    rw [List.cons_append, littleEndian_cons, littleEndian_cons, ih, List.length_cons, pow_succ]
    ring

theorem littleEndian_replicate_zero (n : ℕ) : littleEndian (List.replicate n 0) = 0 := by
  induction n with
  | zero => rfl
  | succ n ih => rw [List.replicate_succ, littleEndian_cons, ih]; rfl

theorem littleEndian_lt (bs : Bytes) : littleEndian bs < 256 ^ bs.length := by
  rw [← List.length_reverse]
  exact BigEndian.value_lt bs.reverse

section Halves

variable {F : Type} [CommRing F] {val : Bytes} {values : Values} {half : UInt8}

def marked (val : Bytes) : ℕ := if val = [] then 0 else littleEndian (val.take 16) + 256 ^ 16

def loComm (val : Bytes) : F := (marked val : F)

def hiComm (val : Bytes) : F := (littleEndian (val.drop 16) : F)

theorem fromLEBytes_eq (h : val.length ≤ 32) : fromLEBytes val = some (littleEndian val : F) :=
  if_neg (Nat.not_lt.mpr h)

theorem littleEndian_marked {n : ℕ} (h : val.length ≤ n) :
    littleEndian (val ++ List.replicate (n - val.length) 0 ++ [1]) = littleEndian val + 256 ^ n := by
  have hone : littleEndian [1] = 1 := rfl
  rw [littleEndian_append, littleEndian_append, littleEndian_replicate_zero, hone, List.length_append,
    List.length_replicate, Nat.add_sub_cancel' h, Nat.mul_zero, Nat.add_zero, Nat.mul_one]

theorem leafToComms_eq (h : val.length ≤ 32) : leafToComms val = some ((loComm val, hiComm val) : F × F) := by
  rw [leafToComms, loComm, marked, hiComm]
  by_cases hnil : val = []
  · subst hnil
    simp [littleEndian, BigEndian.value]
  have hpos : val.length ≠ 0 := fun hlen => hnil (List.length_eq_zero_iff.mp hlen)
  have hend : (if val.length < 16 then val.length else 16) = (val.take 16).length := by
    rw [List.length_take]
    split <;> omega
  have htake : val.take (val.take 16).length = val.take 16 := by
    rw [List.length_take, List.take_eq_take_iff]
    omega
  have hshort : (val.take 16).length ≤ 16 := List.length_take_le 16 val
  have hhigh : (if 16 ≤ val.length then fromLEBytes (val.drop 16) else some 0) =
      some (littleEndian (val.drop 16) : F) := by
    split
    next => exact fromLEBytes_eq ((List.length_drop ..).trans_le (by omega))
    next hlt =>
      rw [List.drop_eq_nil_of_le (by omega)]
      simp [littleEndian, BigEndian.value]
  dsimp only
  rw [if_neg hpos, if_neg (Nat.not_lt.mpr h), if_neg hnil, hend, htake, hhigh,
    fromLEBytes_eq (by simp; omega), littleEndian_marked hshort]
  rfl

def suffixPoly (half : UInt8) (values : Values) : UInt8 → F :=
  fun j => if j % 2 = 0 then loComm (values (half + j / 2)) else hiComm (values (half + j / 2))

theorem div_two_eq_iff {m : UInt8} (hm : m < 128) (j : UInt8) : j / 2 = m ↔ j = 2 * m ∨ j = 2 * m + 1 := by
  rw [UInt8.lt_iff_toNat_lt] at hm
  change m.toNat < 128 at hm
  have hj := j.toNat_lt
  simp only [← UInt8.toNat_inj]
  simp
  omega

theorem suffixPoly_two_mul {m : UInt8} (hm : m < 128) (half : UInt8) (values : Values) :
    (suffixPoly half values (2 * m) : F) = loComm (values (half + m)) := by
  have hdiv := (div_two_eq_iff hm (2 * m)).mpr (.inl rfl)
  have hmod : (2 * m) % 2 = 0 := by
    rw [← UInt8.toNat_inj]
    simp
  rw [suffixPoly, if_pos hmod, hdiv]

theorem suffixPoly_two_mul_add_one {m : UInt8} (hm : m < 128) (half : UInt8) (values : Values) :
    (suffixPoly half values (2 * m + 1) : F) = hiComm (values (half + m)) := by
  have hdiv := (div_two_eq_iff hm (2 * m + 1)).mpr (.inr rfl)
  have hmod : (2 * m + 1) % 2 ≠ 0 := by
    rw [ne_eq, ← UInt8.toNat_inj]
    simp
  rw [suffixPoly, if_neg hmod, hdiv]

theorem suffixPoly_of_nil {j : UInt8} (h : values (half + j / 2) = []) : (suffixPoly half values j : F) = 0 := by
  simp [suffixPoly, h, loComm, marked, hiComm, littleEndian, BigEndian.value]

def Filled (half : UInt8) (values : Values) (k : ℕ) (poly : UInt8 → F) : Prop :=
  ∀ j, poly j = if j.toNat < 2 * k then suffixPoly half values j else 0

theorem exists_fillValue (h : ∀ i, (values i).length ≤ 32) {k : ℕ} (hk : k < 128) {poly : UInt8 → F}
    (hpoly : Filled half values k poly) :
    ∃ poly', fillValue half values poly k = some poly' ∧ Filled half values (k + 1) poly' := by
  have hm : UInt8.ofNat k < 128 := by
    rw [UInt8.lt_iff_toNat_lt]
    simp
    omega
  have htoNat : (2 * UInt8.ofNat k).toNat = 2 * k ∧ (2 * UInt8.ofNat k + 1).toNat = 2 * k + 1 := by
    constructor <;> simp <;> omega
  refine ⟨_, by rw [fillValue, leafToComms_eq (h _)]; rfl, fun j => ?_⟩
  by_cases hodd : j = 2 * UInt8.ofNat k + 1
  · rw [hodd, htoNat.2, if_pos (by omega), Function.update_self, suffixPoly_two_mul_add_one hm]
  rw [Function.update_of_ne hodd]
  by_cases heven : j = 2 * UInt8.ofNat k
  · rw [heven, htoNat.1, if_pos (by omega), Function.update_self, suffixPoly_two_mul hm]
  · have hlt : j.toNat < 2 * k ↔ j.toNat < 2 * (k + 1) := by
      rw [← UInt8.toNat_inj] at heven hodd
      omega
    rw [Function.update_of_ne heven, hpoly j]
    simp only [hlt]

theorem fillSuffixTreePoly_eq (half : UInt8) (h : ∀ i, (values i).length ≤ 32) :
    fillSuffixTreePoly half values = some (suffixPoly half values : UInt8 → F) := by
  obtain ⟨poly, hpoly, hfilled⟩ := exists_foldlM_range (Filled half values) (s := (0 : UInt8 → F)) (fun _ => rfl)
    fun _ hk _ => exists_fillValue h hk
  rw [fillSuffixTreePoly, hpoly, Option.some_inj]
  funext j
  rw [hfilled j, if_pos j.toNat_lt]

theorem suffixPoly_update {i : UInt8} (hi : half + i % 128 = i) (values : Values) (v : Bytes) :
    (suffixPoly half (Function.update values i v) : UInt8 → F) =
      Function.update (Function.update (suffixPoly half values) (2 * (i % 128)) (loComm v)) (2 * (i % 128) + 1)
        (hiComm v) := by
  have hm : i % 128 < 128 := UInt8.mod_lt i (by decide)
  funext j
  have hj := div_two_eq_iff hm j
  by_cases hodd : j = 2 * (i % 128) + 1
  · rw [hodd, Function.update_self, suffixPoly_two_mul_add_one hm, hi, Function.update_self]
  rw [Function.update_of_ne hodd]
  by_cases heven : j = 2 * (i % 128)
  · rw [heven, Function.update_self, suffixPoly_two_mul hm, hi, Function.update_self]
  · have hne : half + j / 2 ≠ i := by
      intro h
      rw [← hi, add_right_inj] at h
      exact (hj.mp h).elim heven hodd
    rw [Function.update_of_ne heven, suffixPoly, suffixPoly, Function.update_of_ne hne]

theorem suffixPoly_update_other {i : UInt8} (hhalf : half % 128 = 0) (hi : half + i % 128 ≠ i) (values : Values)
    (v : Bytes) : (suffixPoly half (Function.update values i v) : UInt8 → F) = suffixPoly half values := by
  funext j
  have hne : half + j / 2 ≠ i := by
    intro h
    apply hi
    rw [← UInt8.toNat_inj] at h hhalf ⊢
    have hlt := j.toNat_lt
    simp at h hhalf ⊢
    omega
  rw [suffixPoly, suffixPoly, Function.update_of_ne hne]

end Halves

section Leaf

variable {F P : Type} [CommRing F] [AddCommGroup P] [Module F P] (cfg : Config F P)

def leafVector (stem : Stem) (values : Values) : UInt8 → F :=
  extensionPoly (littleEndian stem : F) (cfg.hash (suffixPoly 0 values)) (cfg.hash (suffixPoly 128 values))

def LeafNode.ofValues (stem : Stem) (values : Values) : LeafNode P where
  stem := stem
  values := values
  commitment := cfg.commit (leafVector cfg stem values)
  c1 := cfg.commit (suffixPoly 0 values)
  c2 := cfg.commit (suffixPoly 128 values)

variable {cfg} {stem : Stem} {values old : Values}

@[simp] theorem LeafNode.ofValues_stem : (LeafNode.ofValues cfg stem values).stem = stem := rfl

@[simp] theorem LeafNode.ofValues_values : (LeafNode.ofValues cfg stem values).values = values := rfl

theorem length_emptyCodeHashValues (i : UInt8) : (emptyCodeHashValues i).length ≤ 32 := by
  rw [emptyCodeHashValues]
  by_cases h : i = 3
  · rw [h, Function.update_self, hashBytes, BigEndian.fixed_length]
  · rw [Function.update_of_ne h]
    exact Nat.zero_le _

theorem commit_emptyCodeHash {poly : UInt8 → F} (h6 : poly 6 = suffixPoly 0 emptyCodeHashValues 6)
    (h7 : poly 7 = suffixPoly 0 emptyCodeHashValues 7) :
    cfg.commit (suffixPoly 0 emptyCodeHashValues) +
      cfg.commit (Function.update (Function.update poly 6 0) 7 0) = cfg.commit poly := by
  rw [← VectorCommitment.commit_add]
  congr 1
  funext j
  rw [Pi.add_apply]
  by_cases hj7 : j = 7
  · rw [hj7, Function.update_self, add_zero, h7]
  rw [Function.update_of_ne hj7]
  by_cases hj6 : j = 6
  · rw [hj6, Function.update_self, add_zero, h6]
  · have hne : (0 : UInt8) + j / 2 ≠ 3 := by
      rw [zero_add, ne_eq, div_two_eq_iff (by decide)]
      exact fun h => h.elim hj6 hj7
    rw [Function.update_of_ne hj6, suffixPoly_of_nil, zero_add]
    rw [emptyCodeHashValues, Function.update_of_ne hne]

theorem newLeafNode_eq [DecidableEq F] (hstem : stem.length = 31) (hvalues : ∀ i, (values i).length ≤ 32) :
    newLeafNode cfg stem values = some (LeafNode.ofValues cfg stem values) := by
  have htake : stem.take 31 = stem := List.take_of_length_le hstem.le
  have hstemFr : stemFromLEBytes stem = some (littleEndian stem : F) := by
    rw [stemFromLEBytes, if_neg (not_not.mpr hstem), fromLEBytes_eq (by omega)]
  have hc1 : (if (suffixPoly 0 values 6 : F) = suffixPoly 0 emptyCodeHashValues 6 ∧
      (suffixPoly 0 values 7 : F) = suffixPoly 0 emptyCodeHashValues 7
      then cfg.commit (suffixPoly 0 emptyCodeHashValues) +
        cfg.commit (Function.update (Function.update (suffixPoly 0 values) 6 0) 7 0)
      else cfg.commit (suffixPoly 0 values)) = cfg.commit (suffixPoly 0 values) := by
    split
    next h => exact commit_emptyCodeHash h.1 h.2
    next => rfl
  simp only [newLeafNode, fillSuffixTreePoly_eq _ hvalues, fillSuffixTreePoly_eq _ length_emptyCodeHashValues,
    htake, hstemFr, Option.bind_eq_bind, Option.bind_some, hc1]
  rfl

def overwrite (old values : Values) : Values := fun i => if values i = [] then old i else values i

theorem updateCn_eq {n : LeafNode P} {half i : UInt8} {v : Bytes} (hi : half + i % 128 = i)
    (hold : (n.values i).length ≤ 32) (hv : v.length ≤ 32) :
    updateCn cfg n i v (cfg.commit (suffixPoly half n.values)) =
      some (cfg.commit (suffixPoly half (Function.update n.values i v))) := by
  have hm : i % 128 < 128 := UInt8.mod_lt i (by decide)
  have hne : 2 * (i % 128) + 1 ≠ 2 * (i % 128) := by simp
  have hlow : (suffixPoly half n.values (2 * (i % 128)) : F) = loComm (n.values i) := by
    rw [suffixPoly_two_mul hm, hi]
  have hhigh : (suffixPoly half n.values (2 * (i % 128) + 1) : F) = hiComm (n.values i) := by
    rw [suffixPoly_two_mul_add_one hm, hi]
  rw [updateCn, leafToComms_eq hold, leafToComms_eq hv]
  simp only [Option.bind_eq_bind, Option.bind_some, Option.some_inj]
  rw [suffixPoly_update hi, ← hlow, VectorCommitment.commit_update,
    ← VectorCommitment.commit_update _ (Function.update _ _ _), Function.update_of_ne hne, hhigh]

theorem half_of_lt {i : UInt8} (h : i < 128) : 0 + i % 128 = i ∧ 128 + i % 128 ≠ i := by
  rw [UInt8.lt_iff_toNat_lt] at h
  change i.toNat < 128 at h
  rw [ne_eq, ← UInt8.toNat_inj, ← UInt8.toNat_inj]
  simp
  omega

theorem half_of_not_lt {i : UInt8} (h : ¬i < 128) : 128 + i % 128 = i ∧ 0 + i % 128 ≠ i := by
  rw [UInt8.lt_iff_toNat_lt] at h
  change ¬i.toNat < 128 at h
  have hi := i.toNat_lt
  rw [ne_eq, ← UInt8.toNat_inj, ← UInt8.toNat_inj]
  simp
  omega

structure Updating (cfg : Config F P) (stem : Stem) (old values : Values) (k : ℕ) (s : Touched P) : Prop where
  values_eq : s.node.values = fun j => if j.toNat < k then overwrite old values j else old j
  node_eq : s.node =
    { LeafNode.ofValues cfg stem s.node.values with commitment := cfg.commit (leafVector cfg stem old) }
  oldC1_eq : s.oldC1.getD s.node.c1 = cfg.commit (suffixPoly 0 old)
  oldC2_eq : s.oldC2.getD s.node.c2 = cfg.commit (suffixPoly 128 old)

theorem exists_updateValue (hold : ∀ i, (old i).length ≤ 32) (hvalues : ∀ i, (values i).length ≤ 32) {k : ℕ}
    (hk : k < 256) {s : Touched P} (hs : Updating cfg stem old values k s) :
    ∃ s', updateValue cfg values s (UInt8.ofNat k) = some s' ∧ Updating cfg stem old values (k + 1) s' := by
  have hi : (UInt8.ofNat k).toNat = k := by
    simp
    omega
  generalize UInt8.ofNat k = i at hi ⊢
  have hcur : s.node.values i = old i := by
    rw [hs.values_eq]
    exact if_neg (by omega)
  have hnext : (fun j : UInt8 => if j.toNat < k + 1 then overwrite old values j else old j) =
      Function.update s.node.values i (overwrite old values i) := by
    funext j
    by_cases hj : j = i
    · rw [hj, Function.update_self, if_pos (by omega)]
    · rw [← UInt8.toNat_inj] at hj
      have hlt : j.toNat < k + 1 ↔ j.toNat < k := by omega
      rw [Function.update_of_ne (fun h => hj (congrArg UInt8.toNat h)), hs.values_eq]
      simp only [hlt]
  have hc1 : s.node.c1 = cfg.commit (suffixPoly 0 s.node.values) := by rw [hs.node_eq]; rfl
  have hc2 : s.node.c2 = cfg.commit (suffixPoly 128 s.node.values) := by rw [hs.node_eq]; rfl
  have hstem : s.node.stem = stem := by rw [hs.node_eq]; rfl
  have hcommitment : s.node.commitment = cfg.commit (leafVector cfg stem old) := by rw [hs.node_eq]
  rw [updateValue]
  by_cases hskip : (values i).length ≠ 0 ∧ values i ≠ s.node.values i
  · have hwrite : overwrite old values i = values i := if_neg fun h => hskip.1 (by rw [h]; rfl)
    rw [if_pos hskip]
    by_cases hlow : i < 128
    · obtain ⟨hself, hother⟩ := half_of_lt hlow
      rw [if_pos hlow, hc1, updateCn_eq hself (hcur ▸ hold i) (hvalues i)]
      refine ⟨_, rfl, ⟨?_, ?_, ?_, ?_⟩⟩
      · rw [hnext, hwrite]
      · rw [LeafNode.ofValues, LeafNode.mk.injEq]
        exact ⟨hstem, rfl, hcommitment, rfl, by rw [hc2, suffixPoly_update_other (by decide) hother]⟩
      · rw [← hs.oldC1_eq, hc1, Option.getD_some]
      · exact hs.oldC2_eq
    · obtain ⟨hself, hother⟩ := half_of_not_lt hlow
      rw [if_neg hlow, hc2, updateCn_eq hself (hcur ▸ hold i) (hvalues i)]
      refine ⟨_, rfl, ⟨?_, ?_, ?_, ?_⟩⟩
      · rw [hnext, hwrite]
      · rw [LeafNode.ofValues, LeafNode.mk.injEq]
        exact ⟨hstem, rfl, hcommitment, by rw [hc1, suffixPoly_update_other (by decide) hother], rfl⟩
      · exact hs.oldC1_eq
      · rw [← hs.oldC2_eq, hc2, Option.getD_some]
  · have hkeep : overwrite old values i = s.node.values i := by
      rw [overwrite, hcur]
      split
      next => rfl
      next hne =>
        by_contra hdiff
        exact hskip ⟨fun h => hne (List.length_eq_zero_iff.mp h), hcur ▸ hdiff⟩
    rw [if_neg hskip]
    refine ⟨s, rfl, ⟨?_, hs.node_eq, hs.oldC1_eq, hs.oldC2_eq⟩⟩
    rw [hnext, hkeep, Function.update_eq_self]

theorem commit_extensionPoly (a c1 c2 c1' c2' : F) :
    cfg.commit (extensionPoly a c1 c2) + cfg.commit (Pi.single 2 (c1' - c1)) + cfg.commit (Pi.single 3 (c2' - c2)) =
      cfg.commit (extensionPoly a c1' c2') := by
  have hadd (v : UInt8 → F) (i : UInt8) (x : F) := cfg.commit_update v i x
  have hupdate : Function.update (Function.update (extensionPoly a c1 c2) 2 c1') 3 c2' = extensionPoly a c1' c2' := by
    funext i
    by_cases h3 : i = 3
    · rw [h3, Function.update_self]
      rfl
    · by_cases h2 : i = 2
      · rw [h2, Function.update_of_ne (by decide), Function.update_self]
        rfl
      · rw [Function.update_of_ne h3, Function.update_of_ne h2]
        simp [extensionPoly, h2, h3]
  rw [← hupdate, ← hadd, ← hadd]
  rfl

theorem Touched.finish_eq_add (s : Touched P) :
    s.finish cfg = { s.node with
      commitment := s.node.commitment +
          cfg.commit (Pi.single 2 (cfg.digest s.node.c1 - cfg.digest (s.oldC1.getD s.node.c1))) +
        cfg.commit (Pi.single 3 (cfg.digest s.node.c2 - cfg.digest (s.oldC2.getD s.node.c2))) } := by
  obtain ⟨n, _ | oldC1, _ | oldC2⟩ := s <;> simp [Touched.finish, updateC, VectorCommitment.commit_zero]

theorem Touched.finish_eq {s : Touched P} {a : F} (h : s.node.commitment = cfg.commit
      (extensionPoly a (cfg.digest (s.oldC1.getD s.node.c1)) (cfg.digest (s.oldC2.getD s.node.c2)))) :
    s.finish cfg = { s.node with
      commitment := cfg.commit (extensionPoly a (cfg.digest s.node.c1) (cfg.digest s.node.c2)) } := by
  rw [s.finish_eq_add, h, commit_extensionPoly]

theorem updateMultipleLeaves_eq (hold : ∀ i, (old i).length ≤ 32) (hvalues : ∀ i, (values i).length ≤ 32) :
    updateMultipleLeaves cfg (LeafNode.ofValues cfg stem old) values =
      some (LeafNode.ofValues cfg stem (overwrite old values)) := by
  have hinit : Updating cfg stem old values 0 ⟨LeafNode.ofValues cfg stem old, none, none⟩ := ⟨rfl, rfl, rfl, rfl⟩
  obtain ⟨s, hfold, hs⟩ := exists_foldlM_range (Updating cfg stem old values) hinit
    (n := 256) fun k hk s hs => exists_updateValue hold hvalues hk hs
  have hfinal : s.node.values = overwrite old values := by
    rw [hs.values_eq]
    funext j
    exact if_pos j.toNat_lt
  have hcommitment : s.node.commitment = cfg.commit (extensionPoly (littleEndian stem : F)
      (cfg.digest (s.oldC1.getD s.node.c1)) (cfg.digest (s.oldC2.getD s.node.c2))) := by
    rw [hs.oldC1_eq, hs.oldC2_eq, hs.node_eq]
    rfl
  have hnode := hs.node_eq
  rw [hfinal] at hnode
  rw [updateMultipleLeaves, hfold]
  change some (s.finish cfg) = _
  rw [Touched.finish_eq hcommitment, hnode]
  rfl

theorem insertMultiple_eq (hold : ∀ i, (old i).length ≤ 32) (hvalues : ∀ i, (values i).length ≤ 32) :
    insertMultiple cfg (LeafNode.ofValues cfg stem old) stem values =
      some (LeafNode.ofValues cfg stem (overwrite old values)) :=
  (if_neg (not_not.mpr rfl)).trans (updateMultipleLeaves_eq hold hvalues)

end Leaf

section Padding

def pad (val : Bytes) : Bytes := val ++ List.replicate (32 - val.length) 0

/-- Both values are absent, or they differ in zeros at their ends. -/
def SameLeaf (val val' : Bytes) : Prop := (val = [] ↔ val' = []) ∧ pad val = pad val'

theorem SameLeaf.refl (val : Bytes) : SameLeaf val val := ⟨Iff.rfl, rfl⟩

theorem littleEndian_append_zeros (bs : Bytes) (n : ℕ) : littleEndian (bs ++ List.replicate n 0) = littleEndian bs := by
  rw [littleEndian_append, littleEndian_replicate_zero, Nat.mul_zero, Nat.add_zero]

theorem littleEndian_take_pad (val : Bytes) : littleEndian ((pad val).take 16) = littleEndian (val.take 16) := by
  rw [pad, List.take_append, List.take_replicate, littleEndian_append_zeros]

theorem littleEndian_drop_pad (val : Bytes) : littleEndian ((pad val).drop 16) = littleEndian (val.drop 16) := by
  rw [pad, List.drop_append, List.drop_replicate, littleEndian_append_zeros]

theorem length_pad {val : Bytes} (h : val.length ≤ 32) : (pad val).length = 32 := by
  rw [pad, List.length_append, List.length_replicate]
  omega

theorem littleEndian_injective {bs bs' : Bytes} (hlen : bs.length = bs'.length)
    (h : littleEndian bs = littleEndian bs') : bs = bs' := by
  rw [← List.reverse_inj, ← BigEndian.fixed_value bs.reverse, ← BigEndian.fixed_value bs'.reverse,
    List.length_reverse, List.length_reverse, hlen]
  exact congrArg (BigEndian.fixed bs'.length) h

variable {F P : Type} [CommRing F] [AddCommGroup P] [Module F P] {val val' : Bytes}

theorem SameLeaf.comms_eq (h : SameLeaf val val') :
    (loComm val : F) = loComm val' ∧ (hiComm val : F) = hiComm val' := by
  obtain ⟨hnil, hpad⟩ := h
  rw [loComm, loComm, marked, marked, hiComm, hiComm, ← littleEndian_take_pad val, ← littleEndian_take_pad val',
    ← littleEndian_drop_pad val, ← littleEndian_drop_pad val', hpad]
  simp only [hnil, and_self]

theorem length_take_pad (h : val.length ≤ 32) : ((pad val).take 16).length = 16 := by
  rw [List.length_take, length_pad h]
  rfl

theorem length_drop_pad (h : val.length ≤ 32) : ((pad val).drop 16).length = 16 := by
  rw [List.length_drop, length_pad h]

theorem half_lt {bs : Bytes} (h : bs.length = 16) : littleEndian bs < 2 ^ 128 :=
  (littleEndian_lt bs).trans_eq (by rw [h]; norm_num)

theorem sameLeaf_of_comms_eq (cfg : Config F P) (hval : val.length ≤ 32) (hval' : val'.length ≤ 32)
    (hlo : (loComm val : F) = loComm val') (hhi : (hiComm val : F) = hiComm val') : SameLeaf val val' := by
  have hlow := half_lt (length_take_pad hval)
  have hlow' := half_lt (length_take_pad hval')
  have hhigh := half_lt (length_drop_pad hval)
  have hhigh' := half_lt (length_drop_pad hval')
  rw [hiComm, hiComm, ← littleEndian_drop_pad val, ← littleEndian_drop_pad val'] at hhi
  have hdrop := littleEndian_injective ((length_drop_pad hval).trans (length_drop_pad hval').symm)
    (cfg.natCast_injective _ _ (by omega) (by omega) hhi)
  have hmarked {val : Bytes} (h : littleEndian ((pad val).take 16) < 2 ^ 128) : marked val < 2 ^ 248 := by
    rw [marked, ← littleEndian_take_pad]
    split <;> omega
  have hlo' := cfg.natCast_injective _ _ (hmarked hlow) (hmarked hlow') hlo
  rw [marked, marked, ← littleEndian_take_pad val, ← littleEndian_take_pad val'] at hlo'
  by_cases hnil : val = []
  · by_cases hnil' : val' = []
    · exact ⟨by simp [hnil, hnil'], by rw [hnil, hnil']⟩
    · rw [if_pos hnil, if_neg hnil'] at hlo'
      omega
  · by_cases hnil' : val' = []
    · rw [if_neg hnil, if_pos hnil'] at hlo'
      omega
    · rw [if_neg hnil, if_neg hnil', Nat.add_left_inj] at hlo'
      have htake := littleEndian_injective ((length_take_pad hval).trans (length_take_pad hval').symm) hlo'
      refine ⟨by simp [hnil, hnil'], ?_⟩
      rw [← List.take_append_drop 16 (pad val), htake, hdrop, List.take_append_drop]

end Padding

end Zephyria.Verkle
