import Zephyria.Overlays
import Zephyria.VerkleRoots

/-!
Runs of the tree, from `New` through any insertions and commits.
-/

namespace Zephyria.Verkle

inductive TreeOp where
  | insert (key value : Bytes)
  | commit

namespace TreeOp

def Fits : TreeOp → Prop
  | .insert key value => key.length = 32 ∧ value.length ≤ 32
  | .commit => True

def apply (t : VerkleTree) : TreeOp → VerkleTree
  | .insert key value => t.insert key value
  | .commit => t

def stems (S : Set Stem) : TreeOp → Set Stem
  | .insert key _ => Insert.insert (key.take 31) S
  | .commit => S

theorem stems_foldl (ops : List TreeOp) (t : VerkleTree) : (ops.foldl apply t).stems = ops.foldl stems t.stems := by
  refine (List.foldl_hom VerkleTree.stems fun t op => ?_).symm
  cases op <;> rfl

end TreeOp

section Runs

variable {F P : Type} [CommRing F] [DecidableEq F] [AddCommGroup P] [Module F P] (cfg : Config F P)

def step (n : VerkleNode P) : TreeOp → Option (VerkleNode P)
  | .insert key value => n.insert cfg key value
  | .commit => some (n.commit cfg)

def run (ops : List TreeOp) : Option (VerkleNode P) := ops.foldlM (step cfg) VerkleNode.newInternalNode

variable {cfg} {n : VerkleNode P} {t : VerkleTree}

/-- The tree holds the values of the map, at its stems and no other. -/
structure Represents (cfg : Config F P) (n : VerkleNode P) (t : VerkleTree) : Prop where
  valid : n.Valid cfg
  values : ∀ stem suffix, stem.length = 31 →
    ((n.shape 0).find stem).getD (fun _ => []) suffix = t.get (stem ++ [suffix])
  stems : ∀ stem, stem.length = 31 → ((n.shape 0).find stem ≠ none ↔ stem ∈ t.stems)

omit [DecidableEq F] in
theorem represents_new : Represents cfg VerkleNode.newInternalNode .empty where
  valid := VerkleNode.valid_newInternalNode
  values stem suffix _ := by
    cases stem <;> simp [VerkleNode.newInternalNode, VerkleNode.shape, Trie.find, VerkleTree.get, VerkleTree.empty]
  stems stem _ := by
    cases stem <;> simp [VerkleNode.newInternalNode, VerkleNode.shape, Trie.find, VerkleTree.empty]

theorem take_append_getD {key : Bytes} (h : key.length = 32) : key.take 31 ++ [key.getD 31 0] = key := by
  have hsuffix : key.drop 31 = [key.getD 31 0] := by
    rw [List.drop_eq_getElem_cons (by omega), List.drop_eq_nil_of_le (by omega), List.getD_eq_getElem]
  rw [← hsuffix, List.take_append_drop]

theorem append_singleton_eq_iff {key : Bytes} (h : key.length = 32) (stem : Stem) (suffix : UInt8) :
    stem ++ [suffix] = key ↔ stem = key.take 31 ∧ suffix = key.getD 31 0 := by
  constructor
  · intro heq
    rw [← take_append_getD h] at heq
    obtain ⟨hstem, hsuffix⟩ := List.append_inj' heq rfl
    exact ⟨hstem, List.singleton_inj.mp hsuffix⟩
  · rintro ⟨rfl, rfl⟩
    exact take_append_getD h

theorem written_single (suffix : UInt8) (value : Bytes) (old : Option Values) (i : UInt8) :
    VerkleNode.written (VerkleNode.single suffix value) old i =
      if value ≠ [] ∧ i = suffix then value else old.getD (fun _ => []) i := by
  rw [VerkleNode.written, overwrite, VerkleNode.single]
  by_cases hi : i = suffix
  · rw [hi, Function.update_self]
    by_cases hv : value = [] <;> simp [hv]
  · rw [Function.update_of_ne hi]
    simp [hi]

theorem Represents.exists_insert (h : Represents cfg n t) {key value : Bytes} (hkey : key.length = 32)
    (hvalue : value.length ≤ 32) :
    ∃ n', n.insert cfg key value = some n' ∧ Represents cfg n' (t.insert key value) := by
  obtain ⟨n', hinsert, hvalid, hshape⟩ := h.valid.exists_insert hkey hvalue
  have hlen : (key.take 31).length = 31 := by
    rw [List.length_take, hkey]
    rfl
  have hfind {stem : Stem} (hstem : stem.length = 31) := Trie.find_alter
    (VerkleNode.written (VerkleNode.single (key.getD 31 0) value)) (hlen ▸ h.valid.uniform) (hstem.trans hlen.symm)
  refine ⟨n', hinsert, hvalid, ?_, ?_⟩
  · intro stem suffix hstem
    have hiff := append_singleton_eq_iff hkey stem suffix
    rw [hshape, hfind hstem, VerkleTree.get_insert]
    by_cases heq : stem = key.take 31
    · rw [if_pos heq, Option.getD_some, written_single, ← heq, h.values stem suffix hstem]
      simp only [hiff.trans (and_iff_right heq)]
    · rw [if_neg heq, h.values stem suffix hstem, if_neg fun hkeys => heq (hiff.mp hkeys.2).1]
  · intro stem hstem
    rw [hshape, hfind hstem, VerkleTree.stems_insert, Set.mem_insert_iff]
    split
    next heq => simp [heq]
    next hne => rw [h.stems stem hstem, or_iff_right hne]

omit [DecidableEq F] in
theorem Represents.commit (h : Represents cfg n t) : Represents cfg (n.commit cfg) t := by
  have hshape := VerkleNode.shape_commit cfg n 0
  refine ⟨h.valid.commit, ?_, ?_⟩
  · rw [hshape]
    exact h.values
  · rw [hshape]
    exact h.stems

theorem Represents.exists_step (h : Represents cfg n t) {op : TreeOp} (hop : op.Fits) :
    ∃ n', step cfg n op = some n' ∧ Represents cfg n' (op.apply t) := by
  cases op with
  | insert key value => exact h.exists_insert hop.1 hop.2
  | commit => exact ⟨n.commit cfg, rfl, h.commit⟩

theorem Represents.exists_run (h : Represents cfg n t) {ops : List TreeOp} (hops : ∀ op ∈ ops, op.Fits) :
    ∃ n', ops.foldlM (step cfg) n = some n' ∧ Represents cfg n' (ops.foldl TreeOp.apply t) := by
  induction ops generalizing n t with
  | nil => exact ⟨n, rfl, h⟩
  | cons op ops ih =>
    obtain ⟨n', hstep, h'⟩ := h.exists_step (hops op List.mem_cons_self)
    obtain ⟨n'', hrun, h''⟩ := ih h' fun o ho => hops o (List.mem_cons_of_mem op ho)
    refine ⟨n'', ?_, h''⟩
    rw [List.foldlM_cons, hstep]
    exact hrun

variable (cfg) in
theorem exists_run {ops : List TreeOp} (hops : ∀ op ∈ ops, op.Fits) :
    ∃ n, run cfg ops = some n ∧ Represents cfg n (ops.foldl TreeOp.apply .empty) :=
  represents_new.exists_run hops

omit [DecidableEq F] in
theorem Represents.get_eq (h : Represents cfg n t) {key : Bytes} (hkey : key.length = 32) :
    n.get key = some (t.get key) := by
  have hlen : (key.take 31).length = 31 := by
    rw [List.length_take, hkey]
    rfl
  have hfind := VerkleNode.getValuesAtStem_eq (show ([] ++ key.take 31).length = 31 from hlen) h.valid.sound
    h.valid.internal
  have hvalue := h.values (key.take 31) (key.getD 31 0) hlen
  rw [take_append_getD hkey] at hvalue
  rw [VerkleNode.get, if_neg (not_not.mpr hkey), ← hvalue]
  rw [List.nil_append] at hfind
  rw [hfind, List.length_nil]
  cases (n.shape 0).find (key.take 31) <;> rfl

omit [DecidableEq F] in
theorem Represents.find_isSome_iff {n' : VerkleNode P} {t' : VerkleTree} (h : Represents cfg n t)
    (h' : Represents cfg n' t') (hstems : t.stems = t'.stems) (stem : Stem) :
    (n.shape 0).find stem = none ↔ (n'.shape 0).find stem = none := by
  by_cases hstem : stem.length = 31
  · exact not_iff_not.mp ((h.stems stem hstem).trans (hstems ▸ (h'.stems stem hstem).symm))
  · have hnone {n : VerkleNode P} (hn : n.Valid cfg) : (n.shape 0).find stem = none := by
      by_contra hne
      exact hstem (Trie.length_of_find hn.uniform hne)
    simp [hnone h.valid, hnone h'.valid]

omit [DecidableEq F] in
theorem leafVector_congr {values values' : Values} (h : ∀ i, SameLeaf (values i) (values' i)) (stem : Stem) :
    leafVector cfg stem values = leafVector cfg stem values' := by
  have hpoly (half : UInt8) : (suffixPoly half values : UInt8 → F) = suffixPoly half values' := by
    funext j
    rw [suffixPoly, suffixPoly, (h _).comms_eq.1, (h _).comms_eq.2]
  rw [leafVector, leafVector, hpoly, hpoly]

omit [DecidableEq F] in
theorem Represents.root_eq {n' : VerkleNode P} {t' : VerkleTree} (h : Represents cfg n t)
    (h' : Represents cfg n' t') (hstems : t.stems = t'.stems)
    (hsame : ∀ key, key.length = 32 → SameLeaf (t.get key) (t'.get key)) :
    n.intermediateRoot cfg = n'.intermediateRoot cfg := by
  rw [h.valid.intermediateRoot_eq, h'.valid.intermediateRoot_eq, VerkleNode.rootOf, VerkleNode.rootOf,
    VectorCommitment.vector_eq_of_find h.valid.uniform h'.valid.uniform h.valid.compact h'.valid.compact]
  intro stem
  rw [List.nil_append]
  cases hfind : (n.shape 0).find stem with
  | none => rw [(h.find_isSome_iff h' hstems stem).mp hfind]
  | some values =>
    have hne : (n'.shape 0).find stem ≠ none := fun hnone => by
      rw [(h.find_isSome_iff h' hstems stem).mpr hnone] at hfind
      cases hfind
    obtain ⟨values', hfind'⟩ := Option.ne_none_iff_exists'.mp hne
    have hstem := Trie.length_of_find h'.valid.uniform hne
    rw [hfind', Option.map_some, Option.map_some]
    refine congrArg some (leafVector_congr (fun i => ?_) stem)
    have hvalue := h.values stem i hstem
    have hvalue' := h'.values stem i hstem
    rw [hfind] at hvalue
    rw [hfind'] at hvalue'
    rw [show values i = _ from hvalue, show values' i = _ from hvalue']
    exact hsame _ (by rw [List.length_append, hstem]; rfl)

variable (cfg) in
theorem root_eq_of_contents {ops ops' : List TreeOp} (hops : ∀ op ∈ ops, op.Fits) (hops' : ∀ op ∈ ops', op.Fits)
    (hstems : ops.foldl TreeOp.stems ∅ = ops'.foldl TreeOp.stems ∅)
    (hvalues : ∀ key, key.length = 32 →
      (ops.foldl TreeOp.apply .empty).get key = (ops'.foldl TreeOp.apply .empty).get key) :
    ∃ n n', run cfg ops = some n ∧ run cfg ops' = some n' ∧ n.intermediateRoot cfg = n'.intermediateRoot cfg := by
  obtain ⟨n, hrun, h⟩ := exists_run cfg hops
  obtain ⟨n', hrun', h'⟩ := exists_run cfg hops'
  have hstems' := (TreeOp.stems_foldl ops .empty).trans (hstems.trans (TreeOp.stems_foldl ops' .empty).symm)
  refine ⟨n, n', hrun, hrun', h.root_eq h' hstems' fun key hkey => ?_⟩
  rw [hvalues key hkey]
  exact SameLeaf.refl _

end Runs

def sampleKey : Bytes := List.replicate 32 1

def otherKey : Bytes := List.replicate 32 2

def sampleOps : List TreeOp := [.insert sampleKey [5], .commit, .insert otherKey [6]]

def reorderedOps : List TreeOp := [.insert otherKey [6], .insert sampleKey [5]]

theorem sampleOps_fit : ∀ op ∈ sampleOps, op.Fits := by
  simp [sampleOps, sampleKey, otherKey, TreeOp.Fits]

theorem reorderedOps_fit : ∀ op ∈ reorderedOps, op.Fits := by
  simp [reorderedOps, sampleKey, otherKey, TreeOp.Fits]

theorem sampleOps_stems : sampleOps.foldl TreeOp.stems ∅ = reorderedOps.foldl TreeOp.stems ∅ :=
  Set.insert_comm _ _ _

theorem sampleOps_get (key : Bytes) :
    (sampleOps.foldl TreeOp.apply .empty).get key = (reorderedOps.foldl TreeOp.apply .empty).get key := by
  simp only [sampleOps, reorderedOps, List.foldl_cons, List.foldl_nil, TreeOp.apply, VerkleTree.get_insert]
  by_cases hkey : key = otherKey
  · rw [hkey, if_pos (by decide), if_neg (by decide), if_pos (by decide)]
  · simp [hkey]

theorem root_eq_of_contents_reordered : ∃ n n', run Config.sums sampleOps = some n ∧
    run Config.sums reorderedOps = some n' ∧ n.intermediateRoot Config.sums = n'.intermediateRoot Config.sums :=
  root_eq_of_contents Config.sums sampleOps_fit reorderedOps_fit sampleOps_stems fun key _ => sampleOps_get key

end Zephyria.Verkle
