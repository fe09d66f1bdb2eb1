import Mathlib
import Zephyria.Lib.Tries

/-!
Commitments to vectors in a module, and to the trees whose nodes are such vectors. The entries of an inner
node are the digests of its children.
-/

namespace Zephyria

structure VectorCommitment (A F P : Type) [CommRing F] [AddCommGroup P] [Module F P] where
  generator : A → P
  digest : P → F
  digest_zero : digest 0 = 0

namespace VectorCommitment

variable {A F P : Type} [Fintype A] [CommRing F] [AddCommGroup P] [Module F P]

section Vectors

variable (C : VectorCommitment A F P)

def commit (u : A → F) : P := ∑ a, u a • C.generator a

def hash (u : A → F) : F := C.digest (C.commit u)

@[simp] theorem commit_zero : C.commit 0 = 0 := by simp [commit]

@[simp] theorem hash_zero : C.hash 0 = 0 := by rw [hash, commit_zero, digest_zero]

theorem commit_add (u u' : A → F) : C.commit (u + u') = C.commit u + C.commit u' := by
  simp only [commit, Pi.add_apply, add_smul, Finset.sum_add_distrib]

theorem commit_update [DecidableEq A] (u : A → F) (a : A) (x : F) :
    C.commit u + C.commit (Pi.single a (x - u a)) = C.commit (Function.update u a x) := by
  rw [← commit_add]
  congr 1
  funext b
  by_cases h : b = a
  · subst h
    simp
  · simp [h]

end Vectors

section Trees

variable {V : Type} (C : VectorCommitment A F P) (leafVector : List A → V → A → F)

def vector : List A → Trie A V → A → F
  | _, .empty => 0
  | w, .leaf word v => leafVector (w ++ word) v
  | w, .node children => fun a => C.hash (vector (w ++ [a]) (children a))

def committed : List A → Trie A V → Set (A → F)
  | _, .empty => {0}
  | w, .leaf word v => {leafVector (w ++ word) v}
  | w, .node children => insert (C.vector leafVector w (.node children)) (⋃ a, committed (w ++ [a]) (children a))

/-- Two of the vectors have one hash, or a vector has the hash that marks a leaf. -/
def Broken (S : Set (A → F)) : Prop :=
  (∃ u ∈ S, ∃ u' ∈ S, u ≠ u' ∧ C.hash u = C.hash u') ∨ ∃ u ∈ S, C.hash u = 1

variable {C} {leafVector}

variable {S : Set (A → F)} {u u' : A → F} {t t' : Trie A V} {w : List A} {n : ℕ} {m : A}

theorem eq_or_broken (hu : u ∈ S) (hu' : u' ∈ S) (hhash : C.hash u = C.hash u') : u = u' ∨ C.Broken S := by
  by_cases h : u = u'
  · exact .inl h
  · exact .inr (.inl ⟨u, hu, u', hu', h, hhash⟩)

theorem vector_mem_committed (w : List A) (t : Trie A V) : C.vector leafVector w t ∈ C.committed leafVector w t := by
  cases t with
  | empty => exact rfl
  | leaf word v => exact rfl
  | node children => exact Set.mem_insert _ _

theorem committed_child_subset (w : List A) (children : A → Trie A V) (a : A) :
    C.committed leafVector (w ++ [a]) (children a) ⊆ C.committed leafVector w (.node children) :=
  (Set.subset_iUnion (fun b => C.committed leafVector (w ++ [b]) (children b)) a).trans (Set.subset_insert _ _)

theorem vector_eq_or_broken (hS : C.committed leafVector w t ⊆ S) (hS' : C.committed leafVector w t' ⊆ S)
    (h : C.hash (C.vector leafVector w t) = C.hash (C.vector leafVector w t')) :
    C.vector leafVector w t = C.vector leafVector w t' ∨ C.Broken S :=
  eq_or_broken (hS (vector_mem_committed w t)) (hS' (vector_mem_committed w t')) h

theorem vector_mapLeaf (w : List A) (t : Trie A V) :
    C.vector (fun _ u => u) w (t.mapLeaf leafVector w) = C.vector leafVector w t := by
  induction t generalizing w with
  | empty => rfl
  | leaf word v => rfl
  | node children ih =>
    rw [Trie.mapLeaf, vector, vector]
    funext a
    rw [ih a (w ++ [a])]

theorem vector_eq_of_find [DecidableEq A] (hu : t.Uniform n) (hu' : t'.Uniform n) (hc : t.CompactBelow)
    (hc' : t'.CompactBelow)
    (h : ∀ q, (t.find q).map (leafVector (w ++ q)) = (t'.find q).map (leafVector (w ++ q))) :
    C.vector leafVector w t = C.vector leafVector w t' := by
  have hmap : t.mapLeaf leafVector w = t'.mapLeaf leafVector w := by
    refine Trie.ext_of_find_below (Trie.uniform_mapLeaf _ hu w) (Trie.uniform_mapLeaf _ hu' w)
      (Trie.compactBelow_mapLeaf _ hc w) (Trie.compactBelow_mapLeaf _ hc' w) fun q => ?_
    rw [Trie.find_mapLeaf, Trie.find_mapLeaf, h]
  rw [← vector_mapLeaf w t, hmap, vector_mapLeaf]

section Marked

-- A leaf has the entry 1 at the place `m`.
variable (hmark : ∀ word v, leafVector word v m = 1)

include hmark

theorem broken_of_leaf_eq_node {word : List A} {v : V} {children : A → Trie A V}
    (hS : C.committed leafVector w (.node children) ⊆ S)
    (h : C.vector leafVector w (.leaf word v) = C.vector leafVector w (.node children)) : C.Broken S := by
  refine .inr ⟨_, hS (committed_child_subset w children m (vector_mem_committed _ _)), ?_⟩
  have hm := congrFun h m
  rw [vector, vector, hmark] at hm
  exact hm.symm

variable [DecidableEq A]

theorem find_eq_none_or_broken [Nontrivial F] (hzero : 0 ∈ S) (hS : C.committed leafVector w t ⊆ S)
    (h : C.hash (C.vector leafVector w t) = 0) : (∀ q, t.find q = none) ∨ C.Broken S := by
  obtain heq | hbroken := eq_or_broken (hS (vector_mem_committed w t)) hzero (h.trans C.hash_zero.symm)
  swap
  · exact .inr hbroken
  induction t generalizing w with
  | empty => exact .inl fun q => by cases q <;> rfl
  | leaf word v =>
    have hone := hmark (w ++ word) v
    rw [show leafVector (w ++ word) v = 0 from heq] at hone
    exact absurd hone zero_ne_one
  | node children ih =>
    by_cases hall : ∀ a q, (children a).find q = none
    · refine .inl fun q => ?_
      cases q with
      | nil => rfl
      | cons a q => exact hall a q
    · push Not at hall
      obtain ⟨a, q, hq⟩ := hall
      have hchild := (committed_child_subset w children a).trans hS
      have ha : C.hash (C.vector leafVector (w ++ [a]) (children a)) = 0 := congrFun heq a
      obtain heq | hbroken := eq_or_broken (hchild (vector_mem_committed _ _)) hzero (ha.trans C.hash_zero.symm)
      · exact .inr ((ih a hchild ha heq).resolve_left fun hnone => hq (hnone q))
      · exact .inr hbroken

theorem find_agree_or_broken [Nontrivial F] {k : ℕ}
    (hword : ∀ word word' v v', word.length = k → word'.length = k → leafVector word v = leafVector word' v' →
      word = word') (hk : w.length + n = k)
    (hzero : 0 ∈ S) (hS : C.committed leafVector w t ⊆ S) (hS' : C.committed leafVector w t' ⊆ S)
    (hu : t.Uniform n) (hu' : t'.Uniform n)
    (h : C.hash (C.vector leafVector w t) = C.hash (C.vector leafVector w t')) :
    (∀ q, (t.find q).map (leafVector (w ++ q)) = (t'.find q).map (leafVector (w ++ q))) ∨ C.Broken S := by
  have hempty {w : List A} {t : Trie A V} (hS : C.committed leafVector w t ⊆ S)
      (h : C.hash (C.vector leafVector w t) = C.hash (C.vector leafVector w .empty)) :
      (∀ q, t.find q = (Trie.empty : Trie A V).find q) ∨ C.Broken S := by
    obtain hnone | hbroken := find_eq_none_or_broken hmark hzero hS (h.trans C.hash_zero)
    · exact .inl fun q => (hnone q).trans (by cases q <;> rfl)
    · exact .inr hbroken
  induction t generalizing w t' n with
  | empty =>
    obtain hfind | hbroken := hempty hS' h.symm
    · exact .inl fun q => by rw [hfind]
    · exact .inr hbroken
  | leaf word v =>
    obtain heq | hbroken := vector_eq_or_broken hS hS' h
    swap
    · exact .inr hbroken
    cases t' with
    | empty =>
      obtain hfind | hbroken := hempty hS h
      · exact .inl fun q => by rw [hfind]
      · exact .inr hbroken
    | leaf word' v' =>
      have hlen {word : List A} (h : word.length = n) : (w ++ word).length = k := by rw [List.length_append, h, hk]
      have hww := List.append_cancel_left (hword _ _ _ _ (hlen hu) (hlen hu') heq)
      subst hww
      refine .inl fun q => ?_
      rw [Trie.find, Trie.find]
      split
      next hq => rw [← hq, Option.map_some, Option.map_some, show leafVector (w ++ word) v = leafVector (w ++ word) v' from heq]
      next => rfl
    | node children' => exact .inr (broken_of_leaf_eq_node hmark hS' heq)
  | node children ih =>
    obtain heq | hbroken := vector_eq_or_broken hS hS' h
    swap
    · exact .inr hbroken
    cases t' with
    | empty =>
      obtain hfind | hbroken := hempty hS h
      · exact .inl fun q => by rw [hfind]
      · exact .inr hbroken
    | leaf word' v' => exact .inr (broken_of_leaf_eq_node hmark hS heq.symm)
    | node children' =>
      obtain _ | n := n
      · exact hu.elim
      by_cases hbroken : C.Broken S
      · exact .inr hbroken
      refine .inl fun q => ?_
      cases q with
      | nil => rfl
      | cons a q =>
        have hdepth : (w ++ [a]).length + n = k := by
          rw [List.length_append, List.length_singleton]
          omega
        have hchild := ih a hdepth ((committed_child_subset w children a).trans hS)
          ((committed_child_subset w children' a).trans hS') (hu a) (hu' a) (congrFun heq a)
        have hq := hchild.resolve_right hbroken q
        rw [List.append_assoc, List.singleton_append] at hq
        exact hq

end Marked

end Trees

end VectorCommitment

end Zephyria
