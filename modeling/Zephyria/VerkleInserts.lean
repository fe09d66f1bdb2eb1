import Zephyria.VerkleLeaves

/-!
An insertion keeps the commitments of all nodes below which nothing is marked, and changes the words and
values of the tree as one entry of a map is changed.
-/

namespace Zephyria.Verkle

namespace VerkleNode

variable {F P : Type} [CommRing F] [AddCommGroup P] [Module F P]

def Clean : VerkleNode P → Prop
  | .internal _ cow children => (∀ i, cow i = none) ∧ ∀ i, Clean (children i)
  | _ => True

def IsInternal : VerkleNode P → Prop
  | .internal _ _ _ => True
  | _ => False

/-- The node below the bytes `stem` commits to what its children were when they were last committed to. -/
def Sound (cfg : Config F P) : VerkleNode P → Stem → Prop
  | .empty, _ => True
  | .leaf n, stem => ∃ word values, n = LeafNode.ofValues cfg (stem ++ word) values ∧ (stem ++ word).length = 31 ∧
      ∀ i, (values i).length ≤ 32
  | .internal commitment cow children, stem => stem.length < 31 ∧
      commitment = cfg.commit (fun i => cfg.digest ((cow i).getD (children i).commitment)) ∧
      (∀ i, cow i = none → (children i).Clean) ∧ ∀ i, Sound cfg (children i) (stem ++ [i])

def shape : VerkleNode P → ℕ → Trie UInt8 Values
  | .empty, _ => .empty
  | .leaf n, depth => .leaf (n.stem.drop depth) n.values
  | .internal _ _ children, depth => .node fun i => (children i).shape (depth + 1)

variable {cfg : Config F P} {commitment : P} {cow : UInt8 → Option P} {children : UInt8 → VerkleNode P}
  {n child : VerkleNode P} {stem word : Stem} {values : Values} {a : UInt8}

theorem sound_newInternalNode (h : stem.length < 31) : Sound cfg newInternalNode stem := by
  refine ⟨h, ?_, fun _ _ => trivial, fun _ => trivial⟩
  have hzero : (fun _ : UInt8 => cfg.digest ((none : Option P).getD (VerkleNode.empty : VerkleNode P).commitment)) =
      0 := funext fun _ => cfg.digest_zero
  rw [hzero, VectorCommitment.commit_zero]

theorem Sound.replaceChild (h : Sound cfg n stem) (hinternal : n.IsInternal) (hchild : Sound cfg child (stem ++ [a])) :
    Sound cfg (n.replaceChild a child) stem := by
  cases n with
  | empty => exact hinternal.elim
  | leaf n => exact hinternal.elim
  | internal commitment cow children =>
  obtain ⟨hlen, hcommitment, hclean, hchildren⟩ := h
  refine ⟨hlen, ?_, ?_, ?_⟩
  · rw [hcommitment]
    congr 1
    funext i
    by_cases hi : i = a
    · rw [hi, cowChild, Function.update_self, Option.getD_some]
    · rw [cowChild, Function.update_of_ne hi, Function.update_of_ne hi]
  · intro i hnone
    by_cases hi : i = a
    · rw [hi, cowChild, Function.update_self] at hnone
      cases hnone
    · rw [cowChild, Function.update_of_ne hi] at hnone
      rw [Function.update_of_ne hi]
      exact hclean i hnone
  · intro i
    by_cases hi : i = a
    · rw [hi, Function.update_self]
      exact hchild
    · rw [Function.update_of_ne hi]
      exact hchildren i

theorem shape_replaceChild {t : UInt8 → Trie UInt8 Values} {depth : ℕ} (h : n.shape depth = .node t) (a : UInt8)
    (child : VerkleNode P) :
    (n.replaceChild a child).shape depth = .node (Function.update t a (child.shape (depth + 1))) := by
  cases n with
  | empty => cases h
  | leaf n => cases h
  | internal commitment cow children =>
  cases h
  rw [replaceChild, shape]
  congr 1
  funext i
  by_cases hi : i = a
  · rw [hi, Function.update_self, Function.update_self]
  · rw [Function.update_of_ne hi, Function.update_of_ne hi]

theorem sound_ofValues (cfg : Config F P) (hlen : (stem ++ word).length = 31) (hvalues : ∀ i, (values i).length ≤ 32) :
    Sound cfg (.leaf (LeafNode.ofValues cfg (stem ++ word) values)) stem := ⟨word, values, rfl, hlen, hvalues⟩

theorem shape_ofValues (cfg : Config F P) (stem word : Stem) (values : Values) :
    (VerkleNode.leaf (LeafNode.ofValues cfg (stem ++ word) values)).shape stem.length = .leaf word values := by
  rw [shape, LeafNode.ofValues, List.drop_left]

theorem sound_branch (cfg : Config F P) {c : UInt8} (hlen : (stem ++ c :: word).length = 31) (hvalues : ∀ i, (values i).length ≤ 32) :
    Sound cfg (newInternalNode.replaceChild c (.leaf (LeafNode.ofValues cfg (stem ++ c :: word) values))) stem := by
  have hlt : stem.length < 31 := by
    rw [List.length_append, List.length_cons] at hlen
    omega
  rw [← List.singleton_append, ← List.append_assoc] at hlen ⊢
  exact (sound_newInternalNode hlt).replaceChild trivial (sound_ofValues cfg hlen hvalues)

theorem shape_branch (cfg : Config F P) (stem word : Stem) (c : UInt8) (values : Values) :
    (newInternalNode.replaceChild c (.leaf (LeafNode.ofValues cfg (stem ++ c :: word) values))).shape stem.length =
      .node (Trie.single c (.leaf word values)) := by
  have hleaf := shape_ofValues cfg (stem ++ [c]) word values
  rw [List.append_assoc, List.singleton_append, List.length_append, List.length_singleton] at hleaf
  have hnew : (newInternalNode : VerkleNode P).shape stem.length = .node fun _ => .empty := rfl
  rw [shape_replaceChild hnew, hleaf]
  rfl

def written (values : Values) (old : Option Values) : Values := overwrite (old.getD fun _ => []) values

theorem written_none (values : Values) : written values none = values := by
  funext i
  rw [written, overwrite]
  split
  next h => exact h.symm
  next => rfl

theorem length_overwrite {old : Values} (hold : ∀ i, (old i).length ≤ 32) (hvalues : ∀ i, (values i).length ≤ 32)
    (i : UInt8) : (overwrite old values i).length ≤ 32 := by
  rw [overwrite]
  split
  · exact hold i
  · exact hvalues i

section Insert

variable [DecidableEq F] {path : Stem}

def Inserts (cfg : Config F P) (n : VerkleNode P) (stem path : Stem) (values : Values) : Prop :=
  ∃ n', insertValuesAtStem cfg (stem ++ path) values stem.length path n = some n' ∧ Sound cfg n' stem ∧
    n'.IsInternal ∧ n'.shape stem.length = (n.shape stem.length).alter (written values) path

theorem inserts_of_child (hn : Sound cfg (.internal commitment cow children) stem) (hsound : Sound cfg child (stem ++ [a]))
    (hshape : child.shape (stem ++ [a]).length =
      ((children a).shape (stem ++ [a]).length).alter (written values) path)
    (hinsert : insertValuesAtStem cfg (stem ++ [a] ++ path) values stem.length (a :: path)
      (.internal commitment cow children) =
        some ((VerkleNode.internal commitment cow children).replaceChild a child)) :
    Inserts cfg (.internal commitment cow children) stem (a :: path) values := by
  rw [← List.append_cons] at hinsert
  rw [List.length_append, List.length_singleton] at hshape
  refine ⟨_, hinsert, hn.replaceChild trivial hsound, trivial, ?_⟩
  rw [shape_replaceChild rfl, hshape]
  rfl

section Child

variable (hvalues : ∀ i, (values i).length ≤ 32) (hn : Sound cfg (.internal commitment cow children) stem)

include hn

theorem inserts_internal (hinternal : (children a).IsInternal) (h : Inserts cfg (children a) (stem ++ [a]) path values) :
    Inserts cfg (.internal commitment cow children) stem (a :: path) values := by
  obtain ⟨child', hinsert, hsound, -, hshape⟩ := h
  refine inserts_of_child hn hsound hshape ?_
  cases hchild : children a with
  | empty =>
    rw [hchild] at hinternal
    exact hinternal.elim
  | leaf child =>
    rw [hchild] at hinternal
    exact hinternal.elim
  | internal commitment' cow' children' =>
    rw [hchild, List.length_append, List.length_singleton] at hinsert
    simp only [insertValuesAtStem, hchild]
    rw [hinsert]
    rfl

include hvalues

theorem inserts_empty (hlen : (stem ++ [a] ++ path).length = 31) (hchild : children a = .empty) :
    Inserts cfg (.internal commitment cow children) stem (a :: path) values := by
  refine inserts_of_child hn (sound_ofValues cfg hlen hvalues) ?_ ?_
  · rw [shape_ofValues, hchild, shape, Trie.alter, written_none]
  · simp only [insertValuesAtStem, hchild]
    rw [newLeafNode_eq hlen hvalues]
    rfl

variable {old : Values} (hold : ∀ i, (old i).length ≤ 32)

include hold

theorem inserts_leaf_self (hlen : (stem ++ [a] ++ path).length = 31)
    (hchild : children a = .leaf (LeafNode.ofValues cfg (stem ++ [a] ++ path) old)) :
    Inserts cfg (.internal commitment cow children) stem (a :: path) values := by
  refine inserts_of_child hn (sound_ofValues cfg hlen (length_overwrite hold hvalues)) ?_ ?_
  · rw [hchild, shape_ofValues, shape_ofValues, Trie.alter_leaf_self]
    rfl
  · simp only [insertValuesAtStem, hchild, LeafNode.ofValues_stem, if_true]
    rw [insertMultiple_eq hold hvalues]
    rfl

theorem inserts_leaf_of_ne {b c : UInt8} (hlen : (stem ++ [a] ++ b :: path).length = 31)
    (hword : (stem ++ [a] ++ c :: word).length = 31) (hne : c :: word ≠ b :: path)
    (hchild : children a = .leaf (LeafNode.ofValues cfg (stem ++ [a] ++ c :: word) old))
    (h : b = c → Inserts cfg (newInternalNode.replaceChild c (.leaf (LeafNode.ofValues cfg (stem ++ [a] ++ c :: word) old)))
      (stem ++ [a]) (b :: path) values) :
    Inserts cfg (.internal commitment cow children) stem (a :: b :: path) values := by
  have hdepth : (stem ++ [a]).length = stem.length + 1 := by simp
  have htake : ¬(stem ++ [a] ++ c :: word).take 31 = (stem ++ [a] ++ b :: path).take 31 := by
    rw [List.take_of_length_le hword.le, List.take_of_length_le hlen.le, List.append_cancel_left_eq]
    exact hne
  have hbyte : (stem ++ [a] ++ c :: word)[stem.length + 1]? = some c := by
    rw [← hdepth, List.getElem?_append_right le_rfl, Nat.sub_self]
    rfl
  have hbranchShape := shape_branch cfg (stem ++ [a]) word c old
  have halter := Trie.alter_leaf_of_ne (written values) hne old
  by_cases hbc : b = c
  · obtain ⟨branch, hinsert, hsound, -, hshape⟩ := h hbc
    subst hbc
    refine inserts_of_child hn hsound ?_ ?_
    · rw [hshape, hbranchShape, hchild, shape_ofValues, halter]
    · rw [hdepth] at hinsert
      simp only [insertValuesAtStem, hchild, LeafNode.ofValues_stem, htake, if_false, hbyte, List.head?_cons,
        Option.bind_eq_bind, Option.bind_some, if_true]
      rw [hinsert]
      rfl
  · have hnext : stem ++ [a] ++ b :: path = stem ++ [a] ++ [b] ++ path := List.append_cons _ _ _
    have hleaf := shape_ofValues cfg (stem ++ [a] ++ [b]) path values
    have hempty : Trie.single c (.leaf word old) b = .empty := Function.update_of_ne hbc _ _
    rw [← hnext, List.length_append, List.length_singleton] at hleaf
    refine inserts_of_child hn ((sound_branch cfg hword hold).replaceChild trivial
      (hnext ▸ sound_ofValues cfg (hnext ▸ hlen) hvalues)) ?_ ?_
    · rw [shape_replaceChild hbranchShape, hleaf, hchild, shape_ofValues, halter, Trie.alter, hempty, Trie.alter,
        written_none]
    · simp only [insertValuesAtStem, hchild, LeafNode.ofValues_stem, htake, if_false, hbyte, List.head?_cons,
        Option.bind_eq_bind, Option.bind_some, hbc, newLeafNode_eq hlen hvalues]

end Child

theorem exists_insertValuesAtStem (hvalues : ∀ i, (values i).length ≤ 32) (hlen : (stem ++ path).length = 31)
    (hn : Sound cfg n stem) (hinternal : n.IsInternal) : Inserts cfg n stem path values := by
  induction path generalizing stem n with
  | nil =>
    cases n with
    | empty => exact hinternal.elim
    | leaf n => exact hinternal.elim
    | internal commitment cow children =>
      rw [List.append_nil] at hlen
      exact absurd hn.1 (by omega)
  | cons a path ih =>
    cases n with
    | empty => exact hinternal.elim
    | leaf n => exact hinternal.elim
    | internal commitment cow children =>
    rw [List.append_cons] at hlen
    have hsound := hn.2.2.2 a
    cases hchild : children a with
    | empty => exact inserts_empty hvalues hn hlen hchild
    | internal commitment' cow' children' =>
      rw [hchild] at hsound
      refine inserts_internal hn ?_ ?_
      · rw [hchild]
        trivial
      · rw [hchild]
        exact ih hlen hsound trivial
    | leaf child =>
      rw [hchild] at hsound
      obtain ⟨word, old, rfl, hword, hold⟩ := hsound
      by_cases heq : word = path
      · subst heq
        exact inserts_leaf_self hvalues hn hold hlen hchild
      have hlengths : word.length = path.length := by
        rw [List.length_append] at hlen hword
        omega
      cases path with
      | nil => exact absurd (List.length_eq_zero_iff.mp hlengths) heq
      | cons b path =>
        cases word with
        | nil => cases hlengths
        | cons c word =>
          exact inserts_leaf_of_ne hvalues hn hold hlen hword heq hchild fun _ =>
            ih hlen (sound_branch cfg hword hold) trivial

end Insert

theorem getValuesAtStem_eq {path : Stem} (hlen : (stem ++ path).length = 31) (hn : Sound cfg n stem)
    (hinternal : n.IsInternal) : n.getValuesAtStem (stem ++ path) path = (n.shape stem.length).find path := by
  induction path generalizing stem n with
  | nil =>
    cases n with
    | empty => exact hinternal.elim
    | leaf n => exact hinternal.elim
    | internal commitment cow children => rfl
  | cons a path ih =>
    cases n with
    | empty => exact hinternal.elim
    | leaf n => exact hinternal.elim
    | internal commitment cow children =>
    have hnext : stem ++ a :: path = stem ++ [a] ++ path := by rw [List.append_assoc, List.singleton_append]
    have hdepth : (stem ++ [a]).length = stem.length + 1 := by simp
    have hsound := hn.2.2.2 a
    rw [hnext] at hlen ⊢
    rw [shape, Trie.find, ← hdepth]
    cases hchild : children a with
    | empty => simp only [getValuesAtStem, hchild, shape, Trie.find]
    | internal commitment' cow' children' =>
      rw [hchild] at hsound
      rw [← ih hlen hsound trivial]
      simp only [getValuesAtStem, hchild]
    | leaf child =>
      rw [hchild] at hsound
      obtain ⟨word, old, rfl, hword, -⟩ := hsound
      have htake : (stem ++ [a] ++ word).take 31 = (stem ++ [a] ++ path).take 31 ↔ word = path := by
        rw [List.take_of_length_le hword.le, List.take_of_length_le hlen.le, List.append_cancel_left_eq]
      rw [shape_ofValues]
      simp only [getValuesAtStem, hchild, Trie.find, LeafNode.ofValues_stem, LeafNode.ofValues_values, htake]

theorem uniform_shape (hn : Sound cfg n stem) {k : ℕ} (hk : stem.length + k = 31) :
    (n.shape stem.length).Uniform k := by
  induction n generalizing stem k with
  | empty => trivial
  | leaf n =>
    obtain ⟨word, values, rfl, hlen, -⟩ := hn
    rw [shape_ofValues]
    rw [List.length_append] at hlen
    exact Nat.add_left_cancel (hlen.trans hk.symm)
  | internal commitment cow children ih =>
    obtain ⟨hlt, -, -, hchildren⟩ := hn
    obtain _ | k := k
    · omega
    intro a
    have hdepth : (stem ++ [a]).length = stem.length + 1 := by simp
    have hchild := ih a (hchildren a) (k := k) (by omega)
    rwa [hdepth] at hchild

structure Valid (cfg : Config F P) (n : VerkleNode P) : Prop where
  sound : n.Sound cfg []
  internal : n.IsInternal
  compact : (n.shape 0).CompactBelow

theorem valid_newInternalNode : Valid cfg newInternalNode where
  sound := sound_newInternalNode (by decide)
  internal := trivial
  compact := fun _ => trivial

theorem Valid.uniform (h : Valid cfg n) : (n.shape 0).Uniform 31 := uniform_shape h.sound rfl

def single (suffix : UInt8) (value : Bytes) : Values := Function.update (fun _ => []) suffix value

theorem length_single {value : Bytes} (h : value.length ≤ 32) (suffix i : UInt8) :
    (single suffix value i).length ≤ 32 := by
  rw [single]
  by_cases hi : i = suffix
  · rw [hi, Function.update_self]
    exact h
  · rw [Function.update_of_ne hi]
    exact Nat.zero_le _

theorem Valid.exists_insert [DecidableEq F] (h : Valid cfg n) {key value : Bytes} (hkey : key.length = 32)
    (hvalue : value.length ≤ 32) :
    ∃ n', n.insert cfg key value = some n' ∧ Valid cfg n' ∧
      n'.shape 0 = (n.shape 0).alter (written (single (key.getD 31 0) value)) (key.take 31) := by
  have hlen : (key.take 31).length = 31 := by
    rw [List.length_take, hkey]
    rfl
  obtain ⟨n', hinsert, hsound, hinternal, hshape⟩ := exists_insertValuesAtStem
    (length_single hvalue (key.getD 31 0)) (show ([] ++ key.take 31).length = 31 from hlen) h.sound h.internal
  have hsuffix : key[31]? = some (key.getD 31 0) := by
    rw [List.getD_eq_getElem?_getD, List.getElem?_eq_getElem (by omega), Option.getD_some]
  refine ⟨n', ?_, ⟨hsound, hinternal, ?_⟩, hshape⟩
  · rw [insert, hsuffix]
    exact hinsert
  · rw [show n'.shape 0 = _ from hshape]
    exact Trie.compactBelow_alter _ (by rw [hlen]; exact h.uniform) h.compact

end VerkleNode

end Zephyria.Verkle
