import Mathlib

/-!
Prefix trees over words of one length. A word sits in a leaf, as near to the root as the other words
allow, so that the tree is determined by the words and their values.
-/

namespace Zephyria

inductive Trie (A V : Type) where
  | empty
  | leaf (word : List A) (v : V)
  | node (children : A → Trie A V)

namespace Trie

variable {A V : Type} [DecidableEq A]

def find : List A → Trie A V → Option V
  | _, .empty => none
  | w, .leaf word v => if word = w then some v else none
  | a :: w, .node children => find w (children a)
  | [], .node _ => none

def single (a : A) (t : Trie A V) : A → Trie A V := Function.update (fun _ => .empty) a t

/-- The value of the word becomes what `f` makes of the one that it has. A leaf with another word moves
down until the words part. -/
def alter (f : Option V → V) : List A → Trie A V → Trie A V
  | w, .empty => .leaf w (f none)
  | [], .leaf word v => .leaf word (if word = [] then f (some v) else v)
  | _ :: _, .leaf [] v => .leaf [] v
  | a :: w, .leaf (b :: word) v =>
    if b :: word = a :: w then .leaf (b :: word) (f (some v))
    else .node (Function.update (single b (.leaf word v)) a (alter f w (single b (.leaf word v) a)))
  | a :: w, .node children => .node (Function.update children a (alter f w (children a)))
  | [], .node children => .node children

def Uniform : Trie A V → ℕ → Prop
  | .empty, _ => True
  | .leaf word _, n => word.length = n
  | .node _, 0 => False
  | .node children, n + 1 => ∀ a, Uniform (children a) n

def Compact : Trie A V → Prop
  | .empty => True
  | .leaf _ _ => True
  | .node children => (∃ w w', w ≠ w' ∧ find w (.node children) ≠ none ∧ find w' (.node children) ≠ none) ∧
      ∀ a, Compact (children a)

variable {f : Option V → V} {t t' : Trie A V} {a b : A} {w q : List A} {n : ℕ}

theorem alter_leaf_self (f : Option V → V) (w : List A) (v : V) : alter f w (.leaf w v) = .leaf w (f (some v)) := by
  cases w with
  | nil => rfl
  | cons a w => rw [alter, if_pos rfl]

theorem alter_leaf_of_ne {word : List A} (f : Option V → V) (h : b :: word ≠ a :: w) (v : V) :
    alter f (a :: w) (.leaf (b :: word) v) = alter f (a :: w) (.node (single b (.leaf word v))) := by
  rw [alter, if_neg h, alter]

theorem find_single (a b : A) (w word : List A) (v : V) :
    find w (single b (.leaf word v) a) = if a = b ∧ word = w then some v else none := by
  unfold single
  by_cases h : a = b
  · subst h
    rw [Function.update_self, find]
    simp
  · rw [Function.update_of_ne h]
    simp [h, find]

theorem uniform_single {word : List A} (h : word.length = n) (b : A) (v : V) (a : A) :
    Uniform (single b (.leaf word v) a) n := by
  unfold single
  by_cases hab : a = b
  · subst hab
    rw [Function.update_self]
    exact h
  · rw [Function.update_of_ne hab]
    trivial

theorem find_node_update (children : A → Trie A V) (a b : A) (q : List A) (t : Trie A V) :
    find (b :: q) (.node (Function.update children a t)) = if b = a then find q t else find q (children b) := by
  rw [find]
  by_cases h : b = a
  · rw [h, Function.update_self, if_pos rfl]
  · rw [Function.update_of_ne h, if_neg h]

theorem find_alter (f : Option V → V) (h : Uniform t w.length) (hq : q.length = w.length) :
    find q (alter f w t) = if q = w then some (f (find w t)) else find q t := by
  induction w generalizing t q with
  | nil =>
    obtain rfl := List.length_eq_zero_iff.mp hq
    cases t with
    | empty => rfl
    | node children => exact h.elim
    | leaf word v =>
      obtain rfl := List.length_eq_zero_iff.mp h
      rfl
  | cons a w ih =>
    obtain _ | ⟨b, q⟩ := q
    · cases hq
    have hlen : q.length = w.length := Nat.succ.inj hq
    -- An inner node whose child for `a` is altered, whatever it was.
    have hnode {children : A → Trie A V} (hc : Uniform (children a) w.length) :
        find (b :: q) (.node (Function.update children a (alter f w (children a)))) =
          if b :: q = a :: w then some (f (find w (children a))) else find q (children b) := by
      rw [find_node_update]
      by_cases hba : b = a
      · subst hba
        rw [if_pos rfl, ih hc hlen]
        simp
      · simp [hba]
    cases t with
    | empty => simp [alter, find, eq_comm]
    | node children => exact hnode (h a)
    | leaf word v =>
      obtain _ | ⟨c, word⟩ := word
      · cases h
      rw [alter]
      by_cases hword : c :: word = a :: w
      · rw [if_pos hword, hword]
        by_cases hqw : b :: q = a :: w
        · rw [if_pos hqw, hqw, find, find, if_pos rfl, if_pos rfl]
        · rw [if_neg hqw, find, find, if_neg (Ne.symm hqw), if_neg (Ne.symm hqw)]
      · have hwa : ¬(a = c ∧ word = w) := fun hc => hword (by rw [hc.1, hc.2])
        rw [if_neg hword, hnode (uniform_single (Nat.succ.inj h) c v a), find_single, find_single, if_neg hwa, find,
          find, if_neg hword]
        simp [eq_comm]

theorem find_alter_ne_none (f : Option V → V) (h : Uniform t w.length) (hq : find q t ≠ none)
    (hlen : q.length = w.length) : find q (alter f w t) ≠ none := by
  rw [find_alter f h hlen]
  split
  · simp
  · exact hq

theorem length_of_find (h : Uniform t n) (hw : find w t ≠ none) : w.length = n := by
  induction w generalizing t n with
  | nil =>
    cases t with
    | empty => exact absurd rfl hw
    | node children => exact absurd rfl hw
    | leaf word v =>
      rw [find] at hw
      split at hw
      next heq => exact heq ▸ h
      next => exact absurd rfl hw
  | cons a w ih =>
    cases t with
    | empty => exact absurd rfl hw
    | leaf word v =>
      rw [find] at hw
      split at hw
      next heq => exact heq ▸ h
      next => exact absurd rfl hw
    | node children =>
      cases n with
      | zero => exact h.elim
      | succ n => exact congrArg (· + 1) (ih (h a) hw)

theorem compact_single (b : A) (word : List A) (v : V) (a : A) : Compact (single b (.leaf word v) a) := by
  unfold single
  by_cases hab : a = b
  · subst hab
    rw [Function.update_self]
    trivial
  · rw [Function.update_of_ne hab]
    trivial

theorem compact_alter (f : Option V → V) (h : Uniform t w.length) (hc : Compact t) : Compact (alter f w t) := by
  induction w generalizing t with
  | nil =>
    cases t with
    | empty => trivial
    | leaf word v => trivial
    | node children => exact h.elim
  | cons a w ih =>
    have hupdate {children : A → Trie A V} (hu : ∀ b, Uniform (children b) w.length)
        (hchildren : ∀ b, Compact (children b)) (b : A) :
        Compact (Function.update children a (alter f w (children a)) b) := by
      by_cases hba : b = a
      · subst hba
        rw [Function.update_self]
        exact ih (hu b) (hchildren b)
      · rw [Function.update_of_ne hba]
        exact hchildren b
    cases t with
    | empty => trivial
    | node children =>
      obtain ⟨⟨w₁, w₂, hne, h₁, h₂⟩, hchildren⟩ := hc
      refine ⟨⟨w₁, w₂, hne, ?_, ?_⟩, hupdate h hchildren⟩
      · exact find_alter_ne_none (t := .node children) f h h₁ (length_of_find h h₁)
      · exact find_alter_ne_none (t := .node children) f h h₂ (length_of_find h h₂)
    | leaf word v =>
      obtain _ | ⟨b, word⟩ := word
      · cases h
      have hfind (q : List A) (hq : q.length = (a :: w).length) := find_alter (t := .leaf (b :: word) v) f h hq
      rw [alter] at hfind ⊢
      by_cases hword : b :: word = a :: w
      · rw [if_pos hword]
        trivial
      · rw [if_neg hword] at hfind ⊢
        refine ⟨⟨a :: w, b :: word, Ne.symm hword, ?_, ?_⟩, hupdate (uniform_single (Nat.succ.inj h) b v) ?_⟩
        · rw [hfind _ rfl, if_pos rfl]
          simp
        · rw [hfind _ h, if_neg hword, find, if_pos rfl]
          simp
        · exact compact_single b word v

theorem find_leaf_unique {word w' : List A} {v : V} (h : find w (.leaf word v) ≠ none)
    (h' : find w' (.leaf word v) ≠ none) : w = w' := by
  rw [find] at h h'
  split at h
  next hw =>
    split at h'
    next hw' => rw [← hw, ← hw']
    next => exact absurd rfl h'
  next => exact absurd rfl h

theorem ext_of_find (h : Uniform t n) (h' : Uniform t' n) (hc : Compact t) (hc' : Compact t')
    (hfind : ∀ w, find w t = find w t') : t = t' := by
  have hnode {children : A → Trie A V} {t : Trie A V} (hc : Compact (.node children))
      (hunique : ∀ w w', find w t ≠ none → find w' t ≠ none → w = w')
      (hfind : ∀ w, find w (.node children) = find w t) : False := by
    obtain ⟨⟨w, w', hne, hw, hw'⟩, -⟩ := hc
    rw [hfind] at hw hw'
    exact hne (hunique w w' hw hw')
  induction t generalizing n t' with
  | empty =>
    cases t' with
    | empty => rfl
    | leaf word v =>
      have hword := hfind word
      simp [find] at hword
    | node children => exact (hnode (t := .empty) hc' (by simp [find]) fun w => (hfind w).symm).elim
  | leaf word v =>
    cases t' with
    | empty =>
      have hword := hfind word
      simp [find] at hword
    | leaf word' v' =>
      have hword := hfind word
      rw [find, find, if_pos rfl] at hword
      split at hword
      next heq => rw [heq, Option.some.inj hword]
      next => cases hword
    | node children =>
      exact (hnode (t := .leaf word v) hc' (fun _ _ => find_leaf_unique) fun w => (hfind w).symm).elim
  | node children ih =>
    cases t' with
    | empty => exact (hnode (t := .empty) hc (by simp [find]) hfind).elim
    | leaf word v => exact (hnode (t := .leaf word v) hc (fun _ _ => find_leaf_unique) hfind).elim
    | node children' =>
      cases n with
      | zero => exact h.elim
      | succ n =>
        congr 1
        funext a
        exact ih a (h a) (h' a) (hc.2 a) (hc'.2 a) fun w => hfind (a :: w)

def CompactBelow : Trie A V → Prop
  | .node children => ∀ a, Compact (children a)
  | _ => False

theorem compactBelow_alter (f : Option V → V) (h : Uniform t w.length) (hc : CompactBelow t) :
    CompactBelow (alter f w t) := by
  cases t with
  | empty => exact hc.elim
  | leaf word v => exact hc.elim
  | node children =>
    cases w with
    | nil => exact h.elim
    | cons a w =>
      intro b
      by_cases hba : b = a
      · rw [hba, Function.update_self]
        exact compact_alter f (h a) (hc a)
      · rw [Function.update_of_ne hba]
        exact hc b

theorem ext_of_find_below (h : Uniform t n) (h' : Uniform t' n) (hc : CompactBelow t) (hc' : CompactBelow t')
    (hfind : ∀ w, find w t = find w t') : t = t' := by
  cases t with
  | empty => exact hc.elim
  | leaf word v => exact hc.elim
  | node children =>
    cases t' with
    | empty => exact hc'.elim
    | leaf word v => exact hc'.elim
    | node children' =>
      cases n with
      | zero => exact h.elim
      | succ n =>
        congr 1
        funext a
        exact ext_of_find (h a) (h' a) (hc a) (hc' a) fun w => hfind (a :: w)

section Map

variable {W : Type} (g : List A → V → W)

def mapLeaf : List A → Trie A V → Trie A W
  | _, .empty => .empty
  | pre, .leaf word v => .leaf word (g (pre ++ word) v)
  | pre, .node children => .node fun a => mapLeaf (pre ++ [a]) (children a)

theorem find_mapLeaf (pre q : List A) (t : Trie A V) :
    find q (mapLeaf g pre t) = (find q t).map (g (pre ++ q)) := by
  induction t generalizing pre q with
  | empty => cases q <;> rfl
  | leaf word v =>
    rw [mapLeaf, find, find]
    split
    next h => rw [h, Option.map_some]
    next => rfl
  | node children ih =>
    cases q with
    | nil => rfl
    | cons a q =>
      rw [mapLeaf, find, find, ih, List.append_assoc, List.singleton_append]

theorem find_mapLeaf_ne_none {pre q : List A} (h : find q t ≠ none) : find q (mapLeaf g pre t) ≠ none := by
  rw [find_mapLeaf, ne_eq, Option.map_eq_none_iff]
  exact h

omit [DecidableEq A] in
theorem uniform_mapLeaf (h : Uniform t n) (pre : List A) : Uniform (mapLeaf g pre t) n := by
  induction t generalizing pre n with
  | empty => trivial
  | leaf word v => exact h
  | node children ih =>
    cases n with
    | zero => exact h.elim
    | succ n => exact fun a => ih a (h a) (pre ++ [a])

theorem compact_mapLeaf (h : Compact t) (pre : List A) : Compact (mapLeaf g pre t) := by
  induction t generalizing pre with
  | empty => trivial
  | leaf word v => trivial
  | node children ih =>
    obtain ⟨⟨w, w', hne, hw, hw'⟩, hchildren⟩ := h
    refine ⟨⟨w, w', hne, ?_, ?_⟩, fun a => ih a (hchildren a) (pre ++ [a])⟩
    · exact find_mapLeaf_ne_none (t := .node children) g hw
    · exact find_mapLeaf_ne_none (t := .node children) g hw'

theorem compactBelow_mapLeaf (h : CompactBelow t) (pre : List A) : CompactBelow (mapLeaf g pre t) := by
  cases t with
  | empty => exact h.elim
  | leaf word v => exact h.elim
  | node children => exact fun a => compact_mapLeaf g (h a) (pre ++ [a])

end Map

end Trie

end Zephyria
