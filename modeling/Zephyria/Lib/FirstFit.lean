import Mathlib

/-!
First-fit rounds: each round walks the queue in order and takes every item that clashes with none
taken so far in that round; the rest waits for the next round.
-/

namespace Zephyria.FirstFit

section Rounds

variable {α : Type} (r : α → α → Prop) [DecidableRel r]

def select : List α → List α → List α × List α
  | _, [] => ([], [])
  | taken, x :: xs =>
    if ∃ y ∈ taken, r y x then ((select taken xs).1, x :: (select taken xs).2)
    else (x :: (select (x :: taken) xs).1, (select (x :: taken) xs).2)

theorem select_sublist (taken xs : List α) :
    (select r taken xs).1.Sublist xs ∧ (select r taken xs).2.Sublist xs := by
  induction xs generalizing taken with
  | nil => exact ⟨.slnil, .slnil⟩
  | cons x xs ih =>
    unfold select
    split
    · exact ⟨(ih taken).1.cons x, (ih taken).2.cons_cons x⟩
    · exact ⟨(ih (x :: taken)).1.cons_cons x, (ih (x :: taken)).2.cons x⟩

theorem mem_select (taken xs : List α) (x : α) :
    x ∈ xs ↔ x ∈ (select r taken xs).1 ∨ x ∈ (select r taken xs).2 := by
  induction xs generalizing taken with
  | nil => simp [select]
  | cons y xs ih =>
    unfold select
    split
    · rw [List.mem_cons, List.mem_cons, ih taken]
      tauto
    · rw [List.mem_cons, List.mem_cons, ih (y :: taken)]
      tauto

theorem select_fst_ne_nil {xs : List α} (h : xs ≠ []) : (select r [] xs).1 ≠ [] := by
  cases xs with
  | nil => exact absurd rfl h
  | cons x xs => simp [select]

theorem select_snd_length {xs : List α} (h : xs ≠ []) : (select r [] xs).2.length < xs.length := by
  cases xs with
  | nil => exact absurd rfl h
  | cons x xs =>
    have hl := (select_sublist r [x] xs).2.length_le
    simp only [select, List.not_mem_nil, false_and, exists_false, if_false, List.length_cons]
    omega

def rounds (xs : List α) : List (List α) :=
  if _h : xs = [] then [] else (select r [] xs).1 :: rounds (select r [] xs).2
termination_by xs.length
decreasing_by exact select_snd_length r _h

theorem rounds_nil : rounds r [] = [] := by rw [rounds]; simp

theorem rounds_of_ne_nil {xs : List α} (h : xs ≠ []) :
    rounds r xs = (select r [] xs).1 :: rounds r (select r [] xs).2 := by
  rw [rounds, dif_neg h]

theorem select_of_pairwise {taken xs : List α} (htaken : ∀ x ∈ xs, ∀ y ∈ taken, ¬r y x)
    (h : xs.Pairwise fun y x => ¬r y x) : select r taken xs = (xs, []) := by
  induction xs generalizing taken with
  | nil => rfl
  | cons x xs ih =>
    obtain ⟨hx, hxs⟩ := List.pairwise_cons.mp h
    have hfree : ¬∃ y ∈ taken, r y x := fun ⟨y, hy, hyx⟩ => htaken x List.mem_cons_self y hy hyx
    rw [select, if_neg hfree, ih _ hxs]
    intro z hz y hy
    obtain rfl | hy := List.mem_cons.mp hy
    · exact hx z hz
    · exact htaken z (List.mem_cons_of_mem _ hz) y hy

theorem rounds_of_pairwise {xs : List α} (hne : xs ≠ []) (h : xs.Pairwise fun y x => ¬r y x) :
    rounds r xs = [xs] := by
  rw [rounds_of_ne_nil r hne, select_of_pairwise r (by simp) h, rounds_nil]

theorem select_snd_of_fst_eq_nil {taken xs : List α} (h : (select r taken xs).1 = []) :
    (select r taken xs).2 = xs := by
  induction xs generalizing taken with
  | nil => rfl
  | cons x xs ih =>
    unfold select at h ⊢
    split at h
    next hclash => rw [if_pos hclash, ih h]
    next => cases h

theorem rounds_singletons {xs : List α} (h : ∀ w ∈ rounds r xs, w.length = 1) :
    rounds r xs = xs.map fun x => [x] := by
  induction xs with
  | nil => exact rounds_nil r
  | cons x xs ih =>
    have hselect : select r [] (x :: xs) = (x :: (select r [x] xs).1, (select r [x] xs).2) := by
      simp [select]
    have hrounds := rounds_of_ne_nil r (List.cons_ne_nil x xs)
    rw [hselect] at hrounds
    have hfirst : (select r [x] xs).1 = [] := by
      have hl := h _ (hrounds ▸ List.mem_cons_self)
      simpa using hl
    rw [hfirst, select_snd_of_fst_eq_nil r hfirst] at hrounds
    rw [hrounds, List.map_cons, ih fun w hw => h w (hrounds ▸ List.mem_cons_of_mem _ hw)]

theorem select_map {γ : Type} (f : γ → α) (taken xs : List γ) :
    select r (taken.map f) (xs.map f) =
      ((select (fun x y => r (f x) (f y)) taken xs).1.map f,
        (select (fun x y => r (f x) (f y)) taken xs).2.map f) := by
  induction xs generalizing taken with
  | nil => rfl
  | cons x xs ih =>
    by_cases h : ∃ y ∈ taken, r (f y) (f x)
    · simp [select, h, ih taken]
    · have hx := ih (x :: taken)
      rw [List.map_cons] at hx
      simp [select, h, hx]

theorem rounds_map {γ : Type} (f : γ → α) (xs : List γ) :
    rounds r (xs.map f) = (rounds (fun x y => r (f x) (f y)) xs).map (List.map f) := by
  induction xs using rounds.induct fun x y => r (f x) (f y) with
  | case1 => simp [rounds_nil]
  | case2 xs hne ih =>
    have hmap := select_map r f [] xs
    rw [List.map_nil] at hmap
    rw [rounds_of_ne_nil r (by simpa using hne), rounds_of_ne_nil _ hne, hmap, ih, List.map_cons]

theorem select_pairwise (taken xs : List α) :
    (select r taken xs).1.Pairwise (fun x y => ¬r x y) ∧
      ∀ x ∈ (select r taken xs).1, ∀ y ∈ taken, ¬r y x := by
  induction xs generalizing taken with
  | nil => simp [select]
  | cons x xs ih =>
    unfold select
    split
    next => exact ih taken
    next hclash =>
      obtain ⟨hp, ht⟩ := ih (x :: taken)
      refine ⟨List.pairwise_cons.mpr ⟨fun y hy => ht y hy x List.mem_cons_self, hp⟩, ?_⟩
      intro y hy z hz hr
      rcases List.mem_cons.mp hy with rfl | hy
      · exact hclash ⟨z, hz, hr⟩
      · exact ht y hy z (List.mem_cons_of_mem x hz) hr

theorem rounds_pairwise {xs w : List α} (hw : w ∈ rounds r xs) :
    w.Pairwise fun x y => ¬r x y := by
  induction xs using rounds.induct r with
  | case1 => simp [rounds_nil] at hw
  | case2 xs hne ih =>
    rw [rounds_of_ne_nil r hne] at hw
    rcases List.mem_cons.mp hw with rfl | hw
    · exact (select_pairwise r [] xs).1
    · exact ih hw

theorem select_perm (taken xs : List α) :
    ((select r taken xs).1 ++ (select r taken xs).2).Perm xs := by
  induction xs generalizing taken with
  | nil => rfl
  | cons x xs ih =>
    unfold select
    split
    · exact List.perm_middle.trans ((ih taken).cons x)
    · exact (ih (x :: taken)).cons x

theorem rounds_flatten_perm (xs : List α) : (rounds r xs).flatten.Perm xs := by
  induction xs using rounds.induct r with
  | case1 => simp [rounds_nil]
  | case2 xs hne ih =>
    rw [rounds_of_ne_nil r hne, List.flatten_cons]
    exact (ih.append_left _).trans (select_perm r [] xs)

theorem rounds_sublist {xs w : List α} (hw : w ∈ rounds r xs) : w ≠ [] ∧ w.Sublist xs := by
  induction xs using rounds.induct r with
  | case1 => simp [rounds_nil] at hw
  | case2 xs hne ih =>
    rw [rounds_of_ne_nil r hne] at hw
    rcases List.mem_cons.mp hw with rfl | hw
    · exact ⟨select_fst_ne_nil r hne, (select_sublist r [] xs).1⟩
    · exact ⟨(ih hw).1, (ih hw).2.trans (select_sublist r [] xs).2⟩

theorem rounds_length_le (xs : List α) : (rounds r xs).length ≤ xs.length := by
  induction xs using rounds.induct r with
  | case1 => simp [rounds_nil]
  | case2 xs hne ih =>
    have hshorter := select_snd_length r hne
    rw [rounds_of_ne_nil r hne, List.length_cons]
    omega

def level [DecidableEq α] (xs : List α) (x : α) : ℕ := (rounds r xs).findIdx (fun w => x ∈ w)

section Levels

variable (tag : α → ℕ)

abbrev Tagged (xs : List α) : Prop := xs.Pairwise fun x y => tag x < tag y

theorem mem_deferred_iff {taken xs : List α} (hs : Tagged tag xs) {x : α} (hx : x ∈ xs) :
    x ∈ (select r taken xs).2 ↔
      (∃ y ∈ taken, r y x) ∨ ∃ y ∈ (select r taken xs).1, tag y < tag x ∧ r y x := by
  induction xs generalizing taken with
  | nil => cases hx
  | cons z xs ih =>
    obtain ⟨hz, hs⟩ := List.pairwise_cons.mp hs
    unfold select
    split
    next hclash =>
      rcases List.mem_cons.mp hx with rfl | hx'
      · simp [hclash]
      · have hne : x ≠ z := by
          rintro rfl
          exact lt_irrefl _ (hz x hx')
        rw [List.mem_cons, or_iff_right hne, ih hs hx']
    next hclash =>
      rcases List.mem_cons.mp hx with rfl | hx'
      · -- The head is taken, and everything behind it has a larger tag.
        have hx' : x ∉ (select r (x :: taken) xs).2 := fun h =>
          lt_irrefl _ (hz x ((select_sublist r _ xs).2.subset h))
        apply iff_of_false hx'
        rintro (h | ⟨y, hy, hlt, -⟩)
        · exact hclash h
        · rcases List.mem_cons.mp hy with rfl | hy
          · exact lt_irrefl _ hlt
          · exact lt_asymm hlt (hz y ((select_sublist r _ xs).1.subset hy))
      · rw [ih hs hx']
        constructor
        · rintro (⟨y, hy, hr⟩ | ⟨y, hy, hlt, hr⟩)
          · rcases List.mem_cons.mp hy with rfl | hy
            · exact Or.inr ⟨y, List.mem_cons_self, hz x hx', hr⟩
            · exact Or.inl ⟨y, hy, hr⟩
          · exact Or.inr ⟨y, List.mem_cons_of_mem z hy, hlt, hr⟩
        · rintro (⟨y, hy, hr⟩ | ⟨y, hy, hlt, hr⟩)
          · exact Or.inl ⟨y, List.mem_cons_of_mem z hy, hr⟩
          · rcases List.mem_cons.mp hy with rfl | hy
            · exact Or.inl ⟨y, List.mem_cons_self, hr⟩
            · exact Or.inr ⟨y, hy, hlt, hr⟩

theorem not_mem_both {taken xs : List α} (hs : Tagged tag xs) {x : α}
    (h₁ : x ∈ (select r taken xs).1) : x ∉ (select r taken xs).2 := by
  induction xs generalizing taken with
  | nil => cases h₁
  | cons z xs ih =>
    obtain ⟨hz, hs⟩ := List.pairwise_cons.mp hs
    have hne (h : x ∈ xs) : x ≠ z := by
      rintro rfl
      exact lt_irrefl _ (hz x h)
    unfold select at h₁ ⊢
    split at h₁
    next hclash =>
      have hx := (select_sublist r taken xs).1.subset h₁
      rw [if_pos hclash]
      exact List.not_mem_cons_of_ne_of_not_mem (hne hx) (ih hs h₁)
    next hclash =>
      rw [if_neg hclash]
      rcases List.mem_cons.mp h₁ with rfl | h₁
      · exact fun h => hne ((select_sublist r _ xs).2.subset h) rfl
      · exact ih hs h₁

variable [DecidableEq α]

theorem level_taken {xs : List α} {x : α} (h : x ∈ (select r [] xs).1) : level r xs x = 0 := by
  have hne : xs ≠ [] := by
    rintro rfl
    cases h
  simp [level, rounds_of_ne_nil r hne, List.findIdx_cons, h]

theorem level_deferred {xs : List α} (hs : Tagged tag xs) {x : α} (h : x ∈ (select r [] xs).2) :
    level r xs x = level r (select r [] xs).2 x + 1 := by
  have hne : xs ≠ [] := by
    rintro rfl
    cases h
  have hn : x ∉ (select r [] xs).1 := fun h₁ => not_mem_both r tag hs h₁ h
  simp [level, rounds_of_ne_nil r hne, List.findIdx_cons, hn]

theorem mem_round_iff {xs : List α} (hs : Tagged tag xs) (x : α) (i : ℕ) :
    (∃ w, (rounds r xs)[i]? = some w ∧ x ∈ w) ↔ x ∈ xs ∧ i = level r xs x := by
  induction xs using rounds.induct r generalizing i with
  | case1 => simp [rounds_nil]
  | case2 xs hne ih =>
    have hs' : Tagged tag (select r [] xs).2 := hs.sublist (select_sublist r [] xs).2
    rw [rounds_of_ne_nil r hne, mem_select r [] xs]
    cases i with
    | zero =>
      simp only [List.getElem?_cons_zero, Option.some.injEq, exists_eq_left']
      constructor
      · exact fun h => ⟨Or.inl h, (level_taken r h).symm⟩
      · rintro ⟨h | h, hl⟩
        · exact h
        · rw [level_deferred r tag hs h] at hl
          omega
    | succ i =>
      rw [List.getElem?_cons_succ, ih hs' i]
      constructor
      · rintro ⟨h, rfl⟩
        exact ⟨Or.inr h, (level_deferred r tag hs h).symm⟩
      · rintro ⟨h | h, hl⟩
        · rw [level_taken r h] at hl
          omega
        · rw [level_deferred r tag hs h] at hl
          exact ⟨h, by omega⟩

theorem exists_level {xs : List α} (hs : Tagged tag xs) {x : α} (hx : x ∈ xs) {m : ℕ}
    (hm : m < level r xs x) : ∃ y ∈ xs, tag y < tag x ∧ r y x ∧ level r xs y = m := by
  induction xs using rounds.induct r generalizing m with
  | case1 => cases hx
  | case2 xs hne ih =>
    have hs' : Tagged tag (select r [] xs).2 := hs.sublist (select_sublist r [] xs).2
    rcases (mem_select r [] xs x).mp hx with h | h
    · rw [level_taken r h] at hm
      omega
    · rw [level_deferred r tag hs h] at hm
      cases m with
      | zero =>
        rcases (mem_deferred_iff r tag hs hx).mp h with ⟨y, hy, -⟩ | ⟨y, hy, hlt, hr⟩
        · cases hy
        · exact ⟨y, (select_sublist r [] xs).1.subset hy, hlt, hr, level_taken r hy⟩
      | succ m =>
        obtain ⟨y, hy, hlt, hr, hl⟩ := ih hs' h (by omega : m < _)
        exact ⟨y, (select_sublist r [] xs).2.subset hy, hlt, hr, by rw [level_deferred r tag hs hy, hl]⟩

theorem level_ne {xs : List α} (hs : Tagged tag xs) {x y : α} (hx : x ∈ xs) (hy : y ∈ xs)
    (hlt : tag y < tag x) (hr : r y x) : level r xs y ≠ level r xs x := by
  induction xs using rounds.induct r with
  | case1 => cases hx
  | case2 xs hne ih =>
    have hs' : Tagged tag (select r [] xs).2 := hs.sublist (select_sublist r [] xs).2
    rcases (mem_select r [] xs x).mp hx with hx' | hx' <;>
      rcases (mem_select r [] xs y).mp hy with hy' | hy'
    · exact absurd ((mem_deferred_iff r tag hs hx).mpr (Or.inr ⟨y, hy', hlt, hr⟩))
        (not_mem_both r tag hs hx')
    · rw [level_taken r hx', level_deferred r tag hs hy']
      omega
    · rw [level_taken r hy', level_deferred r tag hs hx']
      omega
    · rw [level_deferred r tag hs hx', level_deferred r tag hs hy']
      have h := ih hs' hx' hy'
      omega

end Levels

end Rounds

section Depth

variable (r : ℕ → ℕ → Prop) [DecidableRel r]

def depth (j : ℕ) : ℕ := Finset.univ.sup fun i : Fin j => if r i j then depth i + 1 else 0
termination_by j
decreasing_by exact i.isLt

def Gapless (n : ℕ) : Prop := ∀ j < n, ∀ d < depth r j, ∃ i < j, r i j ∧ depth r i = d

/-- `f j` is the least number that no earlier clashing item has. -/
structure Mex (n : ℕ) (f : ℕ → ℕ) : Prop where
  below : ∀ j < n, ∀ m < f j, ∃ i < j, r i j ∧ f i = m
  fresh : ∀ j < n, ∀ i < j, r i j → f i ≠ f j

theorem depth_lt {i j : ℕ} (hij : i < j) (hr : r i j) : depth r i < depth r j := by
  rw [depth.eq_1 r j]
  have h := Finset.le_sup (f := fun i : Fin j => if r i j then depth r i + 1 else 0)
    (Finset.mem_univ ⟨i, hij⟩)
  simp only [hr, if_true] at h
  omega

theorem depth_le {j d : ℕ} (h : ∀ i < j, r i j → depth r i < d) : depth r j ≤ d := by
  rw [depth.eq_1 r j]
  apply Finset.sup_le
  intro i _
  split
  next hr => exact h i i.isLt hr
  next => exact Nat.zero_le d

variable {r} {n : ℕ} {f : ℕ → ℕ}

theorem Mex.eq_depth (h : Mex r n f) (hge : ∀ j < n, (∀ i < j, f i = depth r i) → depth r j ≤ f j) :
    ∀ j < n, f j = depth r j := by
  intro j
  induction j using Nat.strong_induction_on with
  | _ j ih =>
    intro hj
    have hbefore (i : ℕ) (hij : i < j) : f i = depth r i := ih i hij (hij.trans hj)
    apply le_antisymm _ (hge j hj hbefore)
    by_contra hlt
    obtain ⟨i, hij, hrij, hfi⟩ := h.below j hj (depth r j) (by omega)
    have hd := depth_lt r hij hrij
    rw [hbefore i hij] at hfi
    omega

theorem Mex.eq_depth_of_respects (h : Mex r n f) (hr : ∀ j < n, ∀ i < j, r i j → f i < f j) :
    ∀ j < n, f j = depth r j := by
  apply h.eq_depth
  intro j hj hbefore
  apply depth_le
  intro i hij hrij
  rw [← hbefore i hij]
  exact hr j hj i hij hrij

theorem Mex.eq_depth_of_gapless (h : Mex r n f) (hg : Gapless r n) : ∀ j < n, f j = depth r j := by
  apply h.eq_depth
  intro j hj hbefore
  by_contra hlt
  obtain ⟨i, hij, hrij, hdi⟩ := hg j hj (f j) (by omega)
  rw [← hbefore i hij] at hdi
  exact h.fresh j hj i hij hrij hdi

theorem Mex.respects_iff (h : Mex r n f) :
    (∀ j < n, ∀ i < j, r i j → f i < f j) ↔ Gapless r n := by
  constructor
  · intro hr j hj d hd
    have he := h.eq_depth_of_respects hr
    obtain ⟨i, hij, hrij, hfi⟩ := h.below j hj d (by rwa [he j hj])
    exact ⟨i, hij, hrij, by rw [← he i (hij.trans hj), hfi]⟩
  · intro hg j hj i hij hrij
    have he := h.eq_depth_of_gapless hg
    rw [he i (hij.trans hj), he j hj]
    exact depth_lt r hij hrij

end Depth

end Zephyria.FirstFit
