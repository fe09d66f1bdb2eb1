import Mathlib

namespace Zephyria

section Runs

variable {σ α : Type} {step : σ → α → σ} {I P : σ → Prop} {C : σ → α → Prop}

theorem foldl_invariant {xs : List α} (hstep : ∀ s, ∀ x ∈ xs, I s → I (step s x)) {s : σ} (hs : I s) :
    I (xs.foldl step s) := by
  induction xs generalizing s with
  | nil => exact hs
  | cons x xs ih =>
    apply ih
    · exact fun s y hy => hstep s y (List.mem_cons_of_mem x hy)
    · exact hstep s x List.mem_cons_self hs

/-- Where `C` says of each step exactly whether it keeps `P`, it says of each run exactly whether `P`
holds all along. -/
theorem forall_prefix_iff {xs : List α} (hI : ∀ s, ∀ x ∈ xs, I s → I (step s x))
    (hstep : ∀ s, ∀ x ∈ xs, I s → P s → (P (step s x) ↔ C s x)) {s : σ} (hs : I s) (hP : P s) :
    (∀ pre, pre <+: xs → P (pre.foldl step s)) ↔ ∀ pre x, pre ++ [x] <+: xs → C (pre.foldl step s) x := by
  have hinv {pre : List α} (hpre : pre <+: xs) : I (pre.foldl step s) :=
    foldl_invariant (fun s x hx => hI s x (hpre.subset hx)) hs
  have hlast {pre : List α} {x : α} (hpre : pre ++ [x] <+: xs) : pre <+: xs ∧ x ∈ xs :=
    ⟨(List.prefix_append pre [x]).trans hpre, hpre.subset (by simp)⟩
  constructor
  · intro hall pre x hpre
    obtain ⟨hshort, hx⟩ := hlast hpre
    apply (hstep _ x hx (hinv hshort) (hall pre hshort)).mp
    have hnext := hall (pre ++ [x]) hpre
    rwa [List.foldl_append] at hnext
  · intro hall pre hpre
    induction pre using List.reverseRecOn with
    | nil => exact hP
    | append_singleton pre x ih =>
      obtain ⟨hshort, hx⟩ := hlast hpre
      rw [List.foldl_append]
      exact (hstep _ x hx (hinv hshort) (ih hshort)).mpr (hall pre x hpre)

section Partial

variable {move : σ → α → Option σ}

theorem foldlM_concat (s : σ) (xs : List α) (x : α) :
    (xs ++ [x]).foldlM move s = (xs.foldlM move s).bind fun s' => move s' x := by
  simp [List.foldlM_append]

theorem foldlM_invariant {xs : List α} (hI : ∀ s s', ∀ x ∈ xs, I s → move s x = some s' → I s') {s s' : σ} (hs : I s)
    (h : xs.foldlM move s = some s') : I s' := by
  induction xs using List.reverseRecOn generalizing s' with
  | nil =>
    obtain rfl := Option.some.inj h
    exact hs
  | append_singleton xs x ih =>
    rw [foldlM_concat] at h
    obtain ⟨s₁, hs₁, hmove⟩ := Option.bind_eq_some_iff.mp h
    apply hI s₁ s' x (by simp) _ hmove
    exact ih (fun s s' y hy => hI s s' y (List.mem_append_left _ hy)) hs₁

theorem forall_prefix_foldlM_iff (hI : ∀ s s' x, I s → move s x = some s' → I s')
    (hstep : ∀ s x s', I s → P s → move s x = some s' → (P s' ↔ C s x)) {s : σ} (hs : I s) (hP : P s)
    (xs : List α) :
    (∀ pre, pre <+: xs → ∀ s', pre.foldlM move s = some s' → P s') ↔
      ∀ pre x, pre ++ [x] <+: xs → ∀ s', pre.foldlM move s = some s' → move s' x ≠ none → C s' x := by
  constructor
  · intro hall pre x hpre s₁ hs₁ hreturn
    obtain ⟨s₂, hs₂⟩ := Option.ne_none_iff_exists'.mp hreturn
    have hP₁ := hall pre ((List.prefix_append pre [x]).trans hpre) s₁ hs₁
    apply (hstep s₁ x s₂ (foldlM_invariant (fun s s' x _ => hI s s' x) hs hs₁) hP₁ hs₂).mp
    apply hall (pre ++ [x]) hpre
    rw [foldlM_concat, hs₁]
    exact hs₂
  · intro hall pre hpre
    induction pre using List.reverseRecOn with
    | nil =>
      intro s' hs'
      obtain rfl := Option.some.inj hs'
      exact hP
    | append_singleton pre x ih =>
      intro s₂ hs₂
      rw [foldlM_concat] at hs₂
      obtain ⟨s₁, hs₁, hmove⟩ := Option.bind_eq_some_iff.mp hs₂
      have hP₁ := ih ((List.prefix_append pre [x]).trans hpre) s₁ hs₁
      apply (hstep s₁ x s₂ (foldlM_invariant (fun s s' x _ => hI s s' x) hs hs₁) hP₁ hmove).mpr
      exact hall pre x hpre s₁ hs₁ (by rw [hmove]; simp)

end Partial

theorem guarded_invariant {E : Type} {move : σ → E → σ → Prop} {G : σ → E → Prop}
    (hmove : ∀ {s event s'}, I s → G s event → move s event s' → I s') {s s' : σ} (hs : I s)
    (h : Relation.ReflTransGen (fun s s' => ∃ event, G s event ∧ move s event s') s s') : I s' := by
  induction h with
  | refl => exact hs
  | tail _ hstep ih =>
    obtain ⟨event, hguard, hstep⟩ := hstep
    exact hmove ih hguard hstep

def lastSet {ρ : Type} (sets : α → Option ρ) (xs : List α) : Option ρ := xs.reverse.findSome? sets

theorem lastSet_append_singleton {ρ : Type} (sets : α → Option ρ) (xs : List α) (x : α) :
    lastSet sets (xs ++ [x]) = (sets x).or (lastSet sets xs) := by
  rw [lastSet, List.reverse_append, List.reverse_singleton, List.singleton_append, List.findSome?_cons]
  cases sets x <;> rfl

theorem lastSet_map {ρ ρ' : Type} (f : ρ → ρ') (sets : α → Option ρ) (xs : List α) :
    lastSet (fun x => (sets x).map f) xs = (lastSet sets xs).map f :=
  List.map_findSome?.symm

theorem observe_foldl {ρ : Type} {sets : α → Option ρ} (observe : σ → ρ)
    (hstep : ∀ s x, observe (step s x) = (sets x).getD (observe s)) (s : σ) (xs : List α) :
    observe (xs.foldl step s) = (lastSet sets xs).getD (observe s) := by
  induction xs using List.reverseRecOn with
  | nil => rfl
  | append_singleton xs x ih =>
    rw [List.foldl_append, lastSet_append_singleton]
    change observe (step (xs.foldl step s) x) = _
    rw [hstep, ih]
    cases sets x <;> rfl

theorem observe_foldl_or {ρ : Type} {sets : α → Option ρ} (observe : σ → Option ρ)
    (hstep : ∀ s x, observe (step s x) = (sets x).or (observe s)) (s : σ) (xs : List α) :
    observe (xs.foldl step s) = (lastSet sets xs).or (observe s) := by
  induction xs using List.reverseRecOn with
  | nil => rfl
  | append_singleton xs x ih =>
    rw [List.foldl_append, lastSet_append_singleton]
    change observe (step (xs.foldl step s) x) = _
    rw [hstep, ih, Option.or_assoc]

theorem lastSet_or {ρ : Type} (f g : α → Option ρ) (xs : List α) :
    lastSet (fun x => (f x).or (g x)) xs = lastSet f xs ∨ lastSet (fun x => (f x).or (g x)) xs = lastSet g xs := by
  induction xs using List.reverseRecOn with
  | nil => exact Or.inl rfl
  | append_singleton xs x ih =>
    simp only [lastSet_append_singleton]
    cases hf : f x with
    | some v => exact Or.inl rfl
    | none =>
      cases hg : g x with
      | some v => exact Or.inr rfl
      | none => exact ih

end Runs

end Zephyria
