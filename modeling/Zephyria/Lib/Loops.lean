import Mathlib.Data.List.Basic
import Mathlib.Logic.Function.Iterate
import Mathlib.Tactic.Ring

namespace Zephyria

section Loop

variable {ι β : Type*} (cond : ι → Bool) (next : ι → ι) (body : β → ι → β)

/-- `for i := start; cond i; i = next i`, for as long as the fuel lasts. -/
def forLoop : ℕ → ι → β → Option β
  | 0, _, _ => none
  | fuel + 1, i, acc => if cond i then forLoop fuel (next i) (body acc i) else some acc

variable {cond next body}

theorem forLoop_le {fuel fuel' : ℕ} (hle : fuel ≤ fuel') {i : ι} {acc res : β}
    (h : forLoop cond next body fuel i acc = some res) : forLoop cond next body fuel' i acc = some res := by
  induction fuel generalizing fuel' i acc with
  | zero => cases h
  | succ fuel ih =>
    obtain ⟨fuel', rfl⟩ := Nat.exists_eq_add_of_lt hle
    rw [forLoop] at h ⊢
    by_cases hcond : cond i
    · rw [if_pos hcond] at h ⊢
      exact ih (Nat.le_add_right _ _) h
    · rw [if_neg hcond] at h ⊢
      exact h

theorem forLoop_unique {fuel fuel' : ℕ} {i : ι} {acc res res' : β}
    (h : forLoop cond next body fuel i acc = some res)
    (h' : forLoop cond next body fuel' i acc = some res') : res = res' := by
  have hmax := forLoop_le (Nat.le_max_left fuel fuel') h
  rw [forLoop_le (Nat.le_max_right fuel fuel') h'] at hmax
  exact (Option.some.inj hmax).symm

theorem forLoop_eq_foldl {n : ℕ} {i : ι} (hcond : ∀ k < n, cond (next^[k] i)) (hstop : ¬cond (next^[n] i))
    (acc : β) : forLoop cond next body (n + 1) i acc =
      some (((List.range n).map fun k => next^[k] i).foldl body acc) := by
  induction n generalizing i acc with
  | zero => simpa [forLoop] using hstop
  | succ n ih =>
    have hfirst : cond i := hcond 0 (by omega)
    rw [forLoop, if_pos hfirst, ih (fun k hk => hcond (k + 1) (by omega)) hstop]
    simp [List.range_succ_eq_map, Function.comp_def]

theorem forLoop_endless {i : ι} (h : ∀ k, cond (next^[k] i)) (fuel : ℕ) (acc : β) :
    forLoop cond next body fuel i acc = none := by
  induction fuel generalizing i acc with
  | zero => rfl
  | succ fuel ih =>
    have hfirst : cond i := h 0
    rw [forLoop, if_pos hfirst]
    exact ih (fun k => h (k + 1)) _

end Loop

section Counter

variable {β : Type*} {body : β → Int64 → β} {i stop : Int64}

theorem toInt_iterate {k : ℕ} (h : i.toInt + k < 2 ^ 63) : ((· + 1)^[k] i).toInt = i.toInt + k := by
  induction k with
  | zero => simp
  | succ k ih =>
    have hle := i.le_toInt
    push_cast at h
    rw [Function.iterate_succ_apply', Int64.toInt_add, ih (by omega), Int64.toInt_one,
      Int.bmod_eq_of_le (by omega) (by omega)]
    push_cast
    ring

theorem forLoop_counter (hle : i ≤ stop) (hstop : stop.toInt < 2 ^ 63 - 1) (acc : β) :
    forLoop (· ≤ stop) (· + 1) body ((stop.toInt - i.toInt).toNat + 2) i acc =
      some (((List.range ((stop.toInt - i.toInt).toNat + 1)).map fun k => (· + 1)^[k] i).foldl body acc) := by
  rw [Int64.le_iff_toInt_le] at hle
  apply forLoop_eq_foldl
  · intro k hk
    rw [decide_eq_true_iff, Int64.le_iff_toInt_le, toInt_iterate (by omega)]
    omega
  · rw [decide_eq_true_iff, Int64.le_iff_toInt_le, toInt_iterate (by omega)]
    omega

theorem forLoop_counter_endless (hstop : stop.toInt = 2 ^ 63 - 1) (fuel : ℕ) (acc : β) :
    forLoop (· ≤ stop) (· + 1) body fuel i acc = none := by
  apply forLoop_endless
  intro k
  have hlt := ((· + 1)^[k] i).toInt_lt
  rw [decide_eq_true_iff, Int64.le_iff_toInt_le]
  omega

end Counter

section Passes

variable {σ : Type*} {body : σ → ℕ → Option σ} {s : σ} {n : ℕ}

theorem exists_foldlM_range (I : ℕ → σ → Prop) (hinit : I 0 s)
    (hpass : ∀ k < n, ∀ s, I k s → ∃ s', body s k = some s' ∧ I (k + 1) s') :
    ∃ s', (List.range n).foldlM body s = some s' ∧ I n s' := by
  induction n with
  | zero => exact ⟨s, rfl, hinit⟩
  | succ n ih =>
    obtain ⟨s', hs', hI⟩ := ih fun k hk => hpass k (hk.trans (Nat.lt_succ_self n))
    obtain ⟨s'', hs'', hI'⟩ := hpass n (Nat.lt_succ_self n) s' hI
    refine ⟨s'', ?_, hI'⟩
    rw [List.range_succ, List.foldlM_append, hs']
    simpa using hs''

end Passes

section Enumerates

variable {α β : Type*} {r : α → α → Prop} {p : α → Prop} {l : List α}

structure Enumerates (r : α → α → Prop) (p : α → Prop) (l : List α) : Prop where
  ordered : l.Pairwise r
  mem_iff : ∀ a, a ∈ l ↔ p a

theorem Enumerates.congr {q : α → Prop} (h : Enumerates r p l) (hpq : ∀ a, p a ↔ q a) : Enumerates r q l :=
  ⟨h.ordered, fun a => (h.mem_iff a).trans (hpq a)⟩

theorem enumerates_range' (n k : ℕ) : Enumerates (· < ·) (fun m => n ≤ m ∧ m < n + k) (List.range' n k) := by
  constructor
  · exact List.pairwise_lt_range'
  · intro m
    exact List.mem_range'_1

theorem enumerates_zipIdx (l : List α) :
    Enumerates (fun a b => a.2 < b.2) (fun a => l[a.2]? = some a.1) l.zipIdx := by
  constructor
  · rw [List.pairwise_iff_getElem]
    intro i j hi hj hij
    simpa using hij
  · intro a
    exact List.mem_zipIdx_iff_getElem?

theorem Enumerates.filter (h : Enumerates r p l) (q : α → Bool) :
    Enumerates r (fun a => p a ∧ q a) (l.filter q) := by
  constructor
  · exact h.ordered.filter q
  · intro a
    rw [List.mem_filter, h.mem_iff]

theorem Enumerates.map {s : β → β → Prop} {f : α → β} (h : Enumerates r p l) (hf : ∀ a b, r a b → s (f a) (f b)) :
    Enumerates s (fun b => ∃ a, p a ∧ f a = b) (l.map f) := by
  constructor
  · exact List.pairwise_map.mpr (h.ordered.imp (hf _ _))
  · intro b
    simp only [List.mem_map, h.mem_iff]

theorem Enumerates.flatMap {s : β → β → Prop} {q : α → β → Prop} {f : α → List β} (h : Enumerates r p l)
    (hf : ∀ a, p a → Enumerates s (q a) (f a)) (hs : ∀ a b x y, r a b → q a x → q b y → s x y) :
    Enumerates s (fun b => ∃ a, p a ∧ q a b) (l.flatMap f) := by
  constructor
  · rw [List.pairwise_flatMap]
    refine ⟨fun a ha => (hf a ((h.mem_iff a).mp ha)).ordered, ?_⟩
    refine h.ordered.imp_of_mem ?_
    intro a b ha hb hab x hx y hy
    exact hs a b x y hab (((hf a ((h.mem_iff a).mp ha)).mem_iff x).mp hx)
      (((hf b ((h.mem_iff b).mp hb)).mem_iff y).mp hy)
  · intro b
    rw [List.mem_flatMap]
    constructor
    · rintro ⟨a, ha, hb⟩
      exact ⟨a, (h.mem_iff a).mp ha, ((hf a ((h.mem_iff a).mp ha)).mem_iff b).mp hb⟩
    · rintro ⟨a, ha, hb⟩
      exact ⟨a, (h.mem_iff a).mpr ha, ((hf a ha).mem_iff b).mpr hb⟩

end Enumerates

end Zephyria
