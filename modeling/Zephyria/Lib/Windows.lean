import Mathlib.Data.List.NodupEquivFin

namespace Zephyria

section Windows

variable {α : Type} (time : α → ℕ)

def inWindow (w t : ℕ) (l : List α) : List α := l.filter fun a => t ≤ time a ∧ time a ≤ t + w

variable {time} {l : List α} {w n : ℕ}

theorem le_of_getElem? (hs : l.Pairwise fun a b => time a ≤ time b) {i j : ℕ} (hij : i ≤ j) {a b : α}
    (ha : l[i]? = some a) (hb : l[j]? = some b) : time a ≤ time b := by
  obtain ⟨hi, rfl⟩ := List.getElem?_eq_some_iff.mp ha
  obtain ⟨hj, rfl⟩ := List.getElem?_eq_some_iff.mp hb
  obtain rfl | hlt := Nat.eq_or_lt_of_le hij
  · exact le_rfl
  · exact List.pairwise_iff_getElem.mp hs i j hi hj hlt

theorem le_length_inWindow (hs : l.Pairwise fun a b => time a ≤ time b) {i : ℕ} {a b : α} (ha : l[i]? = some a)
    (hb : l[i + n]? = some b) (hclose : time b ≤ time a + w) : n + 1 ≤ (inWindow time w (time a) l).length := by
  obtain ⟨hlt, -⟩ := List.getElem?_eq_some_iff.mp hb
  have hall : ∀ c ∈ (l.drop i).take (n + 1), decide (time a ≤ time c ∧ time c ≤ time a + w) = true := by
    intro c hc
    obtain ⟨k, hk⟩ := List.mem_iff_getElem?.mp hc
    rw [List.getElem?_take] at hk
    split at hk
    next hkn =>
      rw [List.getElem?_drop] at hk
      have hlow := le_of_getElem? hs (Nat.le_add_right i k) ha hk
      have hhigh := le_of_getElem? hs (Nat.add_le_add_left (Nat.le_of_lt_succ hkn) i) hk hb
      rw [decide_eq_true_iff]
      omega
    next => cases hk
  have hsub : ((l.drop i).take (n + 1)).Sublist l := (List.take_sublist _ _).trans (List.drop_sublist _ _)
  have hle := (hsub.filter fun c => decide (time a ≤ time c ∧ time c ≤ time a + w)).length_le
  rw [List.filter_eq_self.mpr hall, List.length_take, List.length_drop] at hle
  change n + 1 ≤ (l.filter _).length
  omega

theorem exists_close_of_lt (hs : l.Pairwise fun a b => time a ≤ time b) {t : ℕ}
    (h : n < (inWindow time w t l).length) :
    ∃ i a b, l[i]? = some a ∧ l[i + n]? = some b ∧ time b ≤ time a + w := by
  have hsub : (inWindow time w t l).Sublist l := List.filter_sublist
  obtain ⟨f, hf⟩ := List.sublist_iff_exists_orderEmbedding_getElem?_eq.mp hsub
  have hfirst := List.getElem?_eq_getElem (show 0 < (inWindow time w t l).length by omega)
  have hlast := List.getElem?_eq_getElem h
  have hbounds (c : α) (hc : c ∈ inWindow time w t l) : t ≤ time c ∧ time c ≤ t + w := by
    simpa using (List.mem_filter.mp hc).2
  have hlow := (hbounds _ (List.getElem_mem (show 0 < (inWindow time w t l).length by omega))).1
  have hhigh := (hbounds _ (List.getElem_mem h)).2
  rw [hf] at hfirst hlast
  have hgap : f 0 + n ≤ f n := by
    have hmono := f.strictMono.add_le_nat n 0
    rw [Nat.add_zero] at hmono
    omega
  obtain ⟨hlt, -⟩ := List.getElem?_eq_some_iff.mp hlast
  have hmid := List.getElem?_eq_getElem (show f 0 + n < l.length by omega)
  have hle := le_of_getElem? hs hgap hmid hlast
  exact ⟨f 0, _, _, hfirst, hmid, by omega⟩

theorem windows_le_iff (hs : l.Pairwise fun a b => time a ≤ time b) :
    (∀ t, (inWindow time w t l).length ≤ n) ↔
      ∀ i a b, l[i]? = some a → l[i + n]? = some b → time a + w < time b := by
  constructor
  · intro h i a b ha hb
    by_contra hclose
    have hle := le_length_inWindow hs ha hb (Nat.le_of_not_lt hclose)
    have hbound := h (time a)
    omega
  · intro h t
    by_contra hlt
    obtain ⟨i, a, b, ha, hb, hclose⟩ := exists_close_of_lt hs (Nat.lt_of_not_le hlt)
    have hfar := h i a b ha hb
    omega

end Windows

end Zephyria
