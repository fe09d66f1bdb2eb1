import Mathlib

namespace Zephyria

section Replay

variable {σ κ ν ρ : Type} [DecidableEq κ]

theorem look_replay (look : σ → κ → ρ) (put : σ → κ → ν → σ) (f : ν → ρ)
    (hput : ∀ s k v k', look (put s k v) k' = if k' = k then f v else look s k')
    {entries : List (Σ _ : κ, ν)} (hn : entries.NodupKeys) (s : σ) (k : κ) :
    look (entries.foldl (fun s e => put s e.1 e.2) s) k = ((entries.dlookup k).map f).getD (look s k) := by
  induction entries generalizing s with
  | nil => rfl
  | cons e entries ih =>
    obtain ⟨key, value⟩ := e
    obtain ⟨hmem, hn⟩ := List.nodupKeys_cons.mp hn
    rw [List.foldl_cons, ih hn, hput]
    by_cases h : k = key
    · subst h
      rw [List.dlookup_eq_none.mpr hmem, List.dlookup_cons_eq, if_pos rfl]
      rfl
    · rw [List.dlookup_cons_ne _ _ h, if_neg h]

theorem lookup_insert_ite (t : AList fun _ : κ => ν) (k : κ) (v : ν) (k' : κ) :
    (t.insert k v).lookup k' = if k' = k then some v else t.lookup k' := by
  by_cases h : k' = k
  · subst h
    simp
  · rw [if_neg h, AList.lookup_insert_ne h]

theorem dlookup_singleton_ite (k : κ) (v : ν) (k' : κ) :
    [(⟨k, v⟩ : Σ _ : κ, ν)].dlookup k' = if k' = k then some v else none := by
  by_cases h : k' = k
  · subst h
    rw [List.dlookup_cons_eq, if_pos rfl]
  · rw [List.dlookup_cons_ne _ _ h, if_neg h, List.dlookup_nil]

theorem dlookup_singleton {k : κ} {v : ν} {k' : κ} {v' : ν}
    (h : [(⟨k, v⟩ : Σ _ : κ, ν)].dlookup k' = some v') : k' = k ∧ v' = v := by
  rw [dlookup_singleton_ite] at h
  split at h
  next hk => exact ⟨hk, (Option.some.inj h).symm⟩
  next => cases h

theorem lookup_replay (t : AList fun _ : κ => ν) {entries : List (Σ _ : κ, ν)} (hn : entries.NodupKeys)
    (k : κ) : (entries.foldl (fun t e => t.insert e.1 e.2) t).lookup k =
      (entries.dlookup k).or (t.lookup k) := by
  have h := look_replay (fun t k => AList.lookup k t) (fun t k v => t.insert k v) some lookup_insert_ite hn t k
  rw [h]
  cases entries.dlookup k <;> rfl

end Replay

end Zephyria
