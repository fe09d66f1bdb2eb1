import Zephyria.VerkleInserts

/-!
`Commit` goes over the marked nodes only, level by level, and leaves at every node the commitment that
follows from the stems and the values below it.
-/

namespace Zephyria.Verkle

namespace VerkleNode

variable {F P : Type} [CommRing F] [AddCommGroup P] [Module F P] {cfg : Config F P} {n : VerkleNode P} {stem : Stem}

def CleanFrom : ℕ → VerkleNode P → Prop
  | 0, n => n.Clean
  | k + 1, .internal _ _ children => ∀ i, CleanFrom k (children i)
  | _ + 1, _ => True

omit [AddCommGroup P] in
theorem CleanFrom.of_clean (h : n.Clean) (k : ℕ) : n.CleanFrom k := by
  induction n generalizing k with
  | empty => cases k <;> trivial
  | leaf n => cases k <;> trivial
  | internal commitment cow children ih =>
    cases k with
    | zero => exact h
    | succ k => exact fun i => ih i (h.2 i) k

theorem Sound.clean_of_not_hasCow (h : Sound cfg n stem) (hcow : ¬n.hasCow) : n.Clean := by
  cases n with
  | empty => trivial
  | leaf n => trivial
  | internal commitment cow children =>
    have hnone (i : UInt8) : cow i = none := by
      by_contra hsome
      exact hcow ⟨i, Option.isSome_iff_ne_none.mpr hsome⟩
    exact ⟨hnone, fun i => h.2.2.1 i (hnone i)⟩

theorem Sound.cleanFrom (h : Sound cfg n stem) {k : ℕ} (hk : stem.length + k = 31) : n.CleanFrom k := by
  induction n generalizing stem k with
  | empty => cases k <;> trivial
  | leaf n => cases k <;> trivial
  | internal commitment cow children ih =>
    obtain ⟨hlt, -, -, hchildren⟩ := h
    obtain _ | k := k
    · omega
    intro i
    refine ih i (hchildren i) ?_
    rw [List.length_append, List.length_singleton]
    omega

theorem commit_marked (cow : UInt8 → Option P) (children : UInt8 → VerkleNode P) :
    cfg.commit (fun i => cfg.digest ((cow i).getD (children i).commitment)) +
      cfg.commit (fun i => (cow i).elim 0 fun old => cfg.digest (children i).commitment - cfg.digest old) =
        cfg.commit fun i => cfg.digest (children i).commitment := by
  rw [← VectorCommitment.commit_add]
  congr 1
  funext i
  cases hcow : cow i with
  | none => simp [hcow]
  | some old => simp [hcow]

theorem sound_commitNode (h : Sound cfg n stem) (hclean : n.CleanFrom 1) :
    Sound cfg (n.commitNode cfg) stem ∧ (n.commitNode cfg).Clean := by
  cases n with
  | empty => exact ⟨h, trivial⟩
  | leaf n => exact ⟨h, trivial⟩
  | internal commitment cow children =>
    obtain ⟨hlt, rfl, -, hchildren⟩ := h
    have hall : ∀ i, (children i).Clean := hclean
    refine ⟨⟨hlt, ?_, fun i _ => hall i, hchildren⟩, fun _ => rfl, hall⟩
    exact commit_marked cow children

theorem sound_commitNodesAtLevel {level : ℕ} (h : Sound cfg n stem) (hclean : n.CleanFrom (level + 1)) :
    Sound cfg (n.commitNodesAtLevel cfg level) stem ∧ (n.commitNodesAtLevel cfg level).CleanFrom level := by
  induction level generalizing n stem with
  | zero => exact sound_commitNode h hclean
  | succ level ih =>
    cases n with
    | empty => exact ⟨h, trivial⟩
    | leaf n => exact ⟨h, trivial⟩
    | internal commitment cow children =>
    obtain ⟨hlt, hcommitment, hmarks, hchildren⟩ := h
    -- The commitment is to what was there before the marks; so the new children do not matter to it.
    have hsame : (fun i => cfg.digest ((cow i).getD (if (cow i).isSome ∧ (children i).hasCow
        then (children i).commitNodesAtLevel cfg level else children i).commitment)) =
        fun i => cfg.digest ((cow i).getD (children i).commitment) := by
      funext i
      cases hcow : cow i with
      | none => simp
      | some old => rfl
    constructor
    · refine ⟨hlt, ?_, ?_, ?_⟩
      · rw [hsame]
        exact hcommitment
      · intro i hnone
        dsimp only
        rw [hnone, if_neg (fun h => Bool.false_ne_true h.1)]
        exact hmarks i hnone
      · intro i
        dsimp only
        split
        next => exact (ih (hchildren i) (hclean i)).1
        next => exact hchildren i
    · intro i
      dsimp only
      split
      next => exact (ih (hchildren i) (hclean i)).2
      next hskip =>
        refine CleanFrom.of_clean ?_ level
        by_cases hcow : cow i = none
        · exact hmarks i hcow
        · refine (hchildren i).clean_of_not_hasCow fun hmarked => ?_
          exact hskip ⟨Option.isSome_iff_ne_none.mpr hcow, hmarked⟩

theorem shape_commitNode (cfg : Config F P) (n : VerkleNode P) (depth : ℕ) :
    (n.commitNode cfg).shape depth = n.shape depth := by
  cases n <;> rfl

theorem shape_commitNodesAtLevel (cfg : Config F P) (level : ℕ) (n : VerkleNode P) (depth : ℕ) :
    (n.commitNodesAtLevel cfg level).shape depth = n.shape depth := by
  induction level generalizing n depth with
  | zero => exact shape_commitNode cfg n depth
  | succ level ih =>
    cases n with
    | empty => rfl
    | leaf n => rfl
    | internal commitment cow children =>
      rw [commitNodesAtLevel, shape, shape]
      congr 1
      funext i
      split
      next => exact ih (children i) (depth + 1)
      next => rfl

theorem sound_commitLevels {k : ℕ} (h : Sound cfg n stem) (hclean : n.CleanFrom k) :
    Sound cfg ((List.range k).reverse.foldl (fun n level => n.commitNodesAtLevel cfg level) n) stem ∧
      ((List.range k).reverse.foldl (fun n level => n.commitNodesAtLevel cfg level) n).Clean := by
  induction k generalizing n with
  | zero => exact ⟨h, hclean⟩
  | succ k ih =>
    obtain ⟨hsound, hfrom⟩ := sound_commitNodesAtLevel h hclean
    rw [List.range_succ, List.reverse_append, List.reverse_singleton, List.singleton_append, List.foldl_cons]
    exact ih hsound hfrom

theorem shape_commit (cfg : Config F P) (n : VerkleNode P) (depth : ℕ) : (n.commit cfg).shape depth = n.shape depth := by
  have hlevels (levels : List ℕ) (n : VerkleNode P) :
      (levels.foldl (fun n level => n.commitNodesAtLevel cfg level) n).shape depth = n.shape depth := by
    induction levels generalizing n with
    | nil => rfl
    | cons level levels ih => rw [List.foldl_cons, ih, shape_commitNodesAtLevel]
  rw [commit]
  split
  · exact hlevels _ n
  · rfl

theorem sound_commit (h : Sound cfg n []) : Sound cfg (n.commit cfg) [] ∧ (n.commit cfg).Clean := by
  rw [commit]
  split
  next => exact sound_commitLevels h (h.cleanFrom rfl)
  next hcow => exact ⟨h, h.clean_of_not_hasCow hcow⟩

omit [AddCommGroup P] in
theorem isInternal_of_shape {t : UInt8 → Trie UInt8 Values} {depth : ℕ} (h : n.shape depth = .node t) :
    n.IsInternal := by
  cases n with
  | empty => cases h
  | leaf n => cases h
  | internal commitment cow children => trivial

theorem Valid.commit (h : Valid cfg n) : Valid cfg (n.commit cfg) := by
  have hshape := shape_commit cfg n 0
  refine ⟨(sound_commit h.sound).1, ?_, hshape ▸ h.compact⟩
  cases n with
  | empty => exact h.internal.elim
  | leaf n => exact h.internal.elim
  | internal commitment cow children => exact isInternal_of_shape hshape

theorem commitment_eq (h : Sound cfg n stem) (hclean : n.Clean) :
    n.commitment = cfg.commit (cfg.vector (leafVector cfg) stem (n.shape stem.length)) := by
  induction n generalizing stem with
  | empty => exact (cfg.commit_zero).symm
  | leaf n =>
    obtain ⟨word, values, rfl, -, -⟩ := h
    rw [shape_ofValues]
    rfl
  | internal commitment cow children ih =>
    obtain ⟨-, hcommitment, -, hchildren⟩ := h
    obtain ⟨hnone, hclean⟩ := hclean
    have hdepth (i : UInt8) : (stem ++ [i]).length = stem.length + 1 := by simp
    refine hcommitment.trans (congrArg cfg.commit (funext fun i => ?_))
    rw [hnone, Option.getD_none, ih i (hchildren i) (hclean i), hdepth]
    rfl

def rootOf (cfg : Config F P) (t : Trie UInt8 Values) : Hash := cfg.bytesLE (cfg.hash (cfg.vector (leafVector cfg) [] t))

theorem Valid.intermediateRoot_eq (h : Valid cfg n) : n.intermediateRoot cfg = rootOf cfg (n.shape 0) := by
  obtain ⟨hsound, hclean⟩ := sound_commit h.sound
  rw [intermediateRoot, hash, commitment_eq hsound hclean, List.length_nil, shape_commit]
  rfl

end VerkleNode

end Zephyria.Verkle
