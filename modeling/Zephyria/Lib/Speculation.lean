import Zephyria.Lib.StoreProgram

/-!
Threads run programs on private overlays of one shared store and then publish their overlay in one
atomic step. Reads that miss the overlay see the shared store as it is at that moment, so they
interleave freely with the publications of other threads.
-/

namespace Zephyria

open Relation

inductive Thread (ω κ ν α : Type) where
  | running (o : ω) (p : Prog κ ν α)
  | done

/-- What a store must offer to threads that speculate on it. An outcome decides in `finish` whether
its overlay is published. -/
structure Shared (β ω κ ν α : Type) [DecidableEq κ] extends Buffer ω κ ν where
  read : β → κ → ν
  finish : β → ω → α → β
  commits : α → Prop
  read_commit : ∀ b o a k, commits a → read (finish b o a) k = (find o k).getD (read b k)
  read_discard : ∀ b o a k, ¬commits a → read (finish b o a) k = read b k

structure Config (β ω κ ν α ι : Type) where
  shared : β
  thread : ι → Thread ω κ ν α

namespace Shared

variable {β ω κ ν α ι : Type} [DecidableEq κ] [DecidableEq ι] (S : Shared β ω κ ν α)

def start (b : β) (P : ι → Prog κ ν α) : Config β ω κ ν α ι := ⟨b, fun i => .running S.fresh (P i)⟩

inductive Step : Config β ω κ ν α ι → Config β ω κ ν α ι → Prop
  | get {c : Config β ω κ ν α ι} {o : ω} {k : κ} {next : ν → Prog κ ν α} (i : ι)
      (h : c.thread i = .running o (.get k next)) :
      Step c ⟨c.shared, Function.update c.thread i (.running o (next (S.view (S.read c.shared) o k)))⟩
  | set {c : Config β ω κ ν α ι} {o : ω} {k : κ} {v : ν} {next : Prog κ ν α} (i : ι)
      (h : c.thread i = .running o (.set k v next)) :
      Step c ⟨c.shared, Function.update c.thread i (.running (S.write o k v) next)⟩
  | finish {c : Config β ω κ ν α ι} {o : ω} {a : α} (i : ι) (h : c.thread i = .running o (.ret a)) :
      Step c ⟨S.finish c.shared o a, Function.update c.thread i .done⟩

def Outcome (b : β) (P : ι → Prog κ ν α) (b' : β) : Prop :=
  ∃ c, ReflTransGen S.Step (S.start b P) c ∧ (∀ i, c.thread i = .done) ∧ c.shared = b'

def atomic (b : β) (p : Prog κ ν α) : β :=
  S.finish b (S.run (S.read b) p S.fresh).2 (S.run (S.read b) p S.fresh).1

def sequential (b : β) (ps : List (Prog κ ν α)) : β := ps.foldl S.atomic b

theorem execute (c : Config β ω κ ν α ι) (i : ι) {p : Prog κ ν α} {o : ω}
    (h : c.thread i = .running o p) :
    ReflTransGen S.Step c ⟨c.shared, Function.update c.thread i
      (.running (S.run (S.read c.shared) p o).2 (.ret (S.run (S.read c.shared) p o).1))⟩ := by
  induction p generalizing c o with
  | ret a =>
    have hc : (⟨c.shared, Function.update c.thread i (.running o (.ret a))⟩ :
        Config β ω κ ν α ι) = c := by
      rw [← h, Function.update_eq_self]
    change ReflTransGen S.Step c ⟨c.shared, Function.update c.thread i (.running o (.ret a))⟩
    rw [hc]
  | get k next ih =>
    have hstep := Step.get (S := S) i h
    have hrest := ih (S.view (S.read c.shared) o k) ⟨c.shared, Function.update c.thread i
      (.running o (next (S.view (S.read c.shared) o k)))⟩ (Function.update_self i _ _)
    simp only [Function.update_idem] at hrest
    exact .head hstep hrest
  | set k v next ih =>
    have hstep := Step.set (S := S) i h
    have hrest := ih ⟨c.shared, Function.update c.thread i (.running (S.write o k v) next)⟩
      (Function.update_self i _ _)
    simp only [Function.update_idem] at hrest
    exact .head hstep hrest

theorem execute_atomic (c : Config β ω κ ν α ι) (i : ι) {p : Prog κ ν α}
    (h : c.thread i = .running S.fresh p) :
    ReflTransGen S.Step c ⟨S.atomic c.shared p, Function.update c.thread i .done⟩ := by
  have hrun := S.execute c i h
  have hfin := Step.finish (S := S) i (c := ⟨c.shared, Function.update c.thread i
    (.running (S.run (S.read c.shared) p S.fresh).2 (.ret (S.run (S.read c.shared) p S.fresh).1))⟩)
    (Function.update_self i _ _)
  simp only [Function.update_idem] at hfin
  exact hrun.tail hfin

omit [DecidableEq κ] in
theorem done_cons (thread : ι → Thread ω κ ν α) (i : ι) (order : List ι) :
    (fun j => if j ∈ order then Thread.done else Function.update thread i .done j) =
      fun j => if j ∈ i :: order then .done else thread j := by
  funext j
  by_cases hji : j = i
  · simp [hji]
  · simp [hji, Function.update_of_ne]

theorem execute_sequential (order : List ι) (hn : order.Nodup) (P : ι → Prog κ ν α)
    (c : Config β ω κ ν α ι) (h : ∀ i ∈ order, c.thread i = .running S.fresh (P i)) :
    ReflTransGen S.Step c ⟨S.sequential c.shared (order.map P),
      fun j => if j ∈ order then .done else c.thread j⟩ := by
  induction order generalizing c with
  | nil => simpa [sequential] using ReflTransGen.refl
  | cons i order ih =>
    obtain ⟨hi, hn⟩ := List.nodup_cons.mp hn
    have hfirst := S.execute_atomic c i (h i List.mem_cons_self)
    have hrest := ih hn ⟨S.atomic c.shared (P i), Function.update c.thread i .done⟩ (by
      intro j hj
      have hji : j ≠ i := by rintro rfl; exact hi hj
      exact (Function.update_of_ne hji _ _).trans (h j (List.mem_cons_of_mem i hj)))
    rw [done_cons] at hrest
    exact hfirst.trans hrest

theorem execute_publications (order : List ι) (hn : order.Nodup) (out : ι → α × ω)
    (c : Config β ω κ ν α ι) (h : ∀ i ∈ order, c.thread i = .running (out i).2 (.ret (out i).1)) :
    ReflTransGen S.Step c ⟨order.foldl (fun b i => S.finish b (out i).2 (out i).1) c.shared,
      fun j => if j ∈ order then .done else c.thread j⟩ := by
  induction order generalizing c with
  | nil => simpa using ReflTransGen.refl
  | cons i order ih =>
    obtain ⟨hi, hn⟩ := List.nodup_cons.mp hn
    have hfirst := Step.finish (S := S) i (h i List.mem_cons_self)
    have hrest := ih hn ⟨S.finish c.shared (out i).2 (out i).1, Function.update c.thread i .done⟩ (by
      intro j hj
      have hji : j ≠ i := by rintro rfl; exact hi hj
      exact (Function.update_of_ne hji _ _).trans (h j (List.mem_cons_of_mem i hj)))
    rw [done_cons] at hrest
    exact .head hfirst hrest

theorem outcome_sequential (order : List ι) (hn : order.Nodup) (hall : ∀ i, i ∈ order) (b : β)
    (P : ι → Prog κ ν α) : S.Outcome b P (S.sequential b (order.map P)) :=
  ⟨_, S.execute_sequential order hn P (S.start b P) (fun _ _ => rfl), fun i => if_pos (hall i), rfl⟩

theorem outcome_single [Subsingleton ι] (i : ι) {b b' : β} {P : ι → Prog κ ν α} :
    S.Outcome b P b' ↔ b' = S.atomic b (P i) := by
  constructor
  · rintro ⟨c, hr, hd, rfl⟩
    -- The store keeps its initial value until the thread publishes what it computes over that value.
    have htrack : (∃ o p, c.thread i = .running o p ∧
        S.run (S.read b) p o = S.run (S.read b) (P i) S.fresh ∧ c.shared = b) ∨
          c.thread i = .done ∧ c.shared = S.atomic b (P i) := by
      clear hd
      induction hr with
      | refl => exact Or.inl ⟨_, _, rfl, rfl, rfl⟩
      | @tail c _ _ hs ih =>
        have hbefore {o : ω} {p : Prog κ ν α} (h : c.thread i = .running o p) :
            S.run (S.read b) p o = S.run (S.read b) (P i) S.fresh ∧ c.shared = b := by
          rcases ih with ⟨o, p, hp, hsame⟩ | ⟨hdone, _⟩
          · obtain ⟨rfl, rfl⟩ := Thread.running.inj (h.symm.trans hp)
            exact hsame
          · rw [hdone] at h
            cases h
        cases hs with
        | get j h =>
          obtain rfl := Subsingleton.elim i j
          obtain ⟨hrun, rfl⟩ := hbefore h
          exact Or.inl ⟨_, _, Function.update_self _ _ _, hrun, rfl⟩
        | set j h =>
          obtain rfl := Subsingleton.elim i j
          obtain ⟨hrun, rfl⟩ := hbefore h
          exact Or.inl ⟨_, _, Function.update_self _ _ _, hrun, rfl⟩
        | finish j h =>
          obtain rfl := Subsingleton.elim i j
          obtain ⟨hrun, rfl⟩ := hbefore h
          refine Or.inr ⟨Function.update_self _ _ _, ?_⟩
          rw [atomic, ← hrun]
          rfl
    rcases htrack with ⟨o, p, hp, _, _⟩ | ⟨_, h⟩
    · rw [hd i] at hp
      cases hp
    · exact h
  · rintro rfl
    exact S.outcome_sequential [i] (List.nodup_singleton i)
      (fun j => by simp [Subsingleton.elim j i]) b P

def Racing (c : Config β ω κ ν α ι) : Prop :=
  ∃ i j, i ≠ j ∧ (∃ o k next, c.thread i = .running o (.get k next) ∧ S.find o k = none) ∧
    ∃ o a, c.thread j = .running o (.ret a) ∧ S.commits a

omit [DecidableEq ι] in
theorem not_racing [Subsingleton ι] (c : Config β ω κ ν α ι) : ¬S.Racing c := by
  rintro ⟨i, j, hij, -⟩
  exact hij (Subsingleton.elim i j)

theorem Outcome.invariant {I : β → Prop} (hfinish : ∀ b o a, I b → I (S.finish b o a)) {b b' : β}
    {P : ι → Prog κ ν α} (hb : I b) (h : S.Outcome b P b') : I b' := by
  obtain ⟨c, hr, -, rfl⟩ := h
  induction hr with
  | refl => exact hb
  | tail _ hstep ih =>
    cases hstep with
    | get => exact ih
    | set => exact ih
    | finish => exact hfinish _ _ _ ih

section Interference

variable (b : β) (P : ι → Prog κ ν α)

def result (i : ι) : α × ω := S.run (S.read b) (P i) S.fresh

def publish (order : List ι) : β :=
  order.foldl (fun b' i => S.finish b' (S.result b P i).2 (S.result b P i).1) b

theorem execute_results (order : List ι) (hn : order.Nodup) (c : Config β ω κ ν α ι) (hc : c.shared = b)
    (h : ∀ i ∈ order, c.thread i = .running S.fresh (P i)) :
    ReflTransGen S.Step c ⟨b, fun j =>
      if j ∈ order then .running (S.result b P j).2 (.ret (S.result b P j).1) else c.thread j⟩ := by
  induction order generalizing c with
  | nil =>
    subst hc
    simpa using ReflTransGen.refl
  | cons i order ih =>
    subst hc
    obtain ⟨hi, hn⟩ := List.nodup_cons.mp hn
    have hfirst := S.execute c i (h i List.mem_cons_self)
    have hrest := ih hn ⟨c.shared, Function.update c.thread i
      (.running (S.result c.shared P i).2 (.ret (S.result c.shared P i).1))⟩ rfl (by
        intro j hj
        have hji : j ≠ i := by rintro rfl; exact hi hj
        exact (Function.update_of_ne hji _ _).trans (h j (List.mem_cons_of_mem i hj)))
    convert hfirst.trans hrest using 3
    rename_i j
    by_cases hji : j = i
    · subst hji
      simp [hi]
    · simp [hji]

theorem outcome_staged (early late : List ι) (hn : (early ++ late).Nodup) (hall : ∀ i, i ∈ early ++ late) :
    S.Outcome b P (S.sequential (S.publish b P early) (late.map P)) := by
  obtain ⟨hearly, hlate, hdisjoint⟩ := List.nodup_append'.mp hn
  have hrun := S.execute_results b P early hearly (S.start b P) rfl fun _ _ => rfl
  have hpublish := S.execute_publications early hearly (S.result b P)
    ⟨b, fun j => if j ∈ early then .running (S.result b P j).2 (.ret (S.result b P j).1)
      else (S.start b P).thread j⟩ fun i hi => if_pos hi
  have hrest := S.execute_sequential late hlate P ⟨S.publish b P early, fun j =>
    if j ∈ early then .done else if j ∈ early then .running (S.result b P j).2 (.ret (S.result b P j).1)
      else (S.start b P).thread j⟩ fun i hi => by
        have hi : i ∉ early := fun he => hdisjoint he hi
        simp [hi, start]
  refine ⟨_, (hrun.trans hpublish).trans hrest, fun i => ?_, rfl⟩
  rcases List.mem_append.mp (hall i) with hi | hi <;> simp [hi]

omit [DecidableEq ι] in
theorem read_publish_of_find_none {order : List ι} {k : κ}
    (h : ∀ i ∈ order, S.find (S.result b P i).2 k = none) : S.read (S.publish b P order) k = S.read b k := by
  induction order using List.reverseRecOn with
  | nil => rfl
  | append_singleton order i ih =>
    have hinit := ih fun j hj => h j (List.mem_append_left _ hj)
    rw [publish, List.foldl_append]
    change S.read (S.finish (S.publish b P order) _ _) k = _
    by_cases hc : S.commits (S.result b P i).1
    · rw [S.read_commit _ _ _ _ hc, h i (by simp), hinit]
      rfl
    · rw [S.read_discard _ _ _ _ hc, hinit]

omit [DecidableEq ι] in
theorem read_publish_last (order : List ι) {i : ι} (hc : S.commits (S.result b P i).1) (k : κ) :
    S.read (S.publish b P (order ++ [i])) k =
      (S.find (S.result b P i).2 k).getD (S.read (S.publish b P order) k) := by
  rw [publish, List.foldl_append]
  exact S.read_commit _ _ _ _ hc

omit [DecidableEq ι] in
theorem read_publish_discard (order : List ι) {i : ι} (hc : ¬S.commits (S.result b P i).1) (k : κ) :
    S.read (S.publish b P (order ++ [i])) k = S.read (S.publish b P order) k := by
  rw [publish, List.foldl_append]
  exact S.read_discard _ _ _ _ hc

/-- Each thread keeps to its footprint `F i`. Up to differences `E` that no thread notices, a
published overlay changes nothing in the footprint of another thread, and two published overlays
agree where they overlap. -/
structure Quiet (E : κ → ν → ν → Prop) (F : ι → Set κ) : Prop where
  same : ∀ k v, E k v v
  tame : ∀ i, S.Local E (F i) (S.read b) (P i) S.fresh
  settled : ∀ i j, i ≠ j → S.commits (S.result b P i).1 → ∀ k v, S.find (S.result b P i).2 k = some v →
    k ∈ F j → E k v (S.read b k)
  agree : ∀ i j, S.commits (S.result b P i).1 → S.commits (S.result b P j).1 → ∀ k v w,
    S.find (S.result b P i).2 k = some v → S.find (S.result b P j).2 k = some w → E k v w

def Holds (finished : ι → Prop) (k : κ) (v : ν) : Prop :=
  (∃ i, finished i ∧ S.commits (S.result b P i).1 ∧ S.find (S.result b P i).2 k = some v) ∨
    (∀ i, finished i → S.commits (S.result b P i).1 → S.find (S.result b P i).2 k = none) ∧
      v = S.read b k

variable {b P} {E : κ → ν → ν → Prop} {F : ι → Set κ}

omit [DecidableEq ι] in
theorem Holds.unique (hq : S.Quiet b P E F) {finished : ι → Prop} {k : κ} {v w : ν}
    (hv : S.Holds b P finished k v) (hw : S.Holds b P finished k w) : E k v w := by
  rcases hv with ⟨i, hi, hci, hfi⟩ | ⟨hnone, rfl⟩
  · rcases hw with ⟨j, hj, hcj, hfj⟩ | ⟨hnone, rfl⟩
    · exact hq.agree i j hci hcj k v w hfi hfj
    · rw [hnone i hi hci] at hfi
      cases hfi
  · rcases hw with ⟨j, hj, hcj, hfj⟩ | ⟨_, rfl⟩
    · rw [hnone j hj hcj] at hfj
      cases hfj
    · exact hq.same k _

structure OnTrack (E : κ → ν → ν → Prop) (F : ι → Set κ) (b : β) (P : ι → Prog κ ν α)
    (c : Config β ω κ ν α ι) : Prop where
  thread : ∀ i o p, c.thread i = .running o p →
    S.Local E (F i) (S.read b) p o ∧ S.run (S.read b) p o = S.result b P i
  shared : ∀ k, S.Holds b P (fun i => c.thread i = .done) k (S.read c.shared k)

omit [DecidableEq ι] in
theorem OnTrack.start (hq : S.Quiet b P E F) : S.OnTrack E F b P (S.start b P) where
  thread i o p h := by
    obtain ⟨rfl, rfl⟩ : S.fresh = o ∧ P i = p := by simpa [Shared.start] using h
    exact ⟨hq.tame i, rfl⟩
  shared k := Or.inr ⟨fun i hi => by simp [Shared.start] at hi, rfl⟩

omit [DecidableEq ι] in
theorem OnTrack.view_same (hq : S.Quiet b P E F) {c : Config β ω κ ν α ι} (ht : S.OnTrack E F b P c) {i : ι}
    {o : ω} {k : κ} {next : ν → Prog κ ν α} (h : c.thread i = .running o (.get k next)) :
    E k (S.view (S.read c.shared) o k) (S.view (S.read b) o k) := by
  unfold Buffer.view
  cases hf : S.find o k with
  | some v => exact hq.same k v
  | none =>
    have hk : k ∈ F i := (ht.thread i _ _ h).1.1
    rcases ht.shared k with ⟨j, hj, hcj, hfj⟩ | ⟨_, he⟩
    · have hji : j ≠ i := by
        rintro rfl
        rw [h] at hj
        cases hj
      exact hq.settled j i hji hcj k _ hfj hk
    · rw [he]
      exact hq.same k _

omit [DecidableEq ι] in
theorem Holds.congr {finished finished' : ι → Prop} (h : ∀ i, finished i ↔ finished' i) {k : κ} {v : ν}
    (hv : S.Holds b P finished k v) : S.Holds b P finished' k v := by
  rcases hv with ⟨i, hi, hci, hfi⟩ | ⟨hnone, he⟩
  · exact Or.inl ⟨i, (h i).mp hi, hci, hfi⟩
  · exact Or.inr ⟨fun i hi => hnone i ((h i).mpr hi), he⟩

omit [DecidableEq κ] in
theorem update_running_done {thread : ι → Thread ω κ ν α} {i : ι} {o o' : ω} {p p' : Prog κ ν α}
    (h : thread i = .running o p) (j : ι) :
    thread j = .done ↔ Function.update thread i (.running o' p') j = .done := by
  by_cases hji : j = i
  · subst hji
    simp [h]
  · rw [Function.update_of_ne hji]

theorem OnTrack.update {c : Config β ω κ ν α ι} (ht : S.OnTrack E F b P c) (i : ι) (t : Thread ω κ ν α)
    (hi : ∀ o p, t = .running o p →
      S.Local E (F i) (S.read b) p o ∧ S.run (S.read b) p o = S.result b P i) (j : ι) (o : ω)
    (p : Prog κ ν α) (h : Function.update c.thread i t j = .running o p) :
    S.Local E (F j) (S.read b) p o ∧ S.run (S.read b) p o = S.result b P j := by
  by_cases hji : j = i
  · subst hji
    rw [Function.update_self] at h
    exact hi o p h
  · rw [Function.update_of_ne hji] at h
    exact ht.thread j o p h

theorem OnTrack.publish {c : Config β ω κ ν α ι} (ht : S.OnTrack E F b P c) {i : ι} {o : ω} {a : α}
    (h : c.thread i = .running o (.ret a)) (k : κ) :
    S.Holds b P (fun j => Function.update c.thread i .done j = .done) k
      (S.read (S.finish c.shared o a) k) := by
  have hr : S.result b P i = (a, o) := (ht.thread i _ _ h).2.symm
  have hold : ∀ j, c.thread j = .done → Function.update c.thread i .done j = .done := by
    intro j hj
    by_cases hji : j = i
    · rw [hji, Function.update_self]
    · rwa [Function.update_of_ne hji]
  have hnew : ∀ j, Function.update c.thread i .done j = .done → j = i ∨ c.thread j = .done := by
    intro j hj
    by_cases hji : j = i
    · exact Or.inl hji
    · rw [Function.update_of_ne hji] at hj
      exact Or.inr hj
  -- Where the publication changes nothing at `k`, the earlier account of `k` still stands.
  have hkeep (hi : S.commits a → S.find o k = none) :
      S.Holds b P (fun j => Function.update c.thread i .done j = .done) k (S.read c.shared k) := by
    rcases ht.shared k with ⟨j, hj, hcj, hfj⟩ | ⟨hnone, he⟩
    · exact Or.inl ⟨j, hold j hj, hcj, hfj⟩
    · refine Or.inr ⟨fun j hj hcj => ?_, he⟩
      rcases hnew j hj with rfl | hj
      · rw [hr] at hcj ⊢
        exact hi hcj
      · exact hnone j hj hcj
  by_cases hc : S.commits a
  · rw [S.read_commit _ _ _ _ hc]
    cases hf : S.find o k with
    | none => exact hkeep fun _ => hf
    | some v => exact Or.inl ⟨i, Function.update_self i _ _, by rw [hr]; exact hc, by rw [hr]; exact hf⟩
  · rw [S.read_discard _ _ _ _ hc]
    exact hkeep fun h => absurd h hc

theorem OnTrack.step (hq : S.Quiet b P E F) {c c' : Config β ω κ ν α ι} (ht : S.OnTrack E F b P c)
    (h : S.Step c c') : S.OnTrack E F b P c' := by
  cases h with
  | @get o k next i h =>
    refine ⟨ht.update S i _ ?_, fun k' => (ht.shared k').congr S (update_running_done h)⟩
    intro o' p' he
    obtain ⟨rfl, rfl⟩ : o = o' ∧ next (S.view (S.read c.shared) o k) = p' := by simpa using he
    obtain ⟨hlocal, hrun⟩ := ht.thread i _ _ h
    rw [hlocal.2.1 _ (ht.view_same S hq h)]
    exact ⟨hlocal.2.2, hrun⟩
  | @set o k v next i h =>
    refine ⟨ht.update S i _ ?_, fun k' => (ht.shared k').congr S (update_running_done h)⟩
    intro o' p' he
    obtain ⟨rfl, rfl⟩ : S.write o k v = o' ∧ next = p' := by simpa using he
    obtain ⟨hlocal, hrun⟩ := ht.thread i o (.set k v next) h
    exact ⟨hlocal.2, hrun⟩
  | @finish o a i h =>
    exact ⟨ht.update S i _ (fun o' p' he => by cases he), ht.publish S h⟩

theorem OnTrack.steps (hq : S.Quiet b P E F) {c : Config β ω κ ν α ι}
    (h : ReflTransGen S.Step (S.start b P) c) : S.OnTrack E F b P c := by
  induction h with
  | refl => exact OnTrack.start S hq
  | tail _ hs ih => exact ih.step S hq hs

theorem Quiet.outcome_unique (hq : S.Quiet b P E F) {b₁ b₂ : β} (h₁ : S.Outcome b P b₁)
    (h₂ : S.Outcome b P b₂) (k : κ) : E k (S.read b₁ k) (S.read b₂ k) := by
  obtain ⟨c₁, hr₁, hd₁, rfl⟩ := h₁
  obtain ⟨c₂, hr₂, hd₂, rfl⟩ := h₂
  have hk₁ := (OnTrack.steps S hq hr₁).shared k
  have hk₂ := (OnTrack.steps S hq hr₂).shared k
  exact hk₁.unique S hq (hk₂.congr S fun i => ⟨fun _ => hd₁ i, fun _ => hd₂ i⟩)

def after (b : β) (P : ι → Prog κ ν α) (i₀ : ι) : β :=
  S.finish b (S.result b P i₀).2 (S.result b P i₀).1

def Silent (b b₁ : β) (p : Prog κ ν α) (o : ω) : Prop :=
  S.Always (fun k v => v = S.read b k ∨ v = S.read b₁ k) (fun a _ => ¬S.commits a) p o

structure SoloTrack (b : β) (P : ι → Prog κ ν α) (i₀ : ι) (c : Config β ω κ ν α ι) : Prop where
  solo : (∃ o p, c.thread i₀ = .running o p ∧ S.run (S.read b) p o = S.result b P i₀ ∧
      S.read c.shared = S.read b) ∨
    c.thread i₀ = .done ∧ S.read c.shared = S.read (S.after b P i₀)
  silent : ∀ j, j ≠ i₀ → ∀ o p, c.thread j = .running o p → S.Silent b (S.after b P i₀) p o

variable {i₀ : ι}

omit [DecidableEq ι] in
theorem SoloTrack.read_shared {c : Config β ω κ ν α ι} (ht : S.SoloTrack b P i₀ c) (k : κ) :
    S.read c.shared k = S.read b k ∨ S.read c.shared k = S.read (S.after b P i₀) k := by
  rcases ht.solo with ⟨_, _, _, _, he⟩ | ⟨_, he⟩
  · exact Or.inl (congrFun he k)
  · exact Or.inr (congrFun he k)

theorem SoloTrack.other {c : Config β ω κ ν α ι} (ht : S.SoloTrack b P i₀ c) {j : ι} (hj : j ≠ i₀)
    (t : Thread ω κ ν α) (b' : β) (hb : S.read b' = S.read c.shared)
    (hs : ∀ o p, t = .running o p → S.Silent b (S.after b P i₀) p o) :
    S.SoloTrack b P i₀ ⟨b', Function.update c.thread j t⟩ := by
  constructor
  · simpa only [Function.update_of_ne hj.symm, hb] using ht.solo
  · intro l hl o p h
    by_cases hlj : l = j
    · subst hlj
      exact hs o p (by simpa using h)
    · exact ht.silent l hl o p (by simpa only [Function.update_of_ne hlj] using h)

theorem SoloTrack.main {c : Config β ω κ ν α ι} (ht : S.SoloTrack b P i₀ c) (t : Thread ω κ ν α)
    (b' : β) (hs : (∃ o p, t = .running o p ∧ S.run (S.read b) p o = S.result b P i₀ ∧
      S.read b' = S.read b) ∨ t = .done ∧ S.read b' = S.read (S.after b P i₀)) :
    S.SoloTrack b P i₀ ⟨b', Function.update c.thread i₀ t⟩ := by
  constructor
  · simpa only [Function.update_self] using hs
  · intro l hl o p h
    exact ht.silent l hl o p (by simpa only [Function.update_of_ne hl] using h)

omit [DecidableEq ι] in
theorem SoloTrack.running {c : Config β ω κ ν α ι} (ht : S.SoloTrack b P i₀ c) {o : ω}
    {p : Prog κ ν α} (h : c.thread i₀ = .running o p) :
    S.run (S.read b) p o = S.result b P i₀ ∧ S.read c.shared = S.read b := by
  rcases ht.solo with ⟨o', p', h', hrun, he⟩ | ⟨hd, _⟩
  · obtain ⟨rfl, rfl⟩ : o = o' ∧ p = p' := by simpa [h] using h'
    exact ⟨hrun, he⟩
  · rw [h] at hd
    cases hd

theorem SoloTrack.step {c c' : Config β ω κ ν α ι} (ht : S.SoloTrack b P i₀ c) (h : S.Step c c') :
    S.SoloTrack b P i₀ c' := by
  cases h with
  | @get o k next i h =>
    by_cases hi : i = i₀
    · subst hi
      obtain ⟨hrun, he⟩ := ht.running S h
      refine ht.main S _ _ (Or.inl ⟨_, _, rfl, ?_, he⟩)
      rw [he]
      exact hrun
    · apply ht.other S hi _ _ rfl
      intro o' p' hp
      obtain ⟨rfl, rfl⟩ : o = o' ∧ next (S.view (S.read c.shared) o k) = p' := by simpa using hp
      apply ht.silent i hi o (.get k next) h
      unfold Buffer.view
      cases hf : S.find o k with
      | some v => exact Or.inl rfl
      | none => exact Or.inr ⟨rfl, ht.read_shared S k⟩
  | @set o k v next i h =>
    by_cases hi : i = i₀
    · subst hi
      obtain ⟨hrun, he⟩ := ht.running S h
      exact ht.main S _ _ (Or.inl ⟨_, _, rfl, hrun, he⟩)
    · apply ht.other S hi _ _ rfl
      intro o' p' hp
      obtain ⟨rfl, rfl⟩ : S.write o k v = o' ∧ next = p' := by simpa using hp
      exact ht.silent i hi o (.set k v next) h
  | @finish o a i h =>
    by_cases hi : i = i₀
    · subst hi
      obtain ⟨hrun, he⟩ := ht.running S h
      refine ht.main S _ _ (Or.inr ⟨rfl, ?_⟩)
      have hr : S.result b P i = (a, o) := hrun.symm
      unfold after
      rw [hr]
      funext k
      by_cases hc : S.commits a
      · rw [S.read_commit _ _ _ _ hc, S.read_commit _ _ _ _ hc, he]
      · rw [S.read_discard _ _ _ _ hc, S.read_discard _ _ _ _ hc, he]
    · have hc : ¬S.commits a := ht.silent i hi o (.ret a) h
      exact ht.other S hi _ _ (funext fun k => S.read_discard _ _ _ _ hc) (fun _ _ hp => by cases hp)

theorem SoloTrack.steps (hs : ∀ j, j ≠ i₀ → S.Silent b (S.after b P i₀) (P j) S.fresh)
    {c : Config β ω κ ν α ι} (h : ReflTransGen S.Step (S.start b P) c) : S.SoloTrack b P i₀ c := by
  induction h with
  | refl =>
    refine ⟨Or.inl ⟨_, _, rfl, rfl, rfl⟩, ?_⟩
    intro j hj o p h
    obtain ⟨rfl, rfl⟩ : S.fresh = o ∧ P j = p := by simpa [start] using h
    exact hs j hj
  | tail _ hstep ih => exact ih.step S hstep

theorem solo_outcome (hs : ∀ j, j ≠ i₀ → S.Silent b (S.after b P i₀) (P j) S.fresh) {b' : β}
    (h : S.Outcome b P b') : S.read b' = S.read (S.after b P i₀) := by
  obtain ⟨c, hr, hd, rfl⟩ := h
  rcases (SoloTrack.steps S hs hr).solo with ⟨_, _, h, _, _⟩ | ⟨_, he⟩
  · rw [hd i₀] at h
    cases h
  · exact he

end Interference

end Shared

end Zephyria
