import Zephyria.Lib.Speculation

/-!
The publications of a run in their order: the shared store is what they make of it, one after the
other, and every thread appears once.
-/

namespace Zephyria

open Relation

structure Publication (ω α ι : Type) where
  thread : ι
  overlay : ω
  result : α

namespace Shared

variable {β ω κ ν α ι : Type} [DecidableEq κ] [DecidableEq ι] (S : Shared β ω κ ν α)

inductive Trace (c₀ : Config β ω κ ν α ι) : List (Publication ω α ι) → Config β ω κ ν α ι → Prop
  | refl : Trace c₀ [] c₀
  | get {log : List (Publication ω α ι)} {c : Config β ω κ ν α ι} {o : ω} {k : κ} {next : ν → Prog κ ν α} {i : ι}
      (h : Trace c₀ log c) (hi : c.thread i = .running o (.get k next)) :
      Trace c₀ log ⟨c.shared, Function.update c.thread i (.running o (next (S.view (S.read c.shared) o k)))⟩
  | set {log : List (Publication ω α ι)} {c : Config β ω κ ν α ι} {o : ω} {k : κ} {v : ν} {next : Prog κ ν α} {i : ι}
      (h : Trace c₀ log c) (hi : c.thread i = .running o (.set k v next)) :
      Trace c₀ log ⟨c.shared, Function.update c.thread i (.running (S.write o k v) next)⟩
  | finish {log : List (Publication ω α ι)} {c : Config β ω κ ν α ι} {o : ω} {a : α} {i : ι}
      (h : Trace c₀ log c) (hi : c.thread i = .running o (.ret a)) :
      Trace c₀ (log ++ [⟨i, o, a⟩]) ⟨S.finish c.shared o a, Function.update c.thread i .done⟩

def published (b : β) (log : List (Publication ω α ι)) : β :=
  log.foldl (fun b x => S.finish b x.overlay x.result) b

variable {S} {c₀ c : Config β ω κ ν α ι} {log : List (Publication ω α ι)} {b b' : β} {P : ι → Prog κ ν α}

theorem Trace.steps (h : S.Trace c₀ log c) : ReflTransGen S.Step c₀ c := by
  induction h with
  | refl => exact .refl
  | get _ hi ih => exact ih.tail (.get _ hi)
  | set _ hi ih => exact ih.tail (.set _ hi)
  | finish _ hi ih => exact ih.tail (.finish _ hi)

theorem exists_trace (h : ReflTransGen S.Step c₀ c) : ∃ log, S.Trace c₀ log c := by
  induction h with
  | refl => exact ⟨[], .refl⟩
  | tail _ hstep ih =>
    obtain ⟨log, hlog⟩ := ih
    cases hstep with
    | get i hi => exact ⟨log, hlog.get hi⟩
    | set i hi => exact ⟨log, hlog.set hi⟩
    | finish i hi => exact ⟨_, hlog.finish hi⟩

theorem Trace.shared (h : S.Trace c₀ log c) : c.shared = S.published c₀.shared log := by
  induction h with
  | refl => rfl
  | get _ _ ih => exact ih
  | set _ _ ih => exact ih
  | finish _ _ ih =>
    rw [published, List.foldl_append, List.foldl_cons, List.foldl_nil, ih]
    rfl

structure Accounted (log : List (Publication ω α ι)) (c : Config β ω κ ν α ι) : Prop where
  nodup : (log.map Publication.thread).Nodup
  done : ∀ i, c.thread i = .done ↔ i ∈ log.map Publication.thread

omit [DecidableEq κ] in
theorem Accounted.running {i : ι} {o o' : ω} {p p' : Prog κ ν α} (h : Accounted log c)
    (hi : c.thread i = .running o p) (b : β) :
    Accounted log ⟨b, Function.update c.thread i (.running o' p')⟩ :=
  ⟨h.nodup, fun j => (update_running_done hi j).symm.trans (h.done j)⟩

omit [DecidableEq κ] [DecidableEq ι] in
theorem Accounted.notMem {i : ι} {o : ω} {p : Prog κ ν α} (h : Accounted log c)
    (hi : c.thread i = .running o p) : i ∉ log.map Publication.thread := by
  rw [← h.done i, hi]
  exact nofun

omit [DecidableEq κ] in
theorem Accounted.finish {i : ι} {o : ω} {p : Prog κ ν α} (h : Accounted log c) (hi : c.thread i = .running o p)
    (b : β) (a : α) : Accounted (log ++ [⟨i, o, a⟩]) ⟨b, Function.update c.thread i .done⟩ := by
  refine ⟨?_, fun j => ?_⟩
  · rw [List.map_append, List.nodup_append']
    refine ⟨h.nodup, List.nodup_singleton _, ?_⟩
    intro j hj hj'
    rw [List.mem_singleton.mp hj'] at hj
    exact h.notMem hi hj
  · rw [List.map_append, List.mem_append, ← h.done j]
    by_cases hji : j = i
    · simp [hji]
    · simp [hji, Function.update_of_ne]

theorem Trace.accounted (h : S.Trace (S.start b P) log c) : Accounted log c := by
  induction h with
  | refl => exact ⟨List.nodup_nil, fun i => by simp [start]⟩
  | get _ hi ih => exact ih.running hi _
  | set _ hi ih => exact ih.running hi _
  | finish _ hi ih => exact ih.finish hi _ _

section Always

variable {A : ι → κ → ν → Prop} {Q : ι → α → ω → Prop}

theorem always_update {i : ι} {t : Thread ω κ ν α}
    (hc : ∀ j o p, c.thread j = .running o p → S.Always (A j) (Q j) p o)
    (ht : ∀ o p, t = .running o p → S.Always (A i) (Q i) p o) (j : ι) (o : ω) (p : Prog κ ν α)
    (hj : Function.update c.thread i t j = .running o p) : S.Always (A j) (Q j) p o := by
  by_cases hji : j = i
  · subst hji
    rw [Function.update_self] at hj
    exact ht o p hj
  · rw [Function.update_of_ne hji] at hj
    exact hc j o p hj

theorem Trace.rely (hP : ∀ i, S.Always (A i) (Q i) (P i) S.fresh) (h : S.Trace (S.start b P) log c)
    (hread : ∀ pre, pre <+: log → (∀ x ∈ pre, Q x.thread x.result x.overlay) →
      ∀ i, i ∉ pre.map Publication.thread → ∀ k, A i k (S.read (S.published b pre) k)) :
    (∀ i o p, c.thread i = .running o p → S.Always (A i) (Q i) p o) ∧
      ∀ x ∈ log, Q x.thread x.result x.overlay := by
  induction h with
  | refl =>
    refine ⟨fun i o p hi => ?_, nofun⟩
    obtain ⟨rfl, rfl⟩ := Thread.running.inj hi
    exact hP i
  | @get log c o k next i htrace hi ih =>
    obtain ⟨hrunning, hlog⟩ := ih hread
    refine ⟨always_update hrunning fun o' p' ht => ?_, hlog⟩
    obtain ⟨rfl, rfl⟩ := Thread.running.inj ht
    apply hrunning i o (.get k next) hi
    unfold Buffer.view
    cases S.find o k with
    | some v => exact Or.inl rfl
    | none =>
      refine Or.inr ⟨rfl, ?_⟩
      change A i k (S.read c.shared k)
      rw [htrace.shared]
      exact hread log List.prefix_rfl hlog i (htrace.accounted.notMem hi) k
  | @set log c o k v next i _ hi ih =>
    obtain ⟨hrunning, hlog⟩ := ih hread
    refine ⟨always_update hrunning fun o' p' ht => ?_, hlog⟩
    obtain ⟨rfl, rfl⟩ := Thread.running.inj ht
    exact hrunning i o (.set k v next) hi
  | @finish log c o a i _ hi ih =>
    obtain ⟨hrunning, hlog⟩ := ih fun pre hpre => hread pre (hpre.trans (List.prefix_append _ _))
    refine ⟨always_update hrunning nofun, fun x hx => ?_⟩
    obtain hx | hx := List.mem_append.mp hx
    · exact hlog x hx
    · rw [List.mem_singleton.mp hx]
      exact hrunning i o (.ret a) hi

theorem Trace.always (hP : ∀ i, S.Always (A i) (Q i) (P i) S.fresh) (h : S.Trace (S.start b P) log c)
    (hread : ∀ pre, pre <+: log → ∀ i, i ∉ pre.map Publication.thread → ∀ k,
      A i k (S.read (S.published b pre) k)) :
    (∀ i o p, c.thread i = .running o p → S.Always (A i) (Q i) p o) ∧
      ∀ x ∈ log, Q x.thread x.result x.overlay :=
  h.rely hP fun pre hpre _ => hread pre hpre

end Always

variable (S) in
def Publishes (b : β) (P : ι → Prog κ ν α) (log : List (Publication ω α ι)) (b' : β) : Prop :=
  ∃ c, S.Trace (S.start b P) log c ∧ (∀ i, c.thread i = .done) ∧ c.shared = b'

theorem outcome_iff_publishes : S.Outcome b P b' ↔ ∃ log, S.Publishes b P log b' := by
  constructor
  · rintro ⟨c, hsteps, hdone, hshared⟩
    obtain ⟨log, hlog⟩ := exists_trace hsteps
    exact ⟨log, c, hlog, hdone, hshared⟩
  · rintro ⟨log, c, hlog, hdone, hshared⟩
    exact ⟨c, hlog.steps, hdone, hshared⟩

theorem Publishes.shared (h : S.Publishes b P log b') : b' = S.published b log := by
  obtain ⟨c, hlog, -, rfl⟩ := h
  exact hlog.shared

theorem Publishes.nodup (h : S.Publishes b P log b') : (log.map Publication.thread).Nodup := by
  obtain ⟨c, hlog, -, -⟩ := h
  exact hlog.accounted.nodup

theorem Publishes.mem (h : S.Publishes b P log b') (i : ι) : i ∈ log.map Publication.thread := by
  obtain ⟨c, hlog, hdone, -⟩ := h
  exact (hlog.accounted.done i).mp (hdone i)

theorem Publishes.always {A : ι → κ → ν → Prop} {Q : ι → α → ω → Prop}
    (hP : ∀ i, S.Always (A i) (Q i) (P i) S.fresh) (h : S.Publishes b P log b')
    (hread : ∀ pre, pre <+: log → ∀ i, i ∉ pre.map Publication.thread → ∀ k,
      A i k (S.read (S.published b pre) k)) : ∀ x ∈ log, Q x.thread x.result x.overlay := by
  obtain ⟨c, hlog, -, -⟩ := h
  exact (hlog.always hP hread).2

theorem Publishes.rely {A : ι → κ → ν → Prop} {Q : ι → α → ω → Prop}
    (hP : ∀ i, S.Always (A i) (Q i) (P i) S.fresh) (h : S.Publishes b P log b')
    (hread : ∀ pre, pre <+: log → (∀ x ∈ pre, Q x.thread x.result x.overlay) →
      ∀ i, i ∉ pre.map Publication.thread → ∀ k, A i k (S.read (S.published b pre) k)) :
    ∀ x ∈ log, Q x.thread x.result x.overlay := by
  obtain ⟨c, hlog, -, -⟩ := h
  exact (hlog.rely hP hread).2

omit [DecidableEq ι] in
theorem read_published_of_find_none {k : κ}
    (h : ∀ x ∈ log, S.commits x.result → S.find x.overlay k = none) (b : β) :
    S.read (S.published b log) k = S.read b k := by
  induction log generalizing b with
  | nil => rfl
  | cons x log ih =>
    obtain ⟨hx, hlog⟩ := List.forall_mem_cons.mp h
    refine (ih hlog (S.finish b x.overlay x.result)).trans ?_
    by_cases hc : S.commits x.result
    · rw [S.read_commit _ _ _ _ hc, hx hc, Option.getD_none]
    · rw [S.read_discard _ _ _ _ hc]

section Staged

variable (S) in
def publication (b : β) (P : ι → Prog κ ν α) (i : ι) : Publication ω α ι :=
  ⟨i, (S.result b P i).2, (S.result b P i).1⟩

theorem Trace.finishAll {order : List ι} (hn : order.Nodup) (h : S.Trace c₀ log c)
    (hc : ∀ i ∈ order, c.thread i = .running (S.result b P i).2 (.ret (S.result b P i).1)) :
    ∃ c', S.Trace c₀ (log ++ order.map (S.publication b P)) c' ∧
      c'.thread = fun j => if j ∈ order then .done else c.thread j := by
  induction order generalizing log c with
  | nil => exact ⟨c, by simpa using h, by simp⟩
  | cons i order ih =>
    obtain ⟨hi, hn⟩ := List.nodup_cons.mp hn
    have hfirst := h.finish (hc i List.mem_cons_self)
    obtain ⟨c', htrace, hthread⟩ := ih hn hfirst (by
      intro j hj
      have hji : j ≠ i := by rintro rfl; exact hi hj
      exact (Function.update_of_ne hji _ _).trans (hc j (List.mem_cons_of_mem i hj)))
    refine ⟨c', by simpa [publication] using htrace, ?_⟩
    rw [hthread]
    exact done_cons c.thread i order

theorem publishes_results {order : List ι} (hn : order.Nodup) (hall : ∀ i, i ∈ order) (b : β) (P : ι → Prog κ ν α) :
    ∃ b', S.Publishes b P (order.map (S.publication b P)) b' := by
  have hrun := S.execute_results b P order hn (S.start b P) rfl fun _ _ => rfl
  obtain ⟨log, htrace⟩ := exists_trace hrun
  have hlog : log = [] := by
    rw [List.eq_nil_iff_forall_not_mem]
    intro x hx
    have hdone := (htrace.accounted.done x.thread).mpr (List.mem_map_of_mem hx)
    simp [hall] at hdone
  subst hlog
  obtain ⟨c, hfinished, hthread⟩ := htrace.finishAll (b := b) (P := P) hn fun i hi => if_pos hi
  refine ⟨c.shared, c, hfinished, fun i => ?_, rfl⟩
  rw [hthread]
  exact if_pos (hall i)

end Staged

section Absence

variable {ι' : Type} [DecidableEq ι'] {f : ι' → ι}

variable (S) in
/-- `E` relates stores that no thread tells apart, before and after a result that does not commit. -/
structure Blind (E : β → β → Prop) : Prop where
  read : ∀ {b d}, E b d → S.read b = S.read d
  publish : ∀ {b d} o a, E b d → E (S.finish b o a) (S.finish d o a)
  discard : ∀ {b d} o a, ¬S.commits a → E b d → E (S.finish b o a) d

omit [DecidableEq κ] in
theorem update_comp_image (hf : Function.Injective f) (thread : ι → Thread ω κ ν α) (j : ι') (t : Thread ω κ ν α) :
    Function.update thread (f j) t ∘ f = Function.update (thread ∘ f) j t := by
  funext l
  by_cases hl : l = j
  · simp [hl]
  · simp [hl, hf.ne hl]

omit [DecidableEq κ] [DecidableEq ι'] in
theorem update_comp_of_notMem {i : ι} (hi : i ∉ Set.range f) (thread : ι → Thread ω κ ν α) (t : Thread ω κ ν α) :
    Function.update thread i t ∘ f = thread ∘ f := by
  funext l
  apply Function.update_of_ne
  rintro rfl
  exact hi ⟨l, rfl⟩

theorem Trace.restrict {E : β → β → Prop} (hE : S.Blind E) (hf : Function.Injective f) {d : β} (hb : E b d)
    (h : S.Trace (S.start b P) log c) (hout : ∀ x ∈ log, x.thread ∉ Set.range f → ¬S.commits x.result) :
    ∃ d', E c.shared d' ∧ ReflTransGen S.Step (S.start d (P ∘ f)) ⟨d', c.thread ∘ f⟩ := by
  induction h with
  | refl => exact ⟨d, hb, .refl⟩
  | @get log c o k next i _ hi ih =>
    obtain ⟨d', hd, hsteps⟩ := ih hout
    refine ⟨d', hd, ?_⟩
    by_cases hrange : i ∈ Set.range f
    · obtain ⟨j, rfl⟩ := hrange
      have hstep := Step.get (S := S) (c := ⟨d', c.thread ∘ f⟩) j hi
      simp only [← hE.read hd, ← update_comp_image hf] at hstep
      exact hsteps.tail hstep
    · rw [update_comp_of_notMem hrange]
      exact hsteps
  | @set log c o k v next i _ hi ih =>
    obtain ⟨d', hd, hsteps⟩ := ih hout
    refine ⟨d', hd, ?_⟩
    by_cases hrange : i ∈ Set.range f
    · obtain ⟨j, rfl⟩ := hrange
      have hstep := Step.set (S := S) (c := ⟨d', c.thread ∘ f⟩) j hi
      simp only [← update_comp_image hf] at hstep
      exact hsteps.tail hstep
    · rw [update_comp_of_notMem hrange]
      exact hsteps
  | @finish log c o a i _ hi ih =>
    obtain ⟨d', hd, hsteps⟩ := ih fun x hx => hout x (List.mem_append_left _ hx)
    by_cases hrange : i ∈ Set.range f
    · obtain ⟨j, rfl⟩ := hrange
      have hstep := Step.finish (S := S) (c := ⟨d', c.thread ∘ f⟩) j hi
      simp only [← update_comp_image hf] at hstep
      exact ⟨_, hE.publish o a hd, hsteps.tail hstep⟩
    · rw [update_comp_of_notMem hrange]
      exact ⟨d', hE.discard o a (hout ⟨i, o, a⟩ (by simp) hrange) hd, hsteps⟩

theorem Publishes.restrict {E : β → β → Prop} (hE : S.Blind E) (hf : Function.Injective f) {d : β} (hb : E b d)
    (h : S.Publishes b P log b') (hout : ∀ x ∈ log, x.thread ∉ Set.range f → ¬S.commits x.result) :
    ∃ d', E b' d' ∧ S.Outcome d (P ∘ f) d' := by
  obtain ⟨c, hlog, hdone, rfl⟩ := h
  obtain ⟨d', hd, hsteps⟩ := hlog.restrict hE hf hb hout
  exact ⟨d', hd, _, hsteps, fun j => hdone (f j), rfl⟩

end Absence

end Shared

end Zephyria
