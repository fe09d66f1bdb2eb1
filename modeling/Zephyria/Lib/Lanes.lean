import Zephyria.Lib.StoreProgram

/-!
Programs run on private buffers over one shared store, each on a lane of its own. A lane that is
through writes its buffer back entry by entry while the other lanes go on, so that they may see a part
of it.
-/

namespace Zephyria

open Relation

namespace Prog

variable {κ ν α : Type} [DecidableEq κ]

def reads : Prog κ ν α → (κ → ν) → List κ
  | .ret _, _ => []
  | .get k next, m => k :: reads (next (m k)) m
  | .set k v next, m => reads next (Function.update m k v)

def writes : Prog κ ν α → (κ → ν) → List κ
  | .ret _, _ => []
  | .get k next, m => writes (next (m k)) m
  | .set k v next, m => k :: writes next (Function.update m k v)

def denoteAll (ps : List (Prog κ ν α)) (m : κ → ν) : κ → ν := ps.foldl (fun m p => (p.denote m).2) m

theorem denote_of_notMem_writes (p : Prog κ ν α) {m : κ → ν} {k : κ} (h : k ∉ p.writes m) :
    (p.denote m).2 k = m k := by
  induction p generalizing m with
  | ret a => rfl
  | get j next ih => exact ih _ h
  | set j v next ih =>
    rw [writes, List.mem_cons, not_or] at h
    exact (ih h.2).trans (Function.update_of_ne h.1 _ _)

theorem denote_congr (p : Prog κ ν α) {m m' : κ → ν} (h : ∀ k ∈ p.reads m, m' k = m k) :
    (p.denote m').1 = (p.denote m).1 ∧
      ∀ k, (p.denote m').2 k = if k ∈ p.writes m then (p.denote m).2 k else m' k := by
  induction p generalizing m m' with
  | ret a => exact ⟨rfl, fun k => rfl⟩
  | get k next ih =>
    have hk : m' k = m k := h k List.mem_cons_self
    have hnext := ih (m k) fun j hj => h j (List.mem_cons_of_mem k hj)
    simp only [denote, writes, hk]
    exact hnext
  | set k v next ih =>
    have hagree : ∀ j ∈ next.reads (Function.update m k v),
        Function.update m' k v j = Function.update m k v j := by
      intro j hj
      rw [Function.update_apply, Function.update_apply, h j hj]
    obtain ⟨hresult, hstore⟩ := ih hagree
    refine ⟨hresult, fun j => ?_⟩
    simp only [denote, writes, List.mem_cons]
    rw [hstore]
    by_cases hj : j ∈ next.writes (Function.update m k v)
    · rw [if_pos hj, if_pos (Or.inr hj)]
    · rw [if_neg hj]
      by_cases hjk : j = k
      · rw [if_pos (Or.inl hjk), denote_of_notMem_writes next hj, hjk, Function.update_self, Function.update_self]
      · rw [if_neg (not_or.mpr ⟨hjk, hj⟩), Function.update_of_ne hjk]

/-- Started on `m`, no program writes a key that another one reads or writes. -/
def Independent {ι : Type} (m : κ → ν) (P : ι → Prog κ ν α) : Prop :=
  ∀ i j, i ≠ j → ∀ k ∈ (P i).writes m, k ∉ (P j).reads m ∧ k ∉ (P j).writes m

section Sequential

variable {ι : Type} {m : κ → ν} {P : ι → Prog κ ν α}

theorem Independent.denoteAll (h : Independent m P) {order : List ι} (hn : order.Nodup) (k : κ) :
    (∀ i ∈ order, k ∈ (P i).writes m → Prog.denoteAll (order.map P) m k = ((P i).denote m).2 k) ∧
      ((∀ i ∈ order, k ∉ (P i).writes m) → Prog.denoteAll (order.map P) m k = m k) := by
  induction order using List.reverseRecOn generalizing k with
  | nil => exact ⟨nofun, fun _ => rfl⟩
  | append_singleton order i ih =>
    obtain ⟨hn, -, hdisjoint⟩ := List.nodup_append'.mp hn
    have hi : ∀ j ∈ order, j ≠ i := by
      rintro j hj rfl
      exact hdisjoint hj List.mem_cons_self
    have hreads : ∀ k ∈ (P i).reads m, Prog.denoteAll (order.map P) m k = m k := by
      intro k hk
      exact (ih hn k).2 fun j hj hw => (h j i (hi j hj) k hw).1 hk
    have hlast : Prog.denoteAll ((order ++ [i]).map P) m k =
        ((P i).denote (Prog.denoteAll (order.map P) m)).2 k := by
      rw [List.map_append, Prog.denoteAll, List.foldl_append]
      rfl
    rw [hlast, ((P i).denote_congr hreads).2]
    constructor
    · intro j hj hw
      obtain hj | rfl : j ∈ order ∨ j = i := by simpa using hj
      · rw [if_neg (h j i (hi j hj) k hw).2]
        exact (ih hn k).1 j hj hw
      · rw [if_pos hw]
    · intro hnone
      rw [if_neg (hnone i (by simp))]
      exact (ih hn k).2 fun j hj => hnone j (List.mem_append_left _ hj)

end Sequential

end Prog

/-- A store under buffers that are merged into it one entry at a time, in any order. What else a merge
does is not seen by any read. -/
structure Lanes (β ω κ ν α : Type) [DecidableEq κ] extends Buffer ω κ ν where
  entries : ω → List (Σ _ : κ, ν)
  nodup_entries : ∀ o, (entries o).NodupKeys
  dlookup_entries : ∀ o k, (entries o).dlookup k = find o k
  read : β → κ → ν
  put : β → κ → ν → β
  close : β → α → β
  read_put : ∀ b k v, read (put b k v) = Function.update (read b) k v
  read_close : ∀ b a, read (close b a) = read b

inductive Lane (ω κ ν α : Type) where
  | running (o : ω) (p : Prog κ ν α)
  | merging (rest : List (Σ _ : κ, ν)) (a : α)
  | merged (a : α)

namespace Lanes

variable {β ω κ ν α ι : Type} [DecidableEq κ] [DecidableEq ι] (L : Lanes β ω κ ν α)

structure State (β ω κ ν α ι : Type) where
  shared : β
  lane : ι → Lane ω κ ν α

inductive Move : β × Lane ω κ ν α → β × Lane ω κ ν α → Prop
  | get {b : β} {o : ω} {k : κ} {next : ν → Prog κ ν α} :
      Move (b, .running o (.get k next)) (b, .running o (next (L.view (L.read b) o k)))
  | set {b : β} {o : ω} {k : κ} {v : ν} {next : Prog κ ν α} :
      Move (b, .running o (.set k v next)) (b, .running (L.write o k v) next)
  | merge {b : β} {o : ω} {a : α} {l : List (Σ _ : κ, ν)} (h : l.Perm (L.entries o)) :
      Move (b, .running o (.ret a)) (b, .merging l a)
  | put {b : β} {e : Σ _ : κ, ν} {rest : List (Σ _ : κ, ν)} {a : α} :
      Move (b, .merging (e :: rest) a) (L.put b e.1 e.2, .merging rest a)
  | close {b : β} {a : α} : Move (b, .merging [] a) (L.close b a, .merged a)

def Step (c c' : State β ω κ ν α ι) : Prop :=
  ∃ i lane, L.Move (c.shared, c.lane i) (c'.shared, lane) ∧ c'.lane = Function.update c.lane i lane

def start (b : β) (P : ι → Prog κ ν α) : State β ω κ ν α ι := ⟨b, fun i => .running L.fresh (P i)⟩

def Complete (c : State β ω κ ν α ι) : Prop := ∀ i, ∃ a, c.lane i = .merged a

section Tracks

variable {L} {r : κ → ν} {p : Prog κ ν α}

def Follows (L : Lanes β ω κ ν α) (r : κ → ν) (p : Prog κ ν α) : Lane ω κ ν α → Prop
  | .running o q => q.denote (L.view r o) = p.denote r ∧ (∀ k ∈ q.reads (L.view r o), k ∈ p.reads r) ∧
      ∀ k, k ∈ p.writes r ↔ L.find o k ≠ none ∨ k ∈ q.writes (L.view r o)
  | .merging rest a => a = (p.denote r).1 ∧ rest.NodupKeys ∧
      ∀ e ∈ rest, e.1 ∈ p.writes r ∧ e.2 = (p.denote r).2 e.1
  | .merged a => a = (p.denote r).1

def Landed (r : κ → ν) (p : Prog κ ν α) (k : κ) : Lane ω κ ν α → Prop
  | .running _ _ => False
  | .merging rest _ => k ∈ p.writes r ∧ k ∉ rest.keys
  | .merged _ => k ∈ p.writes r

theorem Landed.mem_writes {k : κ} {lane : Lane ω κ ν α} (h : Landed r p k lane) : k ∈ p.writes r := by
  cases lane with
  | running o q => exact h.elim
  | merging rest a => exact h.1
  | merged a => exact h

structure Tracks (L : Lanes β ω κ ν α) (r : κ → ν) (P : ι → Prog κ ν α) (c : State β ω κ ν α ι) : Prop where
  follows : ∀ i, L.Follows r (P i) (c.lane i)
  landed : ∀ i k, Landed r (P i) k (c.lane i) → L.read c.shared k = ((P i).denote r).2 k
  untouched : ∀ k, (∀ i, ¬Landed r (P i) k (c.lane i)) → L.read c.shared k = r k

variable {P : ι → Prog κ ν α} {c c' : State β ω κ ν α ι} {i : ι} {lane : Lane ω κ ν α}

omit [DecidableEq ι] in
theorem tracks_start (b : β) (P : ι → Prog κ ν α) : L.Tracks (L.read b) P (L.start b P) where
  follows i := by
    have hview : L.view (L.read b) L.fresh = L.read b := funext (L.view_fresh (L.read b))
    refine ⟨?_, ?_, fun k => ?_⟩
    · rw [hview]
    · rw [hview]
      exact fun k hk => hk
    · rw [hview, L.find_fresh]
      simp
  landed i k h := h.elim
  untouched k _ := rfl

omit [DecidableEq ι] in
theorem Tracks.view_eq (hP : Prog.Independent r P) (h : L.Tracks r P c) {o : ω} {k : κ}
    {next : ν → Prog κ ν α} (hi : c.lane i = .running o (.get k next)) :
    L.view (L.read c.shared) o k = L.view r o k := by
  have hfollows := h.follows i
  rw [hi] at hfollows
  have hk : k ∈ (P i).reads r := hfollows.2.1 k List.mem_cons_self
  have hread : L.read c.shared k = r k := by
    apply h.untouched
    intro j hj
    by_cases hji : j = i
    · rw [hji, hi] at hj
      exact hj
    · exact (hP j i hji k hj.mem_writes).1 hk
  rw [Buffer.view, Buffer.view, hread]

theorem Follows.get {o : ω} {k : κ} {next : ν → Prog κ ν α} (h : L.Follows r p (.running o (.get k next))) :
    L.Follows r p (.running o (next (L.view r o k))) :=
  ⟨h.1, fun j hj => h.2.1 j (List.mem_cons_of_mem k hj), h.2.2⟩

theorem Follows.set {o : ω} {k : κ} {v : ν} {next : Prog κ ν α} (h : L.Follows r p (.running o (.set k v next))) :
    L.Follows r p (.running (L.write o k v) next) := by
  have hview : L.view r (L.write o k v) = Function.update (L.view r o) k v := by
    funext j
    rw [L.view_write, Function.update_apply]
  obtain ⟨hdenote, hreads, hwrites⟩ := h
  refine ⟨?_, ?_, fun j => ?_⟩
  · rw [hview]
    exact hdenote
  · rw [hview]
    exact hreads
  · rw [hview, hwrites, L.find_write, Prog.writes, List.mem_cons]
    by_cases hj : j = k
    · simp [hj]
    · simp [hj]

theorem Follows.mem_writes {o : ω} {a : α} (h : L.Follows r p (.running o (.ret a))) {l : List (Σ _ : κ, ν)}
    (hl : l.Perm (L.entries o)) (k : κ) : k ∈ p.writes r ↔ k ∈ l.keys := by
  rw [h.2.2, Prog.writes, or_iff_left List.not_mem_nil, ← L.dlookup_entries,
    ← List.perm_dlookup k ((List.perm_nodupKeys hl).mpr (L.nodup_entries o)) hl, ← Option.isSome_iff_ne_none,
    List.dlookup_isSome]

theorem Follows.merge {o : ω} {a : α} (h : L.Follows r p (.running o (.ret a))) {l : List (Σ _ : κ, ν)}
    (hl : l.Perm (L.entries o)) : L.Follows r p (.merging l a) := by
  have hn : l.NodupKeys := (List.perm_nodupKeys hl).mpr (L.nodup_entries o)
  refine ⟨congrArg Prod.fst h.1, hn, fun e he => ⟨?_, ?_⟩⟩
  · exact (h.mem_writes hl e.1).mpr (List.mem_keys_of_mem he)
  · have hfind : L.find o e.1 = some e.2 := by
      rw [← L.dlookup_entries]
      exact (List.mem_dlookup_iff (L.nodup_entries o)).mpr (hl.mem_iff.mp he)
    rw [← h.1]
    change e.2 = (L.find o e.1).getD (r e.1)
    rw [hfind, Option.getD_some]

theorem landed_congr {k : κ} (hlanded : Landed r (P i) k lane ↔ Landed r (P i) k (c.lane i))
    (hlane : c'.lane = Function.update c.lane i lane) (j : ι) :
    Landed r (P j) k (c'.lane j) ↔ Landed r (P j) k (c.lane j) := by
  rw [hlane]
  revert j
  rw [Function.forall_update_iff c.lane fun j lane => Landed r (P j) k lane ↔ Landed r (P j) k (c.lane j)]
  exact ⟨hlanded, fun j _ => Iff.rfl⟩

theorem Tracks.quiet (h : L.Tracks r P c) (hfollows : L.Follows r (P i) lane)
    (hlanded : ∀ k, Landed r (P i) k lane ↔ Landed r (P i) k (c.lane i))
    (hlane : c'.lane = Function.update c.lane i lane) (hread : L.read c'.shared = L.read c.shared) :
    L.Tracks r P c' := by
  constructor
  · rw [hlane, Function.forall_update_iff c.lane fun j lane => L.Follows r (P j) lane]
    exact ⟨hfollows, fun j _ => h.follows j⟩
  · intro j k hk
    rw [hread]
    exact h.landed j k ((landed_congr (hlanded k) hlane j).mp hk)
  · intro k hk
    rw [hread]
    exact h.untouched k fun j hj => hk j ((landed_congr (hlanded k) hlane j).mpr hj)

theorem Tracks.put (hP : Prog.Independent r P) (h : L.Tracks r P c) {e : Σ _ : κ, ν} {rest : List (Σ _ : κ, ν)}
    {a : α} (hi : c.lane i = .merging (e :: rest) a) (hlane : c'.lane = Function.update c.lane i (.merging rest a))
    (hshared : c'.shared = L.put c.shared e.1 e.2) : L.Tracks r P c' := by
  have hfollows := h.follows i
  rw [hi] at hfollows
  obtain ⟨ha, hn, hentries⟩ := hfollows
  obtain ⟨hnew, hn⟩ := List.nodupKeys_cons.mp hn
  obtain ⟨hwrites, hvalue⟩ := hentries e List.mem_cons_self
  have hsame (j : ι) {k : κ} (hk : k ≠ e.1) : Landed r (P j) k (c'.lane j) ↔ Landed r (P j) k (c.lane j) := by
    refine landed_congr ?_ hlane j
    simp [hi, Landed, hk]
  have hread : L.read c'.shared = Function.update (L.read c.shared) e.1 e.2 := by rw [hshared, L.read_put]
  constructor
  · rw [hlane, Function.forall_update_iff c.lane fun j lane => L.Follows r (P j) lane]
    exact ⟨⟨ha, hn, fun e' he' => hentries e' (List.mem_cons_of_mem e he')⟩, fun j _ => h.follows j⟩
  · intro j k hk
    rw [hread]
    by_cases hke : k = e.1
    · subst hke
      -- No other lane writes the key.
      obtain rfl : j = i := by
        by_contra hji
        exact (hP j i hji e.1 hk.mem_writes).2 hwrites
      rw [Function.update_self, hvalue]
    · rw [Function.update_of_ne hke]
      exact h.landed j k ((hsame j hke).mp hk)
  · intro k hk
    have hke : k ≠ e.1 := by
      rintro rfl
      apply hk i
      rw [hlane, Function.update_self]
      exact ⟨hwrites, hnew⟩
    rw [hread, Function.update_of_ne hke]
    exact h.untouched k fun j hj => hk j ((hsame j hke).mpr hj)

theorem Tracks.step (hP : Prog.Independent r P) (h : L.Tracks r P c) (hstep : L.Step c c') : L.Tracks r P c' := by
  obtain ⟨i, lane, hmove, hlane⟩ := hstep
  have hfollows := h.follows i
  generalize hi : c.lane i = before at hmove hfollows
  generalize hb : c'.shared = after at hmove
  cases hmove with
  | get =>
    rw [h.view_eq hP hi] at hlane
    refine h.quiet hfollows.get (fun k => ?_) hlane (by rw [hb])
    rw [hi]
    exact Iff.rfl
  | set =>
    refine h.quiet hfollows.set (fun k => ?_) hlane (by rw [hb])
    rw [hi]
    exact Iff.rfl
  | merge hl =>
    refine h.quiet (hfollows.merge hl) (fun k => ?_) hlane (by rw [hb])
    rw [hi]
    exact iff_of_false (fun hk => hk.2 ((hfollows.mem_writes hl k).mp hk.1)) id
  | put => exact h.put hP hi hlane hb
  | close =>
    have hmerged : L.Follows r (P i) (.merged _) := hfollows.1
    refine h.quiet hmerged (fun k => ?_) hlane (by rw [hb, L.read_close])
    rw [hi]
    simp [Landed]

theorem tracks_of_run (b : β) (hP : Prog.Independent (L.read b) P) (h : ReflTransGen L.Step (L.start b P) c) :
    L.Tracks (L.read b) P c := by
  induction h with
  | refl => exact tracks_start b P
  | tail _ hstep ih => exact ih.step hP hstep

end Tracks

section Outcomes

variable {L} {b : β} {P : ι → Prog κ ν α} {c : State β ω κ ν α ι} {order : List ι}

theorem lane_of_complete (hP : Prog.Independent (L.read b) P) (h : ReflTransGen L.Step (L.start b P) c)
    (hc : Complete c) (i : ι) : c.lane i = .merged ((P i).denote (L.read b)).1 := by
  have hfollows := (tracks_of_run b hP h).follows i
  obtain ⟨a, ha⟩ := hc i
  rw [ha] at hfollows ⊢
  exact congrArg Lane.merged hfollows

/-- However the lanes have interleaved, the store reads as after one program at a time. -/
theorem read_of_complete (hP : Prog.Independent (L.read b) P) (h : ReflTransGen L.Step (L.start b P) c)
    (hc : Complete c) (hn : order.Nodup) (hall : ∀ i, i ∈ order) :
    L.read c.shared = Prog.denoteAll (order.map P) (L.read b) := by
  have htracks := tracks_of_run b hP h
  have hlanded (i : ι) (k : κ) : Landed (L.read b) (P i) k (c.lane i) ↔ k ∈ (P i).writes (L.read b) := by
    obtain ⟨a, ha⟩ := hc i
    rw [ha]
    exact Iff.rfl
  funext k
  obtain ⟨hwritten, hunwritten⟩ := hP.denoteAll hn k
  by_cases hk : ∃ i, k ∈ (P i).writes (L.read b)
  · obtain ⟨i, hi⟩ := hk
    rw [hwritten i (hall i) hi]
    exact htracks.landed i k ((hlanded i k).mpr hi)
  · rw [not_exists] at hk
    rw [hunwritten fun i _ => hk i]
    exact htracks.untouched k fun i hi => hk i ((hlanded i k).mp hi)

def putAll (L : Lanes β ω κ ν α) (b : β) (l : List (Σ _ : κ, ν)) : β := l.foldl (fun b e => L.put b e.1 e.2) b

theorem moves_merging (b : β) (l : List (Σ _ : κ, ν)) (a : α) :
    ReflTransGen L.Move (b, .merging l a) (L.close (L.putAll b l) a, .merged a) := by
  induction l generalizing b with
  | nil => exact .single Move.close
  | cons e l ih => exact .head Move.put (ih _)

theorem moves_running (b : β) (p : Prog κ ν α) (o : ω) {l : List (Σ _ : κ, ν)}
    (hl : l.Perm (L.entries (L.run (L.read b) p o).2)) :
    ReflTransGen L.Move (b, .running o p)
      (L.close (L.putAll b l) (L.run (L.read b) p o).1, .merged (L.run (L.read b) p o).1) := by
  induction p generalizing o with
  | ret a => exact .head (Move.merge hl) (moves_merging b l a)
  | get k next ih => exact .head Move.get (ih _ o hl)
  | set k v next ih => exact .head Move.set (ih _ hl)

theorem exists_moves (b : β) (lane : Lane ω κ ν α) : ∃ b' a, ReflTransGen L.Move (b, lane) (b', .merged a) := by
  cases lane with
  | running o p => exact ⟨_, _, moves_running b p o (.refl _)⟩
  | merging l a => exact ⟨_, a, moves_merging b l a⟩
  | merged a => exact ⟨b, a, .refl⟩

theorem run_of_moves {i : ι} {y : β × Lane ω κ ν α} (h : ReflTransGen L.Move (c.shared, c.lane i) y) :
    ReflTransGen L.Step c ⟨y.1, Function.update c.lane i y.2⟩ := by
  induction h with
  | refl =>
    rw [Function.update_eq_self]
  | @tail y z _ hmove ih =>
    apply ih.tail
    refine ⟨i, z.2, ?_, ?_⟩
    · dsimp only
      rw [Function.update_self]
      exact hmove
    · rw [Function.update_idem]

theorem exists_complete (hall : ∀ i, i ∈ order) (c : State β ω κ ν α ι) :
    ∃ c', ReflTransGen L.Step c c' ∧ Complete c' := by
  have hsome : ∃ c', ReflTransGen L.Step c c' ∧ ∀ i ∈ order, ∃ a, c'.lane i = .merged a := by
    clear hall
    induction order with
    | nil => exact ⟨c, .refl, nofun⟩
    | cons i order ih =>
      obtain ⟨c', hrun, hc'⟩ := ih
      obtain ⟨b, a, hmoves⟩ := exists_moves (L := L) c'.shared (c'.lane i)
      refine ⟨_, hrun.trans (run_of_moves hmoves), fun j hj => ?_⟩
      by_cases hji : j = i
      · subst hji
        exact ⟨a, Function.update_self _ _ _⟩
      · obtain ⟨a', ha'⟩ := hc' j ((List.mem_cons.mp hj).resolve_left hji)
        exact ⟨a', (Function.update_of_ne hji _ _).trans ha'⟩
  obtain ⟨c', hrun, hc'⟩ := hsome
  exact ⟨c', hrun, fun i => hc' i (hall i)⟩

end Outcomes

end Lanes

end Zephyria
