import Zephyria.Lib.FirstFit
import Zephyria.Types

namespace Zephyria

section Schedule

/- The scheduler moves pointers to transactions around and looks only at what they point to; `tx`
is that look. -/
variable {α : Type} (tx : α → Transaction)

structure Pass (α : Type) where
  currentWave : List α
  nextQueue : List α
  touched : List Address

def passStep (p : Pass α) (x : α) : Pass α :=
  -- A failed recovery leaves the zero address in `sender`.
  let sender := (tx x).sender.getD 0
  if sender ∈ p.touched ∨ ∃ recipient ∈ (tx x).toAddr, recipient ∈ p.touched then
    { p with nextQueue := p.nextQueue ++ [x] }
  else
    { p with
      currentWave := p.currentWave ++ [x]
      touched := (tx x).toAddr.toList ++ sender :: p.touched }

def pass (queue : List α) : Pass α := queue.foldl (passStep tx) ⟨[], [], []⟩

theorem passStep_length (p : Pass α) (x : α) :
    (passStep tx p x).currentWave.length + (passStep tx p x).nextQueue.length =
      p.currentWave.length + p.nextQueue.length + 1 := by
  simp only [passStep]
  split <;> simp <;> omega

theorem foldl_passStep_length (p : Pass α) (queue : List α) :
    (queue.foldl (passStep tx) p).currentWave.length + (queue.foldl (passStep tx) p).nextQueue.length =
      p.currentWave.length + p.nextQueue.length + queue.length := by
  induction queue generalizing p with
  | nil => rfl
  | cons x queue ih =>
    rw [List.foldl_cons, ih, passStep_length, List.length_cons]
    omega

theorem pass_length (queue : List α) :
    (pass tx queue).currentWave.length + (pass tx queue).nextQueue.length = queue.length := by
  simpa [pass] using foldl_passStep_length tx ⟨[], [], []⟩ queue

def scheduleQueue (queue : List α) : List (List α) :=
  match queue with
  | [] => []
  | first :: rest =>
    match _hw : (pass tx (first :: rest)).currentWave with
    | [] =>
      -- Nothing was independent: force one to progress.
      match _hq : (pass tx (first :: rest)).nextQueue with
      | [] => []
      | forced :: others => [forced] :: scheduleQueue others
    | x :: xs => (x :: xs) :: scheduleQueue (pass tx (first :: rest)).nextQueue
termination_by queue.length
decreasing_by
  · have h := pass_length tx (first :: rest)
    rw [_hw, _hq] at h
    simp at h ⊢
    omega
  · have h := pass_length tx (first :: rest)
    rw [_hw] at h
    simp at h ⊢
    omega

end Schedule

def schedule (txs : List Transaction) : List (List Transaction) := scheduleQueue id txs

def Transaction.addresses (t : Transaction) : List Address := t.sender.getD 0 :: t.toAddr.toList

def Conflict (t u : Transaction) : Prop := ∃ a ∈ t.addresses, a ∈ u.addresses

instance : DecidableRel Conflict := fun t u =>
  inferInstanceAs (Decidable (∃ a ∈ t.addresses, a ∈ u.addresses))

section Rounds

variable {α : Type} (tx : α → Transaction)

theorem touched_iff (touched : List Address) (taken : List α)
    (ht : ∀ a, a ∈ touched ↔ ∃ y ∈ taken, a ∈ (tx y).addresses) (x : α) :
    ((tx x).sender.getD 0 ∈ touched ∨ ∃ recipient ∈ (tx x).toAddr, recipient ∈ touched) ↔
      ∃ y ∈ taken, Conflict (tx y) (tx x) := by
  have hmem (a : Address) : a ∈ (tx x).addresses ↔ a = (tx x).sender.getD 0 ∨ a ∈ (tx x).toAddr := by
    simp [Transaction.addresses]
  constructor
  · rintro (h | ⟨a, ha, h⟩)
    · obtain ⟨y, hy, hc⟩ := (ht _).mp h
      exact ⟨y, hy, _, hc, (hmem _).mpr (Or.inl rfl)⟩
    · obtain ⟨y, hy, hc⟩ := (ht _).mp h
      exact ⟨y, hy, a, hc, (hmem _).mpr (Or.inr ha)⟩
  · rintro ⟨y, hy, a, hc, ha⟩
    have hin := (ht a).mpr ⟨y, hy, hc⟩
    rcases (hmem a).mp ha with rfl | ha
    · exact Or.inl hin
    · exact Or.inr ⟨a, ha, hin⟩

theorem foldl_passStep_eq (p : Pass α) (taken queue : List α)
    (ht : ∀ a, a ∈ p.touched ↔ ∃ y ∈ taken, a ∈ (tx y).addresses) :
    (queue.foldl (passStep tx) p).currentWave =
        p.currentWave ++ (FirstFit.select (fun x y => Conflict (tx x) (tx y)) taken queue).1 ∧
      (queue.foldl (passStep tx) p).nextQueue =
        p.nextQueue ++ (FirstFit.select (fun x y => Conflict (tx x) (tx y)) taken queue).2 := by
  induction queue generalizing p taken with
  | nil => simp [FirstFit.select]
  | cons x queue ih =>
    have hx := touched_iff tx p.touched taken ht x
    by_cases hc : ∃ y ∈ taken, Conflict (tx y) (tx x)
    · have hstep : passStep tx p x = { p with nextQueue := p.nextQueue ++ [x] } := if_pos (hx.mpr hc)
      have h := ih (passStep tx p x) taken (by simpa [hstep] using ht)
      rw [List.foldl_cons, h.1, h.2, hstep]
      simp [FirstFit.select, hc]
    · have hstep : passStep tx p x = { p with
          currentWave := p.currentWave ++ [x]
          touched := (tx x).toAddr.toList ++ (tx x).sender.getD 0 :: p.touched } :=
        if_neg fun h => hc (hx.mp h)
      have h := ih (passStep tx p x) (x :: taken) (by
        intro a
        simp only [hstep, List.mem_append, List.mem_cons, exists_eq_or_imp, ← ht a]
        simp only [Transaction.addresses, List.mem_cons]
        tauto)
      rw [List.foldl_cons, h.1, h.2, hstep]
      simp [FirstFit.select, hc]

theorem pass_eq (queue : List α) :
    (pass tx queue).currentWave =
        (FirstFit.select (fun x y => Conflict (tx x) (tx y)) [] queue).1 ∧
      (pass tx queue).nextQueue =
        (FirstFit.select (fun x y => Conflict (tx x) (tx y)) [] queue).2 := by
  simpa [pass] using foldl_passStep_eq tx ⟨[], [], []⟩ [] queue (by simp)

theorem scheduleQueue_eq_rounds (queue : List α) :
    scheduleQueue tx queue = FirstFit.rounds (fun x y => Conflict (tx x) (tx y)) queue := by
  induction queue using FirstFit.rounds.induct fun x y => Conflict (tx x) (tx y) with
  | case1 => rw [scheduleQueue, FirstFit.rounds_nil]
  | case2 queue hne ih =>
    obtain ⟨hwave, hnext⟩ := pass_eq tx queue
    obtain ⟨first, rest, rfl⟩ := List.exists_cons_of_ne_nil hne
    rw [FirstFit.rounds_of_ne_nil _ hne, ← ih, ← hnext, ← hwave, scheduleQueue]
    split
    next hw =>
      rw [hwave] at hw
      exact absurd hw (FirstFit.select_fst_ne_nil _ hne)
    next x xs hw => rw [hw]

end Rounds

theorem schedule_eq_rounds (txs : List Transaction) : schedule txs = FirstFit.rounds Conflict txs :=
  scheduleQueue_eq_rounds id txs

theorem schedule_singleton (tx : Transaction) : schedule [tx] = [[tx]] := by
  rw [schedule_eq_rounds, FirstFit.rounds_of_ne_nil Conflict (List.cons_ne_nil tx [])]
  simp [FirstFit.select, FirstFit.rounds_nil]

section Order

variable (txs : List Transaction)

def positions : List (List (Transaction × ℕ)) := scheduleQueue Prod.fst txs.zipIdx

theorem schedule_eq_positions : schedule txs = (positions txs).map (List.map Prod.fst) := by
  have hz : txs.zipIdx.map Prod.fst = txs := by simp
  have h := FirstFit.rounds_map Conflict Prod.fst txs.zipIdx
  rw [hz] at h
  rw [schedule, positions, scheduleQueue_eq_rounds, scheduleQueue_eq_rounds]
  exact h

structure ConflictFreePartition : Prop where
  passes : (schedule txs).length ≤ txs.length
  nonempty : ∀ w ∈ schedule txs, w ≠ []
  complete : (schedule txs).flatten.Perm txs
  -- Equal transactions stay apart by their positions in the block.
  placed : schedule txs = (positions txs).map (List.map Prod.fst) ∧ (positions txs).flatten.Perm txs.zipIdx
  ordered : ∀ w ∈ positions txs, w.Pairwise fun x y => x.2 < y.2
  independent : ∀ w ∈ schedule txs, w.Pairwise fun t u => t.addresses.Disjoint u.addresses

def InWave (i a : ℕ) : Prop := ∃ w, (positions txs)[a]? = some w ∧ ∃ t, (t, i) ∈ w

def ConflictAt (i j : ℕ) : Prop := ∃ t ∈ txs[i]?, ∃ u ∈ txs[j]?, Conflict t u

instance : DecidableRel (ConflictAt txs) := fun i j =>
  inferInstanceAs (Decidable (∃ t ∈ txs[i]?, ∃ u ∈ txs[j]?, Conflict t u))

def RespectsOrder : Prop :=
  ∀ i j, i < j → ConflictAt txs i j → ∃ a b, a < b ∧ InWave txs i a ∧ InWave txs j b

abbrev Clash (x y : Transaction × ℕ) : Prop := Conflict x.1 y.1

def waveOf (i : ℕ) : ℕ := (txs[i]?.map fun t => FirstFit.level Clash txs.zipIdx (t, i)).getD 0

theorem zipIdx_tagged : FirstFit.Tagged Prod.snd txs.zipIdx := by
  rw [FirstFit.Tagged, ← List.pairwise_map (f := Prod.snd) (R := (· < ·))]
  simpa using List.pairwise_lt_range'

theorem flatten_schedule_perm : (schedule txs).flatten.Perm txs := by
  rw [schedule_eq_rounds]
  exact FirstFit.rounds_flatten_perm Conflict txs

theorem schedule_waves_ne_nil {wave : List Transaction} (h : wave ∈ schedule txs) : wave ≠ [] := by
  rw [schedule_eq_rounds] at h
  exact (FirstFit.rounds_sublist Conflict h).1

theorem schedule_partition : ConflictFreePartition txs where
  passes := by
    rw [schedule_eq_rounds]
    exact FirstFit.rounds_length_le Conflict txs
  nonempty _ hw := schedule_waves_ne_nil txs hw
  complete := flatten_schedule_perm txs
  placed := by
    refine ⟨schedule_eq_positions txs, ?_⟩
    rw [positions, scheduleQueue_eq_rounds]
    exact FirstFit.rounds_flatten_perm _ txs.zipIdx
  ordered w hw := by
    rw [positions, scheduleQueue_eq_rounds] at hw
    exact (zipIdx_tagged txs).sublist (FirstFit.rounds_sublist _ hw).2
  independent w hw := by
    rw [schedule_eq_rounds] at hw
    apply (FirstFit.rounds_pairwise Conflict hw).imp
    intro t u hclear a ht hu
    exact hclear ⟨a, ht, hu⟩

theorem mem_zipIdx_iff {t : Transaction} {i : ℕ} : (t, i) ∈ txs.zipIdx ↔ txs[i]? = some t :=
  List.mem_zipIdx_iff_getElem?

theorem inWave_iff (i a : ℕ) : InWave txs i a ↔ i < txs.length ∧ a = waveOf txs i := by
  have hround (t : Transaction) := FirstFit.mem_round_iff Clash Prod.snd (zipIdx_tagged txs) (t, i) a
  rw [InWave, positions, scheduleQueue_eq_rounds]
  constructor
  · rintro ⟨w, hw, t, ht⟩
    obtain ⟨hmem, hl⟩ := (hround t).mp ⟨w, hw, ht⟩
    have hi := (mem_zipIdx_iff txs).mp hmem
    exact ⟨(List.getElem?_eq_some_iff.mp hi).1, by rw [hl, waveOf, hi]; rfl⟩
  · rintro ⟨hi, hl⟩
    have hget : txs[i]? = some txs[i] := List.getElem?_eq_getElem hi
    rw [waveOf, hget] at hl
    obtain ⟨w, hw, ht⟩ := (hround txs[i]).mpr ⟨(mem_zipIdx_iff txs).mpr hget, hl⟩
    exact ⟨w, hw, txs[i], ht⟩

theorem waveOf_mex : FirstFit.Mex (ConflictAt txs) txs.length (waveOf txs) where
  below j hj m hm := by
    have hget : txs[j]? = some txs[j] := List.getElem?_eq_getElem hj
    rw [waveOf, hget] at hm
    obtain ⟨⟨t, i⟩, hmem, hij, hc, hl⟩ := FirstFit.exists_level Clash Prod.snd (zipIdx_tagged txs)
      ((mem_zipIdx_iff txs).mpr hget) hm
    have hi := (mem_zipIdx_iff txs).mp hmem
    exact ⟨i, hij, ⟨t, hi, txs[j], hget, hc⟩, by rw [waveOf, hi]; exact hl⟩
  fresh j hj i hij hc := by
    obtain ⟨t, ht, u, hu, hc⟩ := hc
    rw [Option.mem_def] at ht hu
    rw [waveOf, waveOf, ht, hu]
    exact FirstFit.level_ne Clash Prod.snd (zipIdx_tagged txs) ((mem_zipIdx_iff txs).mpr hu)
      ((mem_zipIdx_iff txs).mpr ht) hij hc

theorem respectsOrder_iff_waveOf : RespectsOrder txs ↔
    ∀ j < txs.length, ∀ i < j, ConflictAt txs i j → waveOf txs i < waveOf txs j := by
  simp only [RespectsOrder, inWave_iff]
  constructor
  · intro h j hj i hij hc
    obtain ⟨a, b, hab, ⟨-, rfl⟩, -, rfl⟩ := h i j hij hc
    exact hab
  · intro h i j hij hc
    obtain ⟨t, ht, u, hu, -⟩ := id hc
    have hi := (List.getElem?_eq_some_iff.mp ht).1
    have hj := (List.getElem?_eq_some_iff.mp hu).1
    exact ⟨_, _, h j hj i hij hc, ⟨hi, rfl⟩, hj, rfl⟩

/-- Block order survives exactly when, for every transaction, its earlier conflicts reach every
depth below its own: a skipped depth is a wave into which it slips too early. -/
theorem schedule_order_iff : RespectsOrder txs ↔ FirstFit.Gapless (ConflictAt txs) txs.length :=
  (respectsOrder_iff_waveOf txs).trans (waveOf_mex txs).respects_iff

end Order

def transfer (nonce : UInt64) (sender recipient : Address) : Transaction where
  hash := 0
  type := .legacy
  chainId := 1338
  sender := some sender
  nonce := nonce
  gas := 21000
  gasFeeCap := 0
  gasTipCap := 0
  toAddr := some recipient
  value := 1
  data := []
  accessList := []
  v := 2711
  r := 1
  s := 1
  size := 100

theorem schedule_reorders_sender :
    ¬RespectsOrder [transfer 0 1 2, transfer 0 3 2, transfer 1 3 4] := by
  intro h
  have hp : positions [transfer 0 1 2, transfer 0 3 2, transfer 1 3 4] =
      [[(transfer 0 1 2, 0), (transfer 1 3 4, 2)], [(transfer 0 3 2, 1)]] := by
    rw [positions, scheduleQueue_eq_rounds]
    simp [FirstFit.select, Conflict, Transaction.addresses, transfer, FirstFit.rounds_of_ne_nil,
      FirstFit.rounds_nil]
  have hc : ConflictAt [transfer 0 1 2, transfer 0 3 2, transfer 1 3 4] 1 2 :=
    ⟨transfer 0 3 2, rfl, transfer 1 3 4, rfl, 3, List.mem_cons_self, List.mem_cons_self⟩
  obtain ⟨a, b, hab, -, w, hw, t, ht⟩ := h 1 2 (by decide) hc
  rw [hp] at hw
  obtain _ | _ | b := b
  · omega
  · obtain rfl : [(transfer 0 3 2, 1)] = w := by simpa using hw
    simp at ht
  · simp at hw

end Zephyria
