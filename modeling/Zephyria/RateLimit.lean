import Zephyria.Lib.Windows

namespace Zephyria

/-- A message as `readLoop` has decoded it: the time on the clock in nanoseconds, the length of the
payload, and whether the peer is trusted by then. -/
structure Arrival where
  now : ℕ
  size : ℕ
  isTrusted : Bool

structure RateLimiter where
  lastMsgTime : ℕ
  msgsThisSec : ℕ

inductive ReadOutcome where
  | handled
  | rateExceeded
  | oversized
deriving DecidableEq

def second : ℕ := 1_000_000_000

def maxMessageSize : ℕ := 10 * 1024 * 1024

def messageLimit (isTrusted : Bool) : ℕ := if isTrusted then 10000 else 100

namespace RateLimiter

variable (r : RateLimiter)

def Restarts (a : Arrival) : Prop := a.now - r.lastMsgTime > second

instance (a : Arrival) : Decidable (r.Restarts a) := inferInstanceAs (Decidable (_ > _))

def count (a : Arrival) : RateLimiter :=
  if r.Restarts a then ⟨a.now, 1⟩ else { r with msgsThisSec := r.msgsThisSec + 1 }

def outcome (a : Arrival) : ReadOutcome :=
  if (r.count a).msgsThisSec > messageLimit a.isTrusted then .rateExceeded
  else if a.size > maxMessageSize then .oversized
  else .handled

def readLoop (r : RateLimiter) : List Arrival → List Arrival
  | [] => []
  | a :: arrivals =>
    match r.outcome a with
    | .handled => a :: readLoop (r.count a) arrivals
    | .rateExceeded | .oversized => []

def after (l : List Arrival) : RateLimiter := l.foldl count r

def RestartsAt (l : List Arrival) (k : ℕ) : Prop := ∃ a, l[k]? = some a ∧ (r.after (l.take k)).Restarts a

end RateLimiter

def readMessages (start : ℕ) (arrivals : List Arrival) : List Arrival := RateLimiter.readLoop ⟨start, 0⟩ arrivals

section Loop

variable {r : RateLimiter} {arrivals l : List Arrival} {a : Arrival}

theorem readLoop_initial (r : RateLimiter) (arrivals : List Arrival) : r.readLoop arrivals <+: arrivals := by
  induction arrivals generalizing r with
  | nil => exact List.prefix_rfl
  | cons a arrivals ih =>
    unfold RateLimiter.readLoop
    split
    · exact List.cons_prefix_cons.mpr ⟨rfl, ih _⟩
    · exact List.nil_prefix
    · exact List.nil_prefix

theorem after_append (r : RateLimiter) (l l' : List Arrival) : r.after (l ++ l') = (r.after l).after l' :=
  List.foldl_append

theorem after_take_split (r : RateLimiter) (l : List Arrival) {k n : ℕ} (h : k ≤ n) :
    r.after (l.take n) = (r.after (l.take k)).after ((l.take n).drop k) := by
  have hsplit := List.take_append_drop k (l.take n)
  rw [List.take_take, Nat.min_eq_left h] at hsplit
  rw [← after_append, hsplit]

theorem outcome_of_readLoop {i : ℕ} (h : (r.readLoop arrivals)[i]? = some a) :
    (r.after ((r.readLoop arrivals).take i)).outcome a = .handled := by
  induction arrivals generalizing r i with
  | nil => cases h
  | cons b arrivals ih =>
    rw [RateLimiter.readLoop] at h ⊢
    cases hout : r.outcome b with
    | handled =>
      rw [hout] at h
      cases i with
      | zero =>
        obtain rfl : b = a := by simpa using h
        exact hout
      | succ i => exact ih (by simpa using h)
    | rateExceeded =>
      rw [hout] at h
      cases h
    | oversized =>
      rw [hout] at h
      cases h

theorem readLoop_eq_self_iff : r.readLoop arrivals = arrivals ↔
    ∀ i a, arrivals[i]? = some a → (r.after (arrivals.take i)).outcome a = .handled := by
  constructor
  · intro h i a ha
    rw [← h] at ha
    have hout := outcome_of_readLoop ha
    rwa [h] at hout
  · intro h
    induction arrivals generalizing r with
    | nil => rfl
    | cons a arrivals ih =>
      have hout : r.outcome a = .handled := h 0 a rfl
      rw [RateLimiter.readLoop, hout]
      exact congrArg (a :: ·) (ih fun i b hb => h (i + 1) b hb)

theorem count_msgsThisSec_le (r : RateLimiter) (a : Arrival) : (r.count a).msgsThisSec ≤ r.msgsThisSec + 1 := by
  rw [RateLimiter.count]
  split
  · exact Nat.le_add_left 1 _
  · exact le_rfl

theorem outcome_ne_rateExceeded (r : RateLimiter) (h : r.msgsThisSec + l.length < 100) (a : Arrival) :
    (r.after l).outcome a ≠ .rateExceeded := by
  induction l generalizing r with
  | nil =>
    have hcount := count_msgsThisSec_le r a
    have hlimit : 100 ≤ messageLimit a.isTrusted := by cases a.isTrusted <;> decide
    rw [List.length_nil] at h
    change r.outcome a ≠ _
    rw [RateLimiter.outcome, if_neg (by omega)]
    split
    · exact nofun
    · exact nofun
  | cons b l ih =>
    have hcount := count_msgsThisSec_le r b
    rw [List.length_cons] at h
    exact ih (r.count b) (by omega)

theorem msgsThisSec_le (h : r.outcome a = .handled) (htrust : a.isTrusted = false) :
    (r.count a).msgsThisSec ≤ 100 := by
  unfold RateLimiter.outcome at h
  split at h
  · cases h
  next hle =>
    rw [htrust] at hle
    exact Nat.le_of_not_lt hle

theorem msgsThisSec_pos (r : RateLimiter) (a : Arrival) : 1 ≤ (r.count a).msgsThisSec := by
  unfold RateLimiter.count
  split
  · exact le_rfl
  · exact Nat.le_add_left 1 _

theorem after_take_succ {i : ℕ} (h : l[i]? = some a) : r.after (l.take (i + 1)) = (r.after (l.take i)).count a := by
  rw [List.take_add_one, h]
  exact after_append r _ [a]

theorem msgsThisSec_after {i n : ℕ} (hlt : i + n ≤ l.length) (h : ∀ k, i ≤ k → k < i + n → ¬r.RestartsAt l k) :
    (r.after (l.take (i + n))).msgsThisSec = (r.after (l.take i)).msgsThisSec + n := by
  induction n with
  | zero => rfl
  | succ n ih =>
    have hget : l[i + n]? = some l[i + n] := List.getElem?_eq_getElem (by omega)
    have hnot : ¬(r.after (l.take (i + n))).Restarts l[i + n] := fun hrestart =>
      h (i + n) (by omega) (by omega) ⟨_, hget, hrestart⟩
    rw [← Nat.add_assoc, after_take_succ hget, RateLimiter.count, if_neg hnot]
    change (r.after (l.take (i + n))).msgsThisSec + 1 = _
    rw [ih (by omega) fun k hk hkn => h k hk (by omega), Nat.add_assoc]

theorem exists_restart (htrust : ∀ a ∈ arrivals, a.isTrusted = false) {i : ℕ}
    (hlt : i + 100 < (r.readLoop arrivals).length) :
    ∃ k, i < k ∧ k ≤ i + 100 ∧ r.RestartsAt (r.readLoop arrivals) k := by
  by_contra hnone
  have hfirst := List.getElem?_eq_getElem (show i < (r.readLoop arrivals).length by omega)
  have hlast := List.getElem?_eq_getElem hlt
  have hcount := msgsThisSec_after (r := r) (l := r.readLoop arrivals) (i := i + 1) (n := 100) (by omega)
    fun k hk hkn hrestart => hnone ⟨k, by omega, by omega, hrestart⟩
  have hmem : (r.readLoop arrivals)[i + 100] ∈ arrivals := (readLoop_initial r arrivals).subset (List.getElem_mem hlt)
  have hbound := msgsThisSec_le (outcome_of_readLoop hlast) (htrust _ hmem)
  have hpos := msgsThisSec_pos (r.after ((r.readLoop arrivals).take i)) (r.readLoop arrivals)[i]
  rw [← after_take_succ hfirst] at hpos
  rw [← after_take_succ hlast] at hbound
  rw [show i + 1 + 100 = i + 100 + 1 by omega] at hcount
  omega

theorem lastMsgTime_le_count (r : RateLimiter) (a : Arrival) : r.lastMsgTime ≤ (r.count a).lastMsgTime := by
  rw [RateLimiter.count]
  split
  next hrestart =>
    have hlater : second < a.now - r.lastMsgTime := hrestart
    change r.lastMsgTime ≤ a.now
    omega
  next => exact le_rfl

theorem lastMsgTime_le_after (r : RateLimiter) (l : List Arrival) : r.lastMsgTime ≤ (r.after l).lastMsgTime := by
  induction l generalizing r with
  | nil => exact le_rfl
  | cons a l ih => exact (lastMsgTime_le_count r a).trans (ih (r.count a))

theorem RateLimiter.RestartsAt.le_lastMsgTime {k n : ℕ} (h : r.RestartsAt l k) (ha : l[k]? = some a) (hkn : k < n) :
    a.now ≤ (r.after (l.take n)).lastMsgTime := by
  obtain ⟨b, hb, hrestart⟩ := h
  obtain rfl : a = b := Option.some.inj (ha.symm.trans hb)
  have hcount : (r.after (l.take (k + 1))).lastMsgTime = a.now := by
    rw [after_take_succ ha, RateLimiter.count, if_pos hrestart]
  rw [after_take_split r l hkn, ← hcount]
  exact lastMsgTime_le_after _ _

end Loop

section Counts

variable {start : ℕ} {arrivals : List Arrival}

end Counts

section Windows

variable {arrivals : List Arrival}

theorem readMessages_pairwise (start : ℕ) (hs : arrivals.Pairwise fun a b => a.now ≤ b.now) :
    (readMessages start arrivals).Pairwise fun a b => a.now ≤ b.now :=
  hs.sublist (readLoop_initial _ _).sublist

theorem window_le_two_hundred (start : ℕ) (arrivals : List Arrival)
    (hs : arrivals.Pairwise fun a b => a.now ≤ b.now) (htrust : ∀ a ∈ arrivals, a.isTrusted = false) (t : ℕ) :
    (inWindow Arrival.now second t (readMessages start arrivals)).length ≤ 200 := by
  have hsorted := readMessages_pairwise start hs
  refine (windows_le_iff hsorted).mpr (fun i a b ha hb => ?_) t
  obtain ⟨hlt, -⟩ := List.getElem?_eq_some_iff.mp hb
  have hrestarts {i : ℕ} (h : i + 100 < (readMessages start arrivals).length) := exists_restart htrust h
  obtain ⟨k, hik, hk, hrestart⟩ := hrestarts (i := i) (by omega)
  obtain ⟨j, hkj, hj, hrestart'⟩ := hrestarts (i := i + 100) (by omega)
  obtain ⟨c, hc, hearly⟩ := hrestart
  obtain ⟨d, hd, hlate⟩ := hrestart'
  have hac := le_of_getElem? hsorted hik.le ha hc
  have hdb := le_of_getElem? hsorted (show j ≤ i + 200 by omega) hd hb
  have hlast : c.now ≤ (RateLimiter.after ⟨start, 0⟩ ((readMessages start arrivals).take j)).lastMsgTime :=
    RateLimiter.RestartsAt.le_lastMsgTime ⟨c, hc, hearly⟩ hc (show k < j by omega)
  have hgap : second <
      d.now - (RateLimiter.after ⟨start, 0⟩ ((readMessages start arrivals).take j)).lastMsgTime := hlate
  omega

end Windows

end Zephyria
