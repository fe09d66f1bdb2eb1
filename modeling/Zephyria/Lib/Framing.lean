import Zephyria.Lib.Rlp

/-!
A reader that takes one value after the other from a stream of bytes, but forgets with each value what it
has read beyond its end.
-/

namespace Zephyria.Rlp

variable {α : Type*}

theorem Codec.decode_nil (c : Codec α) : c.decode [] = none := by
  cases h : c.decode [] with
  | none => rfl
  | some x =>
    have hnil := c.encode_decode [] x.1 x.2 h
    exact absurd (List.append_eq_nil_iff.mp hnil.symm).1 (c.encode_ne_nil x.1)

theorem Codec.exists_of_flatMap_append (c : Codec α) {xs ys : List α} {tail : List UInt8}
    (hlen : (ys.flatMap c.encode).length < 256 ^ 8) (h : xs.flatMap c.encode ++ tail = ys.flatMap c.encode) :
    ∃ zs, ys = xs ++ zs ∧ tail = zs.flatMap c.encode := by
  induction xs generalizing ys with
  | nil => exact ⟨ys, rfl, h⟩
  | cons x xs ih =>
    rw [List.flatMap_cons, List.append_assoc] at h
    cases ys with
    | nil => exact absurd (List.append_eq_nil_iff.mp h).1 (c.encode_ne_nil x)
    | cons y ys =>
      have hbytes := congrArg List.length h
      rw [List.flatMap_cons, List.length_append] at hlen
      simp only [List.flatMap_cons, List.length_append] at hbytes
      have hx := c.decode_encode x (xs.flatMap c.encode ++ tail) (by omega)
      rw [h, List.flatMap_cons, c.decode_encode y _ (by omega)] at hx
      obtain ⟨rfl, hrest⟩ := Prod.mk.inj (Option.some.inj hx)
      obtain ⟨zs, rfl, htail⟩ := ih (by omega) hrest.symm
      exact ⟨zs, rfl, htail⟩

structure Reader (α : Type*) where
  acc : List UInt8
  received : List α
  dropped : List UInt8

namespace Reader

def start : Reader α := ⟨[], [], []⟩

def feed (c : Codec α) (r : Reader α) (chunk : List UInt8) : Reader α :=
  match c.decode (r.acc ++ chunk) with
  | some (a, rest) => ⟨[], r.received ++ [a], r.dropped ++ rest⟩
  | none => { r with acc := r.acc ++ chunk }

variable {c : Codec α} {r : Reader α}

theorem feed_cases (c : Codec α) (r : Reader α) (chunk : List UInt8) :
    (∃ a rest, r.acc ++ chunk = c.encode a ++ rest ∧
      r.feed c chunk = ⟨[], r.received ++ [a], r.dropped ++ rest⟩) ∨
      c.decode (r.acc ++ chunk) = none ∧ r.feed c chunk = { r with acc := r.acc ++ chunk } := by
  rw [feed]
  cases hdecode : c.decode (r.acc ++ chunk) with
  | none => exact .inr ⟨rfl, rfl⟩
  | some x => exact .inl ⟨x.1, x.2, c.encode_decode _ _ _ hdecode, rfl⟩

/-- What the reader has taken in so far, in the order in which it came, if nothing was forgotten. -/
structure Keeps (c : Codec α) (r : Reader α) (input : List UInt8) : Prop where
  length : (r.received.flatMap c.encode).length + r.dropped.length + r.acc.length = input.length
  bytes : r.dropped = [] → r.received.flatMap c.encode ++ r.acc = input
  incomplete : c.decode r.acc = none

theorem keeps_start (c : Codec α) : Keeps c start [] := ⟨rfl, fun _ => rfl, c.decode_nil⟩

theorem Keeps.feed {input : List UInt8} (h : Keeps c r input) (chunk : List UInt8) :
    Keeps c (r.feed c chunk) (input ++ chunk) := by
  obtain ⟨a, rest, hbytes, hfeed⟩ | ⟨hnone, hfeed⟩ := feed_cases c r chunk
  · have hlen := congrArg List.length hbytes
    simp only [List.length_append] at hlen
    have hold := h.length
    rw [hfeed]
    refine ⟨?_, fun hdropped => ?_, c.decode_nil⟩
    · simp only [List.flatMap_append, List.flatMap_singleton, List.length_append, List.length_nil]
      omega
    · obtain ⟨hnil, hrest⟩ := List.append_eq_nil_iff.mp hdropped
      rw [hrest, List.append_nil] at hbytes
      simp only [List.flatMap_append, List.flatMap_singleton, List.append_nil]
      rw [← hbytes, ← List.append_assoc, h.bytes hnil]
  · rw [hfeed]
    refine ⟨?_, fun hdropped => ?_, hnone⟩
    · have hold := h.length
      simp only [List.length_append]
      omega
    · rw [← List.append_assoc, h.bytes hdropped]

section Sent

variable {sent : List α} {input rest : List UInt8} (h : Keeps c r input)
  (hsent : (sent.flatMap c.encode).length < 256 ^ 8)

include h hsent

theorem Keeps.exists_pending (hinput : input ++ rest = sent.flatMap c.encode) (hdropped : r.dropped = []) :
    ∃ pending, sent = r.received ++ pending ∧ r.acc ++ rest = pending.flatMap c.encode := by
  rw [← h.bytes hdropped, List.append_assoc] at hinput
  exact c.exists_of_flatMap_append hsent hinput

end Sent

end Reader

end Zephyria.Rlp
