import Mathlib

namespace Zephyria.BigEndian

def value (bs : List UInt8) : ℕ := bs.foldl (fun n b => n * 256 + b.toNat) 0

def fixed : ℕ → ℕ → List UInt8
  | 0, _ => []
  | len + 1, n => fixed len (n / 256) ++ [UInt8.ofNat n]

def minimal (len n : ℕ) : List UInt8 := (fixed len n).dropWhile (· == 0)

theorem value_concat (bs : List UInt8) (b : UInt8) : value (bs ++ [b]) = value bs * 256 + b.toNat := by
  simp [value]

theorem value_zero_cons (bs : List UInt8) : value (0 :: bs) = value bs := rfl

theorem value_dropWhile (bs : List UInt8) : value (bs.dropWhile (· == 0)) = value bs := by
  induction bs with
  | nil => rfl
  | cons b bs ih =>
    by_cases hb : b = 0
    · subst hb
      rw [List.dropWhile_cons_of_pos (by simp), ih, value_zero_cons]
    · rw [List.dropWhile_cons_of_neg (by simpa using hb)]

theorem fixed_length (len n : ℕ) : (fixed len n).length = len := by
  induction len generalizing n with
  | zero => rfl
  | succ len ih => simp [fixed, ih]

theorem value_fixed (len n : ℕ) : value (fixed len n) = n % 256 ^ len := by
  induction len generalizing n with
  | zero => simp [fixed, value, Nat.mod_one]
  | succ len ih =>
    rw [fixed, value_concat, ih, pow_succ']
    have hb : (UInt8.ofNat n).toNat = n % 256 := by simp
    rw [hb, Nat.mod_mul]
    ring

theorem value_minimal (len n : ℕ) : value (minimal len n) = n % 256 ^ len := by
  rw [minimal, value_dropWhile, value_fixed]

theorem fixed_injective (len : ℕ) {m n : ℕ} (hm : m < 256 ^ len) (hn : n < 256 ^ len)
    (h : fixed len m = fixed len n) : m = n := by
  have hv := congrArg value h
  rwa [value_fixed, value_fixed, Nat.mod_eq_of_lt hm, Nat.mod_eq_of_lt hn] at hv

theorem value_lt (bs : List UInt8) : value bs < 256 ^ bs.length := by
  induction bs using List.reverseRecOn with
  | nil => simp [value]
  | append_singleton bs b ih =>
    have hb := b.toNat_lt
    rw [value_concat, List.length_append, List.length_singleton, pow_succ]
    omega

theorem fixed_value (bs : List UInt8) : fixed bs.length (value bs) = bs := by
  induction bs using List.reverseRecOn with
  | nil => rfl
  | append_singleton bs b ih =>
    have hb := b.toNat_lt
    have hdiv : (value bs * 256 + b.toNat) / 256 = value bs := by omega
    have hmod : UInt8.ofNat (value bs * 256 + b.toNat) = b := by
      apply UInt8.toNat_inj.mp
      rw [UInt8.toNat_ofNat']
      omega
    rw [value_concat, List.length_append, List.length_singleton, fixed, hdiv, ih, hmod]

theorem pow_le_value {b : UInt8} (hb : b ≠ 0) (bs : List UInt8) : 256 ^ bs.length ≤ value (b :: bs) := by
  induction bs using List.reverseRecOn with
  | nil =>
    have hpos : b.toNat ≠ 0 := fun h => hb (UInt8.toNat_inj.mp h)
    have hvalue : value [b] = b.toNat := by simp [value]
    rw [hvalue]
    exact Nat.one_le_iff_ne_zero.mpr hpos
  | append_singleton bs c ih =>
    rw [← List.cons_append, value_concat, List.length_append, List.length_singleton, pow_succ]
    omega

theorem value_injective {xs ys : List UInt8} (hx : xs.head? ≠ some 0) (hy : ys.head? ≠ some 0)
    (h : value xs = value ys) : xs = ys := by
  have hlength {xs ys : List UInt8} (hy : ys.head? ≠ some 0) (h : value xs = value ys) : ys.length ≤ xs.length := by
    cases ys with
    | nil => exact Nat.zero_le _
    | cons b ys =>
      have hb : b ≠ 0 := fun h0 => hy (by rw [h0]; rfl)
      have hlt : 256 ^ ys.length < 256 ^ xs.length :=
        (pow_le_value hb ys).trans_lt (h ▸ value_lt xs)
      exact (Nat.pow_lt_pow_iff_right (by decide)).mp hlt
  have hlen : xs.length = ys.length := Nat.le_antisymm (hlength hx h.symm) (hlength hy h)
  rw [← fixed_value xs, ← fixed_value ys, hlen, h]

def bytes (n : ℕ) : List UInt8 := minimal (n.log2 / 8 + 1) n

theorem value_bytes (n : ℕ) : value (bytes n) = n := by
  have hlt : n < 256 ^ (n.log2 / 8 + 1) := by
    calc n < 2 ^ (n.log2 + 1) := Nat.lt_log2_self
      _ ≤ 2 ^ (8 * (n.log2 / 8 + 1)) := Nat.pow_le_pow_right (by decide) (by omega)
      _ = 256 ^ (n.log2 / 8 + 1) := by
        rw [pow_mul]
        norm_num
  rw [bytes, value_minimal, Nat.mod_eq_of_lt hlt]

theorem head?_bytes (n : ℕ) : (bytes n).head? ≠ some 0 := by
  intro h
  have hdrop := List.head?_dropWhile_not (· == (0 : UInt8)) (fixed (n.log2 / 8 + 1) n)
  rw [bytes, minimal] at h
  rw [h] at hdrop
  simp at hdrop

theorem bytes_value {bs : List UInt8} (h : bs.head? ≠ some 0) : bytes (value bs) = bs :=
  value_injective (head?_bytes _) h (value_bytes _)

theorem length_bytes_le {n k : ℕ} (h : n < 256 ^ k) : (bytes n).length ≤ k := by
  cases hbytes : bytes n with
  | nil => exact Nat.zero_le _
  | cons b bs =>
    have hb : b ≠ 0 := fun h0 => head?_bytes n (by rw [hbytes, h0]; rfl)
    have hle := pow_le_value hb bs
    rw [← hbytes, value_bytes] at hle
    exact (Nat.pow_lt_pow_iff_right (by decide)).mp (hle.trans_lt h)

theorem head?_minimal (len n : ℕ) : (minimal len n).head? ≠ some 0 := by
  intro h
  have hdrop := List.head?_dropWhile_not (· == (0 : UInt8)) (fixed len n)
  rw [minimal] at h
  rw [h] at hdrop
  simp at hdrop

theorem length_minimal_le (len n : ℕ) : (minimal len n).length ≤ len :=
  (List.dropWhile_sublist _).length_le.trans_eq (fixed_length len n)

theorem value_append_zeros (bs : List UInt8) (j : ℕ) : value (bs ++ List.replicate j 0) = value bs * 256 ^ j := by
  induction j with
  | zero => simp
  | succ j ih =>
    rw [List.replicate_succ', ← List.append_assoc, value_concat, ih, pow_succ, ← Nat.mul_assoc, UInt8.toNat_zero,
      Nat.add_zero]

theorem minimal_mul_pow {len n j : ℕ} (hpos : 0 < n) (hlt : n * 256 ^ j < 256 ^ len) :
    minimal len (n * 256 ^ j) = minimal len n ++ List.replicate j 0 := by
  have hn : n < 256 ^ len := (Nat.le_mul_of_pos_right n (by positivity)).trans_lt hlt
  refine value_injective (head?_minimal _ _) ?_ ?_
  · cases hbytes : minimal len n with
    | nil =>
      have hvalue := value_minimal len n
      rw [hbytes, Nat.mod_eq_of_lt hn] at hvalue
      exact absurd hvalue.symm hpos.ne'
    | cons b bs =>
      have hhead := head?_minimal len n
      rw [hbytes] at hhead
      exact hhead
  · rw [value_minimal, value_append_zeros, value_minimal, Nat.mod_eq_of_lt hlt, Nat.mod_eq_of_lt hn]

end Zephyria.BigEndian
