import Zephyria.Lib.BigEndian

namespace Zephyria.Rlp

open BigEndian

def header (offset size : ℕ) : List UInt8 :=
  if size < 56 then [UInt8.ofNat (offset + size)]
  else UInt8.ofNat (offset + 55 + (bytes size).length) :: bytes size

def readSize (len : ℕ) (input : List UInt8) : Option (ℕ × List UInt8) :=
  let size := input.take len
  if size.length < len ∨ size.head? = some 0 ∨ value size < 56 then none
  else some (value size, input.drop len)

def readHeader (offset : ℕ) (first : UInt8) (input : List UInt8) : Option (ℕ × List UInt8) :=
  if first.toNat < offset + 56 then some (first.toNat - offset, input)
  else readSize (first.toNat - (offset + 55)) input

section Header

variable {offset size : ℕ} {first : UInt8} {input rest : List UInt8}

theorem readSize_bytes (hsize : 56 ≤ size) (rest : List UInt8) :
    readSize (bytes size).length (bytes size ++ rest) = some (size, rest) := by
  unfold readSize
  dsimp only
  rw [List.take_left, List.drop_left, value_bytes, if_neg]
  have hhead := head?_bytes size
  rintro (h | h | h)
  · exact absurd h (lt_irrefl _)
  · exact hhead h
  · omega

theorem eq_of_readSize {len : ℕ} (h : readSize len input = some (size, rest)) :
    56 ≤ size ∧ (bytes size).length = len ∧ input = bytes size ++ rest := by
  unfold readSize at h
  dsimp only at h
  split at h
  next => cases h
  next hread =>
    obtain ⟨rfl, rfl⟩ := Prod.mk.inj (Option.some.inj h)
    push Not at hread
    obtain ⟨hlen, hhead, hsize⟩ := hread
    rw [bytes_value hhead, List.take_append_drop]
    exact ⟨hsize, Nat.le_antisymm (List.length_take_le _ _) hlen, rfl⟩

theorem header_cons (offset size : ℕ) (hsize : size < 256 ^ 8) (hoffset : offset + 64 ≤ 256) : ∃ first tail,
    header offset size = first :: tail ∧ offset ≤ first.toNat ∧ first.toNat < offset + 64 ∧
      ∀ rest, readHeader offset first (tail ++ rest) = some (size, rest) := by
  unfold header
  split
  next hsmall =>
    have hfirst : (UInt8.ofNat (offset + size)).toNat = offset + size := by
      rw [UInt8.toNat_ofNat']
      omega
    refine ⟨_, _, rfl, by omega, by omega, fun rest => ?_⟩
    rw [readHeader, hfirst, if_pos (by omega), Nat.add_sub_cancel_left]
    rfl
  next hbig =>
    have hlen := length_bytes_le hsize
    have hpos : 0 < (bytes size).length := by
      rw [List.length_pos_iff]
      intro hnil
      have hvalue := value_bytes size
      rw [hnil] at hvalue
      exact hbig (hvalue ▸ by decide)
    have hfirst : (UInt8.ofNat (offset + 55 + (bytes size).length)).toNat = offset + 55 + (bytes size).length := by
      rw [UInt8.toNat_ofNat']
      omega
    refine ⟨_, _, rfl, by omega, by omega, fun rest => ?_⟩
    rw [readHeader, hfirst, if_neg (by omega), Nat.add_sub_cancel_left]
    exact readSize_bytes (by omega) rest

theorem eq_of_readHeader (hoffset : offset ≤ first.toNat)
    (h : readHeader offset first input = some (size, rest)) : first :: input = header offset size ++ rest := by
  unfold readHeader at h
  split at h
  next hsmall =>
    obtain ⟨rfl, rfl⟩ := Prod.mk.inj (Option.some.inj h)
    rw [header, if_pos (by omega), Nat.add_sub_cancel' hoffset, UInt8.ofNat_toNat]
    rfl
  next hbig =>
    obtain ⟨hsize, hlen, rfl⟩ := eq_of_readSize h
    rw [header, if_neg (by omega), hlen, Nat.add_sub_cancel' (by omega), UInt8.ofNat_toNat]
    rfl

end Header

def readContent (offset : ℕ) (first : UInt8) (input : List UInt8) : Option (List UInt8 × List UInt8) :=
  (readHeader offset first input).bind fun (size, input) =>
    if input.length < size then none else some (input.take size, input.drop size)

section Content

variable {offset : ℕ} {first : UInt8} {input content rest : List UInt8}

theorem content_cons (offset : ℕ) (content : List UInt8) (hlen : content.length < 256 ^ 8)
    (hoffset : offset + 64 ≤ 256) : ∃ first tail,
    header offset content.length ++ content = first :: tail ∧ offset ≤ first.toNat ∧ first.toNat < offset + 64 ∧
      ∀ rest, readContent offset first (tail ++ rest) = some (content, rest) := by
  obtain ⟨first, tail, hheader, hle, hlt, hread⟩ := header_cons offset content.length hlen hoffset
  refine ⟨first, tail ++ content, by rw [hheader]; rfl, hle, hlt, fun rest => ?_⟩
  rw [readContent, List.append_assoc, hread]
  simp

theorem eq_of_readContent (hoffset : offset ≤ first.toNat)
    (h : readContent offset first input = some (content, rest)) :
    first :: input = header offset content.length ++ content ++ rest := by
  obtain ⟨⟨size, tail⟩, hread, hcontent⟩ := Option.bind_eq_some_iff.mp h
  dsimp only at hcontent
  split at hcontent
  next => cases hcontent
  next hlen =>
    obtain ⟨rfl, rfl⟩ := Prod.mk.inj (Option.some.inj hcontent)
    have hsize : (tail.take size).length = size := by
      rw [List.length_take]
      omega
    rw [hsize, List.append_assoc, List.take_append_drop]
    exact eq_of_readHeader hoffset hread

end Content

/-- An encoding whose decoder finds the end of a value by itself and accepts nothing else. -/
structure Codec (α : Type*) where
  encode : α → List UInt8
  decode : List UInt8 → Option (α × List UInt8)
  encode_ne_nil : ∀ a, encode a ≠ []
  decode_encode : ∀ a rest, (encode a).length < 256 ^ 8 → decode (encode a ++ rest) = some (a, rest)
  encode_decode : ∀ input a rest, decode input = some (a, rest) → input = encode a ++ rest

structure Payload (α : Type*) where
  encode : α → List UInt8
  decode : List UInt8 → Option α
  decode_encode : ∀ a, (encode a).length < 256 ^ 8 → decode (encode a) = some a
  encode_decode : ∀ input a, decode input = some a → input = encode a

section Strings

def isSingle : List UInt8 → Bool
  | [b] => b.toNat < 128
  | _ => false

def encodeString (s : List UInt8) : List UInt8 := if isSingle s then s else header 128 s.length ++ s

def decodeString : List UInt8 → Option (List UInt8 × List UInt8)
  | [] => none
  | first :: input =>
    if first.toNat < 128 then some ([first], input)
    else if first.toNat < 192 then
      (readContent 128 first input).bind fun (s, rest) => if isSingle s then none else some (s, rest)
    else none

theorem decodeString_encodeString (s rest : List UInt8) (hlen : (encodeString s).length < 256 ^ 8) :
    decodeString (encodeString s ++ rest) = some (s, rest) := by
  unfold encodeString at hlen ⊢
  by_cases hsingle : isSingle s
  · rw [if_pos hsingle]
    obtain _ | ⟨b, _ | ⟨c, s⟩⟩ := s
    · cases hsingle
    · exact if_pos (of_decide_eq_true hsingle)
    · cases hsingle
  · rw [if_neg hsingle] at hlen ⊢
    rw [List.length_append] at hlen
    obtain ⟨first, tail, hcons, hle, hlt, hread⟩ := content_cons 128 s (by omega) (by decide)
    rw [hcons, List.cons_append, decodeString, if_neg (by omega), if_pos (by omega), hread]
    exact if_neg hsingle

theorem encodeString_of_decodeString {input s rest : List UInt8} (h : decodeString input = some (s, rest)) :
    input = encodeString s ++ rest := by
  cases input with
  | nil => cases h
  | cons first input =>
    rw [decodeString] at h
    by_cases hsmall : first.toNat < 128
    · rw [if_pos hsmall] at h
      obtain ⟨rfl, rfl⟩ := Prod.mk.inj (Option.some.inj h)
      have hsingle : isSingle [first] = true := decide_eq_true hsmall
      rw [encodeString, if_pos hsingle]
      rfl
    · rw [if_neg hsmall] at h
      by_cases hstring : first.toNat < 192
      · rw [if_pos hstring] at h
        obtain ⟨⟨content, tail⟩, hread, hs⟩ := Option.bind_eq_some_iff.mp h
        dsimp only at hs
        by_cases hsingle : isSingle content
        · rw [if_pos hsingle] at hs
          cases hs
        · rw [if_neg hsingle] at hs
          obtain ⟨rfl, rfl⟩ := Prod.mk.inj (Option.some.inj hs)
          rw [encodeString, if_neg hsingle]
          exact eq_of_readContent (by omega) hread
      · rw [if_neg hstring] at h
        cases h

theorem header_ne_nil (offset size : ℕ) : header offset size ≠ [] := by
  unfold header
  split
  · exact List.cons_ne_nil _ _
  · exact List.cons_ne_nil _ _

theorem encodeString_ne_nil (s : List UInt8) : encodeString s ≠ [] := by
  unfold encodeString
  split
  next hsingle =>
    rintro rfl
    cases hsingle
  next => exact List.append_ne_nil_of_left_ne_nil (header_ne_nil _ _) _

def Codec.string : Codec (List UInt8) where
  encode := encodeString
  decode := decodeString
  encode_ne_nil := encodeString_ne_nil
  decode_encode := decodeString_encodeString
  encode_decode _ _ _ := encodeString_of_decodeString

end Strings

section Lists

variable {α β : Type*}

def Payload.encodeList (p : Payload α) (a : α) : List UInt8 := header 192 (p.encode a).length ++ p.encode a

def Payload.decodeList (p : Payload α) : List UInt8 → Option (α × List UInt8)
  | [] => none
  | first :: input =>
    if first.toNat < 192 then none
    else (readContent 192 first input).bind fun (content, rest) => (p.decode content).map fun a => (a, rest)

def Payload.list (p : Payload α) : Codec α where
  encode := p.encodeList
  decode := p.decodeList
  encode_ne_nil a := List.append_ne_nil_of_left_ne_nil (header_ne_nil _ _) _
  decode_encode a rest hlen := by
    rw [encodeList, List.length_append] at hlen
    obtain ⟨first, tail, hcons, hle, hlt, hread⟩ := content_cons 192 (p.encode a) (by omega) (by decide)
    rw [encodeList, hcons, List.cons_append, decodeList, if_neg (by omega), hread, Option.bind_some]
    dsimp only
    rw [p.decode_encode a (by omega)]
    rfl
  encode_decode input a rest h := by
    cases input with
    | nil => cases h
    | cons first input =>
      rw [decodeList] at h
      by_cases hsmall : first.toNat < 192
      · rw [if_pos hsmall] at h
        cases h
      · rw [if_neg hsmall] at h
        obtain ⟨⟨content, tail⟩, hread, hpayload⟩ := Option.bind_eq_some_iff.mp h
        obtain ⟨a', ha', hpair⟩ := Option.map_eq_some_iff.mp hpayload
        obtain ⟨rfl, rfl⟩ := Prod.mk.inj hpair
        rw [encodeList, ← p.encode_decode content a' ha']
        exact eq_of_readContent (by omega) hread

def Codec.pair (c : Codec α) (d : Codec β) : Codec (α × β) where
  encode x := c.encode x.1 ++ d.encode x.2
  decode input := (c.decode input).bind fun (a, input) => (d.decode input).map fun (b, rest) => ((a, b), rest)
  encode_ne_nil x := List.append_ne_nil_of_left_ne_nil (c.encode_ne_nil x.1) _
  decode_encode x rest hlen := by
    rw [List.length_append] at hlen
    rw [List.append_assoc, c.decode_encode _ _ (by omega), Option.bind_some]
    dsimp only
    rw [d.decode_encode _ _ (by omega)]
    rfl
  encode_decode input x rest h := by
    obtain ⟨⟨a, tail⟩, ha, hpayload⟩ := Option.bind_eq_some_iff.mp h
    obtain ⟨⟨b, rest'⟩, hb, hpair⟩ := Option.map_eq_some_iff.mp hpayload
    obtain ⟨rfl, rfl⟩ := Prod.mk.inj hpair
    rw [c.encode_decode _ _ _ ha, d.encode_decode _ _ _ hb, List.append_assoc]

def Codec.whole (c : Codec α) (input : List UInt8) : Option α :=
  (c.decode input).bind fun (a, rest) => if rest = [] then some a else none

theorem Codec.whole_encode (c : Codec α) (a : α) (hlen : (c.encode a).length < 256 ^ 8) :
    c.whole (c.encode a) = some a := by
  have hdecode := c.decode_encode a [] hlen
  rw [List.append_nil] at hdecode
  rw [whole, hdecode]
  rfl

theorem Codec.eq_encode_of_whole (c : Codec α) {input : List UInt8} {a : α} (h : c.whole input = some a) :
    input = c.encode a := by
  obtain ⟨⟨a', rest⟩, hdecode, hrest⟩ := Option.bind_eq_some_iff.mp h
  dsimp only at hrest
  split at hrest
  next hnil =>
    obtain rfl := Option.some.inj hrest
    rw [c.encode_decode _ _ _ hdecode, hnil, List.append_nil]
  next => cases hrest

def Codec.one (c : Codec α) : Payload α where
  encode := c.encode
  decode := c.whole
  decode_encode := c.whole_encode
  encode_decode _ _ := c.eq_encode_of_whole

def Codec.decodeMany (c : Codec α) : ℕ → List UInt8 → Option (List α)
  | 0, input => if input = [] then some [] else none
  | fuel + 1, input =>
    if input = [] then some []
    else (c.decode input).bind fun (a, rest) => (c.decodeMany fuel rest).map (a :: ·)

theorem Codec.decodeMany_flatMap (c : Codec α) (l : List α) {fuel : ℕ}
    (hlen : (l.flatMap c.encode).length < 256 ^ 8) (hfuel : (l.flatMap c.encode).length ≤ fuel) :
    c.decodeMany fuel (l.flatMap c.encode) = some l := by
  induction l generalizing fuel with
  | nil => cases fuel <;> rfl
  | cons a l ih =>
    have hne := c.encode_ne_nil a
    have hpos : 0 < (c.encode a).length := List.length_pos_iff.mpr hne
    rw [List.flatMap_cons, List.length_append] at hlen hfuel
    obtain ⟨fuel, rfl⟩ : ∃ k, fuel = k + 1 := ⟨fuel - 1, by omega⟩
    rw [List.flatMap_cons, decodeMany, if_neg (List.append_ne_nil_of_left_ne_nil hne _),
      c.decode_encode _ _ (by omega), Option.bind_some]
    dsimp only
    rw [ih (by omega) (by omega)]
    rfl

theorem Codec.eq_flatMap_of_decodeMany (c : Codec α) {fuel : ℕ} {input : List UInt8} {l : List α}
    (h : c.decodeMany fuel input = some l) : input = l.flatMap c.encode := by
  induction fuel generalizing input l with
  | zero =>
    rw [decodeMany] at h
    split at h
    next hnil => rw [hnil, ← Option.some.inj h, List.flatMap_nil]
    next => cases h
  | succ fuel ih =>
    rw [decodeMany] at h
    split at h
    next hnil => rw [hnil, ← Option.some.inj h, List.flatMap_nil]
    next =>
      obtain ⟨⟨a, rest⟩, ha, htail⟩ := Option.bind_eq_some_iff.mp h
      obtain ⟨l, hl, rfl⟩ := Option.map_eq_some_iff.mp htail
      rw [c.encode_decode _ _ _ ha, ih hl, List.flatMap_cons]

def Codec.many (c : Codec α) : Payload (List α) where
  encode l := l.flatMap c.encode
  decode input := c.decodeMany input.length input
  decode_encode l hlen := c.decodeMany_flatMap l hlen le_rfl
  encode_decode _ _ := c.eq_flatMap_of_decodeMany

def Codec.refine (c : Codec α) (ofBeta : β → α) (toBeta : α → Option β) (hto : ∀ b, toBeta (ofBeta b) = some b)
    (hof : ∀ a b, toBeta a = some b → a = ofBeta b) : Codec β where
  encode b := c.encode (ofBeta b)
  decode input := (c.decode input).bind fun (a, rest) => (toBeta a).map fun b => (b, rest)
  encode_ne_nil b := c.encode_ne_nil (ofBeta b)
  decode_encode b rest hlen := by
    rw [c.decode_encode _ _ hlen, Option.bind_some]
    dsimp only
    rw [hto]
    rfl
  encode_decode input b rest h := by
    obtain ⟨⟨a, tail⟩, ha, hb⟩ := Option.bind_eq_some_iff.mp h
    obtain ⟨b', hb', hpair⟩ := Option.map_eq_some_iff.mp hb
    obtain ⟨rfl, rfl⟩ := Prod.mk.inj hpair
    rw [c.encode_decode _ _ _ ha, hof a b' hb']

/-- The same where a value is only known to come back if its encoding is not too long. -/
def Codec.translate (c : Codec α) (ofBeta : β → α) (toBeta : α → Option β)
    (hto : ∀ b, (c.encode (ofBeta b)).length < 256 ^ 8 → toBeta (ofBeta b) = some b)
    (hof : ∀ a b, toBeta a = some b → a = ofBeta b) : Codec β where
  encode b := c.encode (ofBeta b)
  decode input := (c.decode input).bind fun (a, rest) => (toBeta a).map fun b => (b, rest)
  encode_ne_nil b := c.encode_ne_nil (ofBeta b)
  decode_encode b rest hlen := by
    rw [c.decode_encode _ _ hlen, Option.bind_some]
    dsimp only
    rw [hto b hlen]
    rfl
  encode_decode input b rest h := by
    obtain ⟨⟨a, tail⟩, ha, hb⟩ := Option.bind_eq_some_iff.mp h
    obtain ⟨b', hb', hpair⟩ := Option.map_eq_some_iff.mp hb
    obtain ⟨rfl, rfl⟩ := Prod.mk.inj hpair
    rw [c.encode_decode _ _ _ ha, hof a b' hb']

end Lists

section Values

def Codec.bigInt : Codec ℕ :=
  Codec.string.refine bytes (fun s => if s.head? = some 0 then none else some (value s))
    (fun n => by rw [if_neg (head?_bytes n), value_bytes])
    (fun s n h => by
      split at h
      next => cases h
      next hhead =>
        obtain rfl := Option.some.inj h
        exact (bytes_value hhead).symm)

def Codec.uint64 : Codec UInt64 :=
  Codec.bigInt.refine UInt64.toNat (fun n => if n < 2 ^ 64 then some (UInt64.ofNat n) else none)
    (fun n => by rw [if_pos n.toNat_lt, UInt64.ofNat_toNat])
    (fun n u h => by
      split at h
      next hlt =>
        obtain rfl := Option.some.inj h
        exact (UInt64.toNat_ofNat_of_lt' hlt).symm
      next => cases h)

def Codec.uint32 : Codec UInt32 :=
  Codec.bigInt.refine UInt32.toNat (fun n => if n < 2 ^ 32 then some (UInt32.ofNat n) else none)
    (fun n => by rw [if_pos n.toNat_lt, UInt32.ofNat_toNat])
    (fun n u h => by
      split at h
      next hlt =>
        obtain rfl := Option.some.inj h
        exact (UInt32.toNat_ofNat_of_lt' hlt).symm
      next => cases h)

def readWord (len : ℕ) (s : List UInt8) : Option (BitVec (8 * len)) :=
  if s.length = len then some (BitVec.ofNat (8 * len) (value s)) else none

theorem readWord_fixed {len : ℕ} (w : BitVec (8 * len)) : readWord len (fixed len w.toNat) = some w := by
  have hlt : w.toNat < 256 ^ len := by
    rw [show 256 = 2 ^ 8 by rfl, ← pow_mul]
    exact w.isLt
  rw [readWord, if_pos (fixed_length _ _), value_fixed, Nat.mod_eq_of_lt hlt, BitVec.ofNat_toNat, BitVec.setWidth_eq]

theorem eq_fixed_of_readWord {len : ℕ} {s : List UInt8} {w : BitVec (8 * len)} (h : readWord len s = some w) :
    s = fixed len w.toNat := by
  unfold readWord at h
  split at h
  next hlen =>
    obtain rfl := Option.some.inj h
    have hlt := value_lt s
    rw [hlen, show 256 = 2 ^ 8 by rfl, ← pow_mul] at hlt
    rw [BitVec.toNat_ofNat, Nat.mod_eq_of_lt hlt, ← hlen, fixed_value]
  next => cases h

def Codec.word (len : ℕ) : Codec (BitVec (8 * len)) :=
  Codec.string.refine (fun w => fixed len w.toNat) (readWord len) readWord_fixed fun _ _ => eq_fixed_of_readWord

def Codec.pointer (len : ℕ) (hlen : 0 < len) : Codec (Option (BitVec (8 * len))) :=
  Codec.string.refine (fun w => (w.map fun w => fixed len w.toNat).getD [])
    (fun s => if s = [] then some none else (readWord len s).map some)
    (fun w => by
      cases w with
      | none => rfl
      | some w =>
        have hne : fixed len w.toNat ≠ [] := by
          rw [← List.length_pos_iff, fixed_length]
          exact hlen
        rw [Option.map_some, Option.getD_some, if_neg hne, readWord_fixed]
        rfl)
    (fun s w h => by
      split at h
      next hnil =>
        obtain rfl := Option.some.inj h
        exact hnil
      next =>
        obtain ⟨w', hw', rfl⟩ := Option.map_eq_some_iff.mp h
        exact eq_fixed_of_readWord hw')

end Values

section FirstByte

variable {α : Type*}

theorem Payload.head_list (p : Payload α) (a : α) (hlen : (p.list.encode a).length < 256 ^ 8) :
    ∃ first tail, p.list.encode a = first :: tail ∧ 192 ≤ first.toNat := by
  have hle : (p.encode a).length ≤ (p.list.encode a).length :=
    (Nat.le_add_left _ _).trans_eq List.length_append.symm
  obtain ⟨first, tail, hcons, hfirst, -⟩ := content_cons 192 (p.encode a) (hle.trans_lt hlen) (by decide)
  exact ⟨first, tail, hcons, hfirst⟩

theorem encodeString_cons {s : List UInt8} (hlen : (encodeString s).length < 256 ^ 8) :
    ∃ first tail, encodeString s = first :: tail ∧ first.toNat < 192 := by
  unfold encodeString at hlen ⊢
  by_cases hsingle : isSingle s
  · rw [if_pos hsingle]
    obtain _ | ⟨b, _ | ⟨c, s⟩⟩ := s
    · cases hsingle
    · have hb : b.toNat < 128 := of_decide_eq_true hsingle
      exact ⟨b, [], rfl, by omega⟩
    · cases hsingle
  · rw [if_neg hsingle] at hlen ⊢
    rw [List.length_append] at hlen
    obtain ⟨first, tail, hcons, -, hlt, -⟩ := content_cons 128 s (by omega) (by decide)
    exact ⟨first, tail, hcons, hlt⟩

end FirstByte

section Alternative

variable {α β : Type*}

def Codec.orList (c : Codec α) (p : Payload β)
    (hc : ∀ a, (c.encode a).length < 256 ^ 8 → ∃ first tail, c.encode a = first :: tail ∧ first.toNat < 192) :
    Codec (α ⊕ β) where
  encode
    | .inl a => c.encode a
    | .inr b => p.list.encode b
  decode input := match input.head? with
    | none => none
    | some first =>
      if first.toNat < 192 then (c.decode input).map fun (a, rest) => (.inl a, rest)
      else (p.list.decode input).map fun (b, rest) => (.inr b, rest)
  encode_ne_nil
    | .inl a => c.encode_ne_nil a
    | .inr b => p.list.encode_ne_nil b
  decode_encode x rest hlen := by
    cases x with
    | inl a =>
      obtain ⟨first, tail, hcons, hlt⟩ := hc a hlen
      have hdecode := c.decode_encode a rest hlen
      dsimp only at hlen ⊢
      rw [hcons, List.cons_append] at hdecode ⊢
      simp [hlt, hdecode]
    | inr b =>
      obtain ⟨first, tail, hcons, hle⟩ := p.head_list b hlen
      have hdecode := p.list.decode_encode b rest hlen
      dsimp only at hlen ⊢
      rw [hcons, List.cons_append] at hdecode ⊢
      simp [Nat.not_lt.mpr hle, hdecode]
  encode_decode input x rest h := by
    cases hhead : input.head? with
    | none =>
      rw [hhead] at h
      cases h
    | some first =>
      rw [hhead] at h
      dsimp only at h
      split at h
      next =>
        obtain ⟨⟨a, tail⟩, ha, hpair⟩ := Option.map_eq_some_iff.mp h
        obtain ⟨rfl, rfl⟩ := Prod.mk.inj hpair
        exact c.encode_decode _ _ _ ha
      next =>
        obtain ⟨⟨b, tail⟩, hb, hpair⟩ := Option.map_eq_some_iff.mp h
        obtain ⟨rfl, rfl⟩ := Prod.mk.inj hpair
        exact p.list.encode_decode _ _ _ hb

end Alternative

section Infix

variable {α β : Type*} {s : List UInt8}

theorem infix_encodeString (s : List UInt8) : s <:+: encodeString s := by
  unfold encodeString
  split
  · exact List.infix_rfl
  · exact List.infix_append_of_infix_right List.infix_rfl

theorem Payload.infix_list (p : Payload α) {a : α} (h : s <:+: p.encode a) : s <:+: p.list.encode a :=
  List.infix_append_of_infix_right h

theorem Codec.infix_pair_left (c : Codec α) (d : Codec β) {x : α × β} (h : s <:+: c.encode x.1) :
    s <:+: (c.pair d).encode x :=
  List.infix_append_of_infix_left h

theorem Codec.infix_pair_right (c : Codec α) (d : Codec β) {x : α × β} (h : s <:+: d.encode x.2) :
    s <:+: (c.pair d).encode x :=
  List.infix_append_of_infix_right h

end Infix

end Zephyria.Rlp
