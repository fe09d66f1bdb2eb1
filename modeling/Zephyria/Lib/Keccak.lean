import Mathlib.Data.List.Basic

/-!
Keccak-256 with the padding of the original submission. A state is the list of its 25 lanes, lane
`(x, y)` at position `x + 5 * y`.
-/

namespace Zephyria.Keccak

abbrev Lane := BitVec 64

def rotations : List ℕ :=
  [0, 1, 62, 28, 27, 36, 44, 6, 55, 20, 3, 10, 43, 25, 39, 41, 45, 15, 21, 8, 18, 2, 61, 56, 14]

def roundConstants : List Lane :=
  [0x0000000000000001, 0x0000000000008082, 0x800000000000808a, 0x8000000080008000, 0x000000000000808b,
    0x0000000080000001, 0x8000000080008081, 0x8000000000008009, 0x000000000000008a, 0x0000000000000088,
    0x0000000080008009, 0x000000008000000a, 0x000000008000808b, 0x800000000000008b, 0x8000000000008089,
    0x8000000000008003, 0x8000000000008002, 0x8000000000000080, 0x000000000000800a, 0x800000008000000a,
    0x8000000080008081, 0x8000000000008080, 0x0000000080000001, 0x8000000080008008]

def lane (state : List Lane) (x y : ℕ) : Lane := state.getD (x % 5 + 5 * (y % 5)) 0

def build (f : ℕ → ℕ → Lane) : List Lane := (List.range 25).map fun i => f (i % 5) (i / 5)

def theta (state : List Lane) : List Lane :=
  let parity := (List.range 5).map fun x =>
    lane state x 0 ^^^ lane state x 1 ^^^ lane state x 2 ^^^ lane state x 3 ^^^ lane state x 4
  build fun x y =>
    lane state x y ^^^ parity.getD ((x + 4) % 5) 0 ^^^ (parity.getD ((x + 1) % 5) 0).rotateLeft 1

def rhoPi (state : List Lane) : List Lane :=
  let rotated := List.zipWith (fun l r => BitVec.rotateLeft l r) state rotations
  build fun x y => lane rotated (x + 3 * y) x

def chi (state : List Lane) : List Lane :=
  build fun x y => lane state x y ^^^ (~~~lane state (x + 1) y &&& lane state (x + 2) y)

def iota (c : Lane) : List Lane → List Lane
  | [] => []
  | l :: ls => (l ^^^ c) :: ls

def permute (state : List Lane) : List Lane :=
  roundConstants.foldl (fun state c => iota c (chi (rhoPi (theta state)))) state

def toLane (bytes : List UInt8) : Lane :=
  bytes.foldr (fun b acc => acc <<< 8 ||| BitVec.ofNat 64 b.toNat) 0

def ofLane (l : Lane) : List UInt8 := (List.range 8).map fun i => UInt8.ofNat ((l >>> (8 * i)).toNat)

def rate : ℕ := 136

def pad (m : List UInt8) : List UInt8 :=
  let free := rate - m.length % rate
  if free = 1 then m ++ [0x81] else m ++ 1 :: List.replicate (free - 2) 0 ++ [0x80]

def chunks (size : ℕ) : ℕ → List UInt8 → List (List UInt8)
  | 0, _ => []
  | count + 1, m => m.take size :: chunks size count (m.drop size)

def absorb (state : List Lane) (block : List UInt8) : List Lane :=
  permute (List.zipWith (· ^^^ ·) state ((chunks 8 17 block).map toLane ++ List.replicate 8 0))

def keccak256 (m : List UInt8) : List UInt8 :=
  let state := (chunks rate (m.length / rate + 1) (pad m)).foldl absorb (List.replicate 25 0)
  (state.take 4).flatMap ofLane

example : keccak256 [] =
    [0xc5, 0xd2, 0x46, 0x01, 0x86, 0xf7, 0x23, 0x3c, 0x92, 0x7e, 0x7d, 0xb2, 0xdc, 0xc7, 0x03, 0xc0,
      0xe5, 0x00, 0xb6, 0x53, 0xca, 0x82, 0x27, 0x3b, 0x7b, 0xfa, 0xd8, 0x04, 0x5d, 0x85, 0xa4, 0x70] := by
  decide +kernel

end Zephyria.Keccak
