import Zephyria.Lib.VectorCommitments
import Zephyria.StateDB

/-!
The Verkle tree that the state owns, as far as `New`, `Insert`, `Get`, `Commit` and `Hash` reach. It has no
hashed and no unknown nodes, and no stubs.
-/

namespace Zephyria.Verkle

abbrev Stem := Bytes

abbrev Values := UInt8 → Bytes

/-- The Pedersen commitments of `ipa.IPAConfig`, and a scalar field in which stems of 31 bytes differ. -/
structure Config (F P : Type) [CommRing F] [AddCommGroup P] [Module F P] extends VectorCommitment UInt8 F P where
  natCast_injective : ∀ m n : ℕ, m < 2 ^ 248 → n < 2 ^ 248 → (m : F) = n → m = n
  bytesLE : F → Hash
  bytesLE_injective : Function.Injective bytesLE

def Config.sums : Config (ZMod (2 ^ 255)) (ZMod (2 ^ 255)) where
  generator _ := 1
  digest := id
  digest_zero := rfl
  natCast_injective m n hm hn h := by
    rw [ZMod.natCast_eq_natCast_iff', Nat.mod_eq_of_lt (by omega), Nat.mod_eq_of_lt (by omega)] at h
    exact h
  bytesLE x := BitVec.ofNat 256 x.val
  bytesLE_injective x y h := by
    have hlt (z : ZMod (2 ^ 255)) : z.val < 2 ^ 256 := (ZMod.val_lt z).trans (by norm_num)
    have hval := congrArg BitVec.toNat h
    rw [BitVec.toNat_ofNat, BitVec.toNat_ofNat, Nat.mod_eq_of_lt (hlt x), Nat.mod_eq_of_lt (hlt y)] at hval
    exact ZMod.val_injective _ hval

def littleEndian (bs : Bytes) : ℕ := BigEndian.value bs.reverse

section Leaves

structure LeafNode (P : Type) where
  stem : Stem
  values : Values
  commitment : P
  c1 : P
  c2 : P

variable {F P : Type} [CommRing F] [AddCommGroup P] [Module F P]

def fromLEBytes (data : Bytes) : Option F := if 32 < data.length then none else some (littleEndian data : F)

def stemFromLEBytes (data : Bytes) : Option F := if data.length ≠ 31 then none else fromLEBytes data

def leafToComms (val : Bytes) : Option (F × F) :=
  if val.length = 0 then some (0, 0)
  else if 32 < val.length then none
  else do
    let loEnd := if val.length < 16 then val.length else 16
    let lo ← fromLEBytes (val.take loEnd ++ List.replicate (16 - loEnd) 0 ++ [1])
    let hi ← (if 16 ≤ val.length then fromLEBytes (val.drop 16) else some 0)
    some (lo, hi)

def fillValue (half : UInt8) (values : Values) (poly : UInt8 → F) (idx : ℕ) : Option (UInt8 → F) := do
  let comms ← leafToComms (values (half + UInt8.ofNat idx))
  some (Function.update (Function.update poly (2 * UInt8.ofNat idx) comms.1) (2 * UInt8.ofNat idx + 1) comms.2)

def fillSuffixTreePoly (half : UInt8) (values : Values) : Option (UInt8 → F) :=
  (List.range 128).foldlM (fillValue half values) 0

def emptyCodeHashValues : Values := Function.update (fun _ => []) 3 (hashBytes emptyCodeHash)

def extensionPoly (stem c1 c2 : F) : UInt8 → F :=
  fun i => if i = 0 then 1 else if i = 1 then stem else if i = 2 then c1 else if i = 3 then c2 else 0

variable [DecidableEq F] (cfg : Config F P)

/-- The commitment to the hash of empty code is computed once; a leaf that holds it commits to the rest
only. -/
def newLeafNode (stem : Stem) (values : Values) : Option (LeafNode P) := do
  let c1poly ← fillSuffixTreePoly (F := F) 0 values
  let emptyPoly ← fillSuffixTreePoly (F := F) 0 emptyCodeHashValues
  let c1 := if c1poly 6 = emptyPoly 6 ∧ c1poly 7 = emptyPoly 7
    then cfg.commit emptyPoly + cfg.commit (Function.update (Function.update c1poly 6 0) 7 0)
    else cfg.commit c1poly
  let c2poly ← fillSuffixTreePoly (F := F) 128 values
  let c2 := cfg.commit c2poly
  let stemFr ← stemFromLEBytes (stem.take 31)
  some ⟨stem.take 31, values, cfg.commit (extensionPoly stemFr (cfg.digest c1) (cfg.digest c2)), c1, c2⟩

omit [DecidableEq F]

def updateC (n : LeafNode P) (cxIndex : UInt8) (newC oldC : F) : LeafNode P :=
  { n with commitment := n.commitment + cfg.commit (Pi.single cxIndex (newC - oldC)) }

def updateCn (n : LeafNode P) (index : UInt8) (value : Bytes) (c : P) : Option P := do
  let old ← leafToComms (F := F) (n.values index)
  let newH ← leafToComms (F := F) value
  some (c + cfg.commit (Pi.single (2 * (index % 128)) (newH.1 - old.1)) +
    cfg.commit (Pi.single (2 * (index % 128) + 1) (newH.2 - old.2)))

structure Touched (P : Type) where
  node : LeafNode P
  oldC1 : Option P
  oldC2 : Option P

def updateValue (values : Values) (s : Touched P) (i : UInt8) : Option (Touched P) :=
  if (values i).length ≠ 0 ∧ values i ≠ s.node.values i then
    if i < 128 then do
      let c1 ← updateCn cfg s.node i (values i) s.node.c1
      some ⟨{ s.node with c1 := c1, values := Function.update s.node.values i (values i) },
        some (s.oldC1.getD s.node.c1), s.oldC2⟩
    else do
      let c2 ← updateCn cfg s.node i (values i) s.node.c2
      some ⟨{ s.node with c2 := c2, values := Function.update s.node.values i (values i) },
        s.oldC1, some (s.oldC2.getD s.node.c2)⟩
  else some s

def Touched.finish (s : Touched P) : LeafNode P :=
  match s.oldC1, s.oldC2 with
  | some oldC1, some oldC2 =>
    updateC cfg (updateC cfg s.node 2 (cfg.digest s.node.c1) (cfg.digest oldC1)) 3
      (cfg.digest s.node.c2) (cfg.digest oldC2)
  | some oldC1, none => updateC cfg s.node 2 (cfg.digest s.node.c1) (cfg.digest oldC1)
  | none, some oldC2 => updateC cfg s.node 3 (cfg.digest s.node.c2) (cfg.digest oldC2)
  | none, none => s.node

def updateMultipleLeaves (n : LeafNode P) (values : Values) : Option (LeafNode P) := do
  let s ← (List.range 256).foldlM (fun s i => updateValue cfg values s (UInt8.ofNat i)) ⟨n, none, none⟩
  some (s.finish cfg)

def insertMultiple (n : LeafNode P) (stem : Stem) (values : Values) : Option (LeafNode P) :=
  if stem.take 31 ≠ n.stem.take 31 then none else updateMultipleLeaves cfg n values

end Leaves

/-- `cow` holds, for the children written to since the last commit, the commitment they had then. The depth of
a node is its distance from the root. -/
inductive VerkleNode (P : Type) where
  | empty
  | leaf (n : LeafNode P)
  | internal (commitment : P) (cow : UInt8 → Option P) (children : UInt8 → VerkleNode P)

namespace VerkleNode

variable {F P : Type} [CommRing F] [DecidableEq F] [AddCommGroup P] [Module F P] (cfg : Config F P)

def newInternalNode : VerkleNode P := .internal 0 (fun _ => none) fun _ => .empty

def commitment : VerkleNode P → P
  | .empty => 0
  | .leaf n => n.commitment
  | .internal commitment _ _ => commitment

def cowChild (cow : UInt8 → Option P) (children : UInt8 → VerkleNode P) (index : UInt8) : UInt8 → Option P :=
  Function.update cow index (some ((cow index).getD (children index).commitment))

def replaceChild : VerkleNode P → UInt8 → VerkleNode P → VerkleNode P
  | .internal commitment cow children, index, child =>
    .internal commitment (cowChild cow children index) (Function.update children index child)
  | n, _, _ => n

/-- Below the first `depth` bytes of the stem, `path` are the others. `none` is an error or an index out of
range. -/
def insertValuesAtStem (stem : Stem) (values : Values) : ℕ → List UInt8 → VerkleNode P → Option (VerkleNode P)
  | depth, nChild :: path, .internal commitment cow children =>
    let n := VerkleNode.internal commitment cow children
    match children nChild with
    | .empty => do
      let leaf ← newLeafNode cfg stem values
      some (n.replaceChild nChild (.leaf leaf))
    | .leaf child =>
      if child.stem.take 31 = stem.take 31 then do
        let child ← insertMultiple cfg child stem values
        some (n.replaceChild nChild (.leaf child))
      else do
        let nextWordInExistingKey ← child.stem[depth + 1]?
        let newBranch := newInternalNode.replaceChild nextWordInExistingKey (.leaf child)
        let nextWordInInsertedKey ← path.head?
        if nextWordInInsertedKey = nextWordInExistingKey then do
          let newBranch ← insertValuesAtStem stem values (depth + 1) path newBranch
          some (n.replaceChild nChild newBranch)
        else do
          let leaf ← newLeafNode cfg stem values
          some (n.replaceChild nChild (newBranch.replaceChild nextWordInInsertedKey (.leaf leaf)))
    | .internal commitment cow children => do
      let child ← insertValuesAtStem stem values (depth + 1) path (.internal commitment cow children)
      some (n.replaceChild nChild child)
  | _, _, _ => none

def insert (n : VerkleNode P) (key value : Bytes) : Option (VerkleNode P) := do
  let suffix ← key[31]?
  insertValuesAtStem cfg (key.take 31) (Function.update (fun _ => []) suffix value) 0 (key.take 31) n

def getValuesAtStem (stem : Stem) : List UInt8 → VerkleNode P → Option Values
  | nChild :: path, .internal _ _ children =>
    match children nChild with
    | .empty => none
    | .leaf child => if child.stem.take 31 = stem.take 31 then some child.values else none
    | .internal commitment cow children => getValuesAtStem stem path (.internal commitment cow children)
  | _, _ => none

def get (n : VerkleNode P) (key : Bytes) : Option Bytes :=
  if key.length ≠ 32 then none
  else some (((n.getValuesAtStem (key.take 31) (key.take 31)).map fun values => values (key.getD 31 0)).getD [])

def hasCow : VerkleNode P → Prop
  | .internal _ cow _ => ∃ i, (cow i).isSome
  | _ => False

instance : DecidablePred (hasCow : VerkleNode P → Prop)
  | .empty => .isFalse id
  | .leaf _ => .isFalse id
  | .internal _ cow _ => inferInstanceAs (Decidable (∃ i, (cow i).isSome))

omit [DecidableEq F]

def commitNode : VerkleNode P → VerkleNode P
  | .internal commitment cow children =>
    .internal (commitment + cfg.commit fun i =>
      (cow i).elim 0 fun old => cfg.digest (children i).commitment - cfg.digest old) (fun _ => none) children
  | n => n

/-- Commits the nodes that `fillLevels` finds at one depth: along marked children with marks of their own. -/
def commitNodesAtLevel : ℕ → VerkleNode P → VerkleNode P
  | 0, n => n.commitNode cfg
  | level + 1, .internal commitment cow children => .internal commitment cow fun i =>
    if (cow i).isSome ∧ (children i).hasCow then commitNodesAtLevel level (children i) else children i
  | _ + 1, n => n

def commit (n : VerkleNode P) : VerkleNode P :=
  if n.hasCow then (List.range 31).reverse.foldl (fun n level => n.commitNodesAtLevel cfg level) n else n

def hash (n : VerkleNode P) : F := cfg.digest n.commitment

def intermediateRoot (n : VerkleNode P) : Hash := cfg.bytesLE ((n.commit cfg).hash cfg)

end VerkleNode

end Zephyria.Verkle
