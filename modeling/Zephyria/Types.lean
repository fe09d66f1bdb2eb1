import Zephyria.Lib.BigEndian

namespace Zephyria

abbrev Bytes := List UInt8

abbrev Address := BitVec 160

abbrev Hash := BitVec 256

abbrev U256 := BitVec 256

def addressBytes (a : Address) : Bytes := BigEndian.fixed 20 a.toNat

def hashBytes (h : Hash) : Bytes := BigEndian.fixed 32 h.toNat

def bytesToHash (bs : Bytes) : Hash := BitVec.ofNat 256 (BigEndian.value bs)

def bytesToAddress (bs : Bytes) : Address := BitVec.ofNat 160 (BigEndian.value bs)

def bigToHash (n : ℕ) : Hash := BitVec.ofNat 256 n

def addressKey (a : Address) : Hash := bytesToHash (addressBytes a)

theorem value_addressBytes (a : Address) : BigEndian.value (addressBytes a) = a.toNat := by
  rw [addressBytes, BigEndian.value_fixed]
  exact Nat.mod_eq_of_lt a.isLt

theorem value_hashBytes (h : Hash) : BigEndian.value (hashBytes h) = h.toNat := by
  rw [hashBytes, BigEndian.value_fixed]
  exact Nat.mod_eq_of_lt h.isLt

theorem addressBytes_injective {a b : Address} (h : addressBytes a = addressBytes b) : a = b :=
  BitVec.eq_of_toNat_eq (by rw [← value_addressBytes a, h, value_addressBytes])

theorem hashBytes_injective {a b : Hash} (h : hashBytes a = hashBytes b) : a = b :=
  BitVec.eq_of_toNat_eq (by rw [← value_hashBytes a, h, value_hashBytes])

@[simp]
theorem bytesToHash_hashBytes (h : Hash) : bytesToHash (hashBytes h) = h := by
  rw [bytesToHash, value_hashBytes]
  exact BitVec.ofNat_toNat 256 h |>.trans (BitVec.setWidth_eq h)

theorem hashBytes_ne_nil (h : Hash) : hashBytes h ≠ [] := by
  intro hn
  have hl := BigEndian.fixed_length 32 h.toNat
  rw [show BigEndian.fixed 32 h.toNat = [] from hn] at hl
  cases hl

@[simp]
theorem addressKey_toNat (a : Address) : (addressKey a).toNat = a.toNat := by
  have ha := a.isLt
  rw [addressKey, bytesToHash, value_addressBytes, BitVec.toNat_ofNat]
  omega

theorem addressKey_injective {a b : Address} (h : addressKey a = addressKey b) : a = b :=
  BitVec.eq_of_toNat_eq (by rw [← addressKey_toNat a, h, addressKey_toNat])

@[simp]
theorem bytesToAddress_addressKey (a : Address) : bytesToAddress (hashBytes (addressKey a)) = a := by
  rw [bytesToAddress, value_hashBytes, addressKey_toNat]
  exact BitVec.ofNat_toNat 160 a |>.trans (BitVec.setWidth_eq a)

/-- A blob transaction names its blobs; of the authorizations of a set-code transaction only their
number is kept. -/
inductive TxType where
  | legacy
  | accessList
  | dynamicFee
  | blob (blobHashes : List Hash)
  | setCode (authorizations : ℕ)
deriving DecidableEq

/-- `sender` is what `types.Sender` recovers from the signature. The signer of the chain's
configuration knows no set-code transactions. -/
structure Transaction where
  hash : Hash
  type : TxType
  chainId : ℕ
  sender : Option Address
  nonce : UInt64
  gas : UInt64
  gasFeeCap : ℕ
  gasTipCap : ℕ
  toAddr : Option Address
  value : ℕ
  data : Bytes
  accessList : List (Address × List Hash)
  v : ℕ
  r : ℕ
  s : ℕ
  size : ℕ
  unsupported : ∀ n, type = .setCode n → sender = none := by simp
deriving DecidableEq

def Transaction.gasPrice (tx : Transaction) : ℕ := tx.gasFeeCap

def Transaction.blobHashes (tx : Transaction) : Option (List Hash) :=
  match tx.type with
  | .blob blobHashes => some blobHashes
  | _ => none

section Signatures

def secp256k1N : ℕ := 0xfffffffffffffffffffffffffffffffebaaedce6af48a03bbfd25e8cd0364141

def validateSignatureValues (v : UInt8) (r s : ℕ) : Bool :=
  1 ≤ r ∧ 1 ≤ s ∧ r < secp256k1N ∧ s < secp256k1N ∧ (v = 0 ∨ v = 1)

def isProtectedV (v : ℕ) : Bool := v ≥ 2 ^ 8 ∨ (v ≠ 27 ∧ v ≠ 28 ∧ v ≠ 1 ∧ v ≠ 0)

def deriveChainId (v : ℕ) : ℕ :=
  if v < 2 ^ 64 then
    if v = 27 ∨ v = 28 then 0 else ((UInt64.ofNat v - 35) / 2).toNat
  else (v - 35) / 2

/-- The recovery id is computed in 64 bits and cut to its lowest byte. -/
def sanityCheckSignature (v r s : ℕ) (maybeProtected : Bool) : Bool :=
  if isProtectedV v ∧ ¬maybeProtected then false
  else
    let plainV : UInt64 :=
      if isProtectedV v then UInt64.ofNat v - 35 - 2 * UInt64.ofNat (deriveChainId v)
      else if maybeProtected then UInt64.ofNat v - 27
      else UInt64.ofNat v
    validateSignatureValues plainV.toUInt8 r s

end Signatures

namespace Transaction

variable (tx : Transaction)

def signatureUnmarshals (maybeProtected : Bool) : Bool :=
  (tx.v = 0 ∧ tx.r = 0 ∧ tx.s = 0) ∨ sanityCheckSignature tx.v tx.r tx.s maybeProtected

def typedUnmarshals : Bool := tx.chainId < 2 ^ 256 ∧ tx.v ≤ 1 ∧ tx.signatureUnmarshals false

/-- `UnmarshalJSON` accepts what `MarshalJSON` has made of the transaction: `hexutil.Big` reads at most
256 bits, and an empty list of blobs or authorizations is left out of the JSON. -/
def unmarshals : Bool :=
  [tx.gasFeeCap, tx.gasTipCap, tx.value, tx.v, tx.r, tx.s].all (· < 2 ^ 256) &&
    match tx.type with
    | .legacy => tx.signatureUnmarshals true
    | .accessList => tx.typedUnmarshals
    | .dynamicFee => tx.typedUnmarshals
    | .blob blobHashes => tx.typedUnmarshals && !blobHashes.isEmpty
    | .setCode authorizations => tx.typedUnmarshals && authorizations != 0

end Transaction

structure Message where
  fromAddr : Address
  toAddr : Option Address
  nonce : UInt64
  gasLimit : UInt64
  value : ℕ
  gasPrice : ℕ
  gasFeeCap : ℕ
  gasTipCap : ℕ
  data : Bytes
  accessList : List (Address × List Hash)
  blobHashes : Option (List Hash)
deriving DecidableEq

structure Header where
  parentHash : Hash
  number : ℕ
  time : UInt64
  verkleRoot : Hash
  txHash : Hash
  coinbase : Address
  extraData : Bytes
  difficulty : ℕ
  gasLimit : UInt64
  gasUsed : UInt64
  baseFee : Option ℕ
deriving DecidableEq

/-- The decoded header always has a base fee: an absent one is encoded as the empty string. -/
def Header.arrived (h : Header) : Header := { h with baseFee := some (h.baseFee.getD 0) }

structure Block where
  header : Header
  transactions : List Transaction
deriving DecidableEq

def Block.unmarshals (b : Block) : Bool := b.transactions.all Transaction.unmarshals

def Block.unmarshal (b : Block) : Option Block := if b.unmarshals then some b else none

theorem Block.unmarshal_of_unmarshals {b : Block} (h : b.unmarshals) : b.unmarshal = some b := if_pos h

theorem Block.unmarshal_eq_some {b x : Block} : b.unmarshal = some x ↔ b = x ∧ b.unmarshals := by
  unfold unmarshal
  split
  next h => simp [h]
  next h => simp [h]

def Block.arrived (b : Block) : Block := { b with header := b.header.arrived }

structure Log where
  address : Address
  topics : List Hash
  data : Bytes
  blockNumber : UInt64
  txHash : Hash
  txIndex : UInt64
  blockHash : Hash
  blockTimestamp : UInt64
  index : UInt64
  removed : Bool
deriving DecidableEq

structure Receipt where
  txHash : Hash
  status : UInt64
  gasUsed : UInt64
  cumulativeGasUsed : UInt64
  contractAddress : Address
  logs : List Log := []
deriving DecidableEq

structure TxLookupEntry where
  blockHash : Hash
  blockIndex : UInt64
  txIndex : UInt64
deriving DecidableEq

inductive Record where
  | raw (bs : Bytes)
  | block (b : Block)
  | receipts (rs : List Receipt)
  | lookup (e : TxLookupEntry)
deriving DecidableEq

abbrev Database := Bytes → Option Record

namespace Database

def empty : Database := fun _ => none

def put (db : Database) (key : Bytes) (r : Record) : Database := Function.update db key (some r)

def getRaw (db : Database) (key : Bytes) : Option Bytes :=
  match db key with
  | some (.raw bs) => some bs
  | _ => none

def write (db : Database) (batch : List (Bytes × Bytes)) : Database :=
  batch.foldl (fun db e => db.put e.1 (.raw e.2)) db

end Database

end Zephyria
