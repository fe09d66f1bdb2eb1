import Zephyria.CanonicalIndex
import Zephyria.HistoricalState
import Zephyria.Lib.Rlp

namespace Zephyria

open Rlp

structure LegacyTx where
  nonce : UInt64
  gasPrice : ℕ
  gas : UInt64
  toAddr : Option Address
  value : ℕ
  data : Bytes
  v : ℕ
  r : ℕ
  s : ℕ
deriving DecidableEq

structure DynamicFeeTx where
  chainID : ℕ
  nonce : UInt64
  gasTipCap : ℕ
  gasFeeCap : ℕ
  gas : UInt64
  toAddr : Option Address
  value : ℕ
  data : Bytes
  accessList : List (Address × List Hash)
  v : ℕ
  r : ℕ
  s : ℕ
deriving DecidableEq

/-- What the node reads of a transaction of one of the other types. -/
structure OtherTx where
  chainID : ℕ
  nonce : UInt64
  gas : UInt64
  gasPrice : ℕ
  value : ℕ
  hash : Hash
deriving DecidableEq

inductive TxData where
  | legacy (tx : LegacyTx)
  | dynamicFee (tx : DynamicFeeTx)
  | other (tx : OtherTx)
deriving DecidableEq

structure Wire where
  keccak256 : Bytes → Hash
  sender : TxData → Option Address
  decodeOther : UInt8 → Bytes → Option OtherTx

def addressCodec : Codec Address := Codec.word 20

def hashCodec : Codec Hash := Codec.word 32

def toCodec : Codec (Option Address) := Codec.pointer 20 (by decide)

def accessTupleCodec : Codec (Address × List Hash) := (addressCodec.pair hashCodec.many.list).one.list

def LegacyTx.fields : Codec LegacyTx :=
  (Codec.uint64.pair <| Codec.bigInt.pair <| Codec.uint64.pair <| toCodec.pair <| Codec.bigInt.pair <|
    Codec.string.pair <| Codec.bigInt.pair <| Codec.bigInt.pair Codec.bigInt).refine
    (fun tx => (tx.nonce, tx.gasPrice, tx.gas, tx.toAddr, tx.value, tx.data, tx.v, tx.r, tx.s))
    (fun (nonce, gasPrice, gas, toAddr, value, data, v, r, s) =>
      some ⟨nonce, gasPrice, gas, toAddr, value, data, v, r, s⟩)
    (fun _ => rfl) (fun _ _ h => by rw [← Option.some.inj h])

def LegacyTx.codec : Codec LegacyTx := LegacyTx.fields.one.list

def DynamicFeeTx.fields : Codec DynamicFeeTx :=
  (Codec.bigInt.pair <| Codec.uint64.pair <| Codec.bigInt.pair <| Codec.bigInt.pair <| Codec.uint64.pair <|
    toCodec.pair <| Codec.bigInt.pair <| Codec.string.pair <| accessTupleCodec.many.list.pair <|
    Codec.bigInt.pair <| Codec.bigInt.pair Codec.bigInt).refine
    (fun tx => (tx.chainID, tx.nonce, tx.gasTipCap, tx.gasFeeCap, tx.gas, tx.toAddr, tx.value, tx.data,
      tx.accessList, tx.v, tx.r, tx.s))
    (fun (chainID, nonce, gasTipCap, gasFeeCap, gas, toAddr, value, data, accessList, v, r, s) =>
      some ⟨chainID, nonce, gasTipCap, gasFeeCap, gas, toAddr, value, data, accessList, v, r, s⟩)
    (fun _ => rfl) (fun _ _ h => by rw [← Option.some.inj h])

def DynamicFeeTx.codec : Codec DynamicFeeTx := DynamicFeeTx.fields.one.list

namespace TxData

def marshalBinary : TxData → Option Bytes
  | legacy tx => some (LegacyTx.codec.encode tx)
  | dynamicFee tx => some (2 :: DynamicFeeTx.codec.encode tx)
  | other _ => none

def hash (w : Wire) : TxData → Hash
  | legacy tx => w.keccak256 (LegacyTx.codec.encode tx)
  | dynamicFee tx => w.keccak256 (2 :: DynamicFeeTx.codec.encode tx)
  | other tx => tx.hash

def chainID : TxData → ℕ
  | legacy tx => deriveChainId tx.v
  | dynamicFee tx => tx.chainID
  | other tx => tx.chainID

def nonce : TxData → UInt64
  | legacy tx => tx.nonce
  | dynamicFee tx => tx.nonce
  | other tx => tx.nonce

def gas : TxData → UInt64
  | legacy tx => tx.gas
  | dynamicFee tx => tx.gas
  | other tx => tx.gas

def gasPrice : TxData → ℕ
  | legacy tx => tx.gasPrice
  | dynamicFee tx => tx.gasFeeCap
  | other tx => tx.gasPrice

def value : TxData → ℕ
  | legacy tx => tx.value
  | dynamicFee tx => tx.value
  | other tx => tx.value

end TxData

section Decode

variable (w : Wire)

def decodeTyped : Bytes → Option TxData
  | [] => none
  | txType :: payload =>
    if payload = [] then none
    else if txType = 2 then (DynamicFeeTx.codec.whole payload).map .dynamicFee
    else if txType = 1 ∨ txType = 3 ∨ txType = 4 then (w.decodeOther txType payload).map .other
    else none

/-- `rlp.DecodeBytes` into a transaction, with the size that it records. A single byte is too short
for an envelope, whatever follows it. -/
def decodeTransaction : Bytes → Option (TxData × ℕ)
  | [] => none
  | first :: rest =>
    if first.toNat < 128 then none
    else if first.toNat < 192 then
      (Codec.string.whole (first :: rest)).bind fun envelope =>
        (decodeTyped w envelope).map fun tx => (tx, envelope.length)
    else (LegacyTx.codec.whole (first :: rest)).map fun tx => (.legacy tx, rest.length + 1)

end Decode

inductive SendError where
  | malformed
  | invalidChainID (txID chainID : ℕ)
  | invalidSignature
  | oversized (size : ℕ)
  | notReady
  | nonceTooLow (addr : Address) (nonce confirmed : UInt64)
  | insufficientFunds (addr : Address) (balance cost : ℕ)
deriving DecidableEq

structure PublicEthAPI where
  bc : Blockchain
  chainID : ℕ
  keccak : Keccak256

namespace PublicEthAPI

variable (api : PublicEthAPI) (w : Wire)

def submit (tx : TxData) (size : ℕ) : Except SendError Hash :=
  if 0 < tx.chainID ∧ tx.chainID ≠ api.chainID then .error (.invalidChainID tx.chainID api.chainID)
  else
    match w.sender tx with
    | none => .error .invalidSignature
    | some addr =>
      if 512 * 1024 < size then .error (.oversized size)
      else
        match api.bc.currentBlock with
        | none => .error .notReady
        | some current =>
          let state := api.bc.stateAt current.header.verkleRoot
          let confirmed := (StateDB.exec (getNonce api.keccak addr) state).1
          if tx.nonce < confirmed then .error (.nonceTooLow addr tx.nonce confirmed)
          else
            let balance := (StateDB.exec (getBalance api.keccak addr) state).1.toNat
            let cost := tx.gas.toNat * tx.gasPrice + tx.value
            if balance < cost then .error (.insufficientFunds addr balance cost)
            else .ok (tx.hash w)

def sendRawTransaction (data : Bytes) : Except SendError Hash :=
  match decodeTransaction w data with
  | none => .error .malformed
  | some (tx, size) => api.submit w tx size

end PublicEthAPI

structure Sent (w : Wire) (tx : TxData) (data : Bytes) : Prop where
  encoding : tx.marshalBinary = some data
  signed : w.sender tx ≠ none

structure RoundTrips (api : PublicEthAPI) (w : Wire) (data : Bytes) : Prop where
  decoded : ∀ tx, Sent w tx data → ∃ tx' size, decodeTransaction w data = some (tx', size) ∧ tx'.hash w = tx.hash w
  rejected : (¬∃ tx, Sent w tx data) → ∃ err, api.sendRawTransaction w data = .error err

def WrappedAndTaken (api : PublicEthAPI) (w : Wire) (data : Bytes) : Prop :=
  ∃ envelope tx, data = encodeString envelope ∧ decodeTyped w envelope = some tx ∧
    ∃ hash, api.submit w tx envelope.length = .ok hash

section RoundTrip

variable {api : PublicEthAPI} {w : Wire} {data : Bytes}

theorem head_legacy (tx : LegacyTx) (hlen : (LegacyTx.codec.encode tx).length < 256 ^ 8) :
    ∃ first rest, LegacyTx.codec.encode tx = first :: rest ∧ 192 ≤ first.toNat :=
  Payload.head_list _ tx hlen

theorem decodeTransaction_legacy (w : Wire) (tx : LegacyTx) (hlen : (LegacyTx.codec.encode tx).length < 256 ^ 8) :
    decodeTransaction w (LegacyTx.codec.encode tx) = some (.legacy tx, (LegacyTx.codec.encode tx).length) := by
  have hwhole := LegacyTx.codec.whole_encode tx hlen
  obtain ⟨first, rest, hcons, hfirst⟩ := head_legacy tx hlen
  rw [hcons] at hwhole ⊢
  rw [decodeTransaction, if_neg (by omega), if_neg (by omega), hwhole]
  rfl

theorem decodeTransaction_typeByte (w : Wire) {first : UInt8} (hfirst : first.toNat < 128) (rest : Bytes) :
    decodeTransaction w (first :: rest) = none := by
  rw [decodeTransaction, if_pos hfirst]

theorem head_envelope {envelope : Bytes} {tx : TxData} (h : decodeTyped w envelope = some tx)
    (hlen : (encodeString envelope).length < 256 ^ 8) :
    ∃ first rest, encodeString envelope = first :: rest ∧ 128 ≤ first.toNat ∧ first.toNat < 192 := by
  have hsingle : ¬isSingle envelope := by
    obtain _ | ⟨txType, _ | ⟨b, payload⟩⟩ := envelope
    · cases h
    · cases h
    · exact nofun
  rw [encodeString, if_neg hsingle] at hlen ⊢
  rw [List.length_append] at hlen
  obtain ⟨first, rest, hcons, hle, hlt, -⟩ := content_cons 128 envelope (by omega) (by decide)
  exact ⟨first, rest, hcons, hle, hlt⟩

theorem decodeTransaction_envelope {envelope : Bytes} {tx : TxData} (h : decodeTyped w envelope = some tx)
    (hlen : (encodeString envelope).length < 256 ^ 8) :
    decodeTransaction w (encodeString envelope) = some (tx, envelope.length) := by
  have hwhole : Codec.string.whole (encodeString envelope) = some envelope :=
    Codec.string.whole_encode envelope hlen
  obtain ⟨first, rest, hcons, hle, hlt⟩ := head_envelope h hlen
  rw [hcons] at hwhole ⊢
  rw [decodeTransaction, if_neg (by omega), if_pos (by omega), hwhole, Option.bind_some, h]
  rfl

theorem decodeTransaction_cases {tx : TxData} {size : ℕ} (h : decodeTransaction w data = some (tx, size)) :
    (∃ legacy, data = LegacyTx.codec.encode legacy ∧ tx = .legacy legacy) ∨
      ∃ envelope, data = encodeString envelope ∧ decodeTyped w envelope = some tx ∧ size = envelope.length := by
  cases data with
  | nil => cases h
  | cons first rest =>
    rw [decodeTransaction] at h
    by_cases hbyte : first.toNat < 128
    · rw [if_pos hbyte] at h
      cases h
    · rw [if_neg hbyte] at h
      by_cases hstring : first.toNat < 192
      · rw [if_pos hstring] at h
        obtain ⟨envelope, hwhole, htyped⟩ := Option.bind_eq_some_iff.mp h
        obtain ⟨tx', htx', hpair⟩ := Option.map_eq_some_iff.mp htyped
        obtain ⟨rfl, rfl⟩ := Prod.mk.inj hpair
        exact .inr ⟨envelope, Codec.string.eq_encode_of_whole hwhole, htx', rfl⟩
      · rw [if_neg hstring] at h
        obtain ⟨legacy, hwhole, hpair⟩ := Option.map_eq_some_iff.mp h
        obtain ⟨rfl, -⟩ := Prod.mk.inj hpair
        exact .inl ⟨legacy, LegacyTx.codec.eq_encode_of_whole hwhole, rfl⟩

theorem submit_unsigned {tx : TxData} (h : w.sender tx = none) (size : ℕ) :
    ∃ err, api.submit w tx size = .error err := by
  unfold PublicEthAPI.submit
  rw [h]
  split
  · exact ⟨_, rfl⟩
  · exact ⟨_, rfl⟩

theorem exists_error_iff {ε α : Type} (res : Except ε α) : (∃ err, res = .error err) ↔ ¬∃ a, res = .ok a := by
  cases res <;> simp

theorem not_sent_envelope {envelope : Bytes} {tx : TxData} (h : decodeTyped w envelope = some tx)
    (hlen : (encodeString envelope).length < 256 ^ 8) : ¬∃ sent, Sent w sent (encodeString envelope) := by
  obtain ⟨first, rest, hcons, hle, hlt⟩ := head_envelope h hlen
  rintro ⟨sent, hencoding, -⟩
  cases sent with
  | legacy legacy =>
    have hdata := Option.some.inj hencoding
    obtain ⟨first', rest', hcons', hfirst'⟩ := head_legacy legacy (by rwa [hdata])
    rw [hcons', hcons] at hdata
    obtain ⟨rfl, -⟩ := List.cons.inj hdata
    omega
  | dynamicFee dynamicFee =>
    have hdata := Option.some.inj hencoding
    rw [hcons] at hdata
    obtain ⟨rfl, -⟩ := List.cons.inj hdata
    exact absurd hle (by decide)
  | other other => cases hencoding

theorem not_roundTrips_dynamicFee {tx : DynamicFeeTx} (h : Sent w (.dynamicFee tx) data) : ¬RoundTrips api w data := by
  intro hround
  obtain ⟨tx', size, hdecode, -⟩ := hround.decoded _ h
  obtain rfl := Option.some.inj h.encoding
  rw [decodeTransaction_typeByte w (by decide)] at hdecode
  cases hdecode

theorem not_roundTrips_wrapped (hlen : data.length < 256 ^ 8) (h : WrappedAndTaken api w data) :
    ¬RoundTrips api w data := by
  intro hround
  obtain ⟨envelope, tx, rfl, htyped, hash, hsubmit⟩ := h
  obtain ⟨err, herr⟩ := hround.rejected (not_sent_envelope htyped hlen)
  rw [PublicEthAPI.sendRawTransaction, decodeTransaction_envelope htyped hlen] at herr
  dsimp only at herr
  rw [hsubmit] at herr
  cases herr

theorem raw_round_trips_iff (api : PublicEthAPI) (w : Wire) (data : Bytes) (hlen : data.length < 2 ^ 64) :
    RoundTrips api w data ↔ (¬∃ tx, Sent w (.dynamicFee tx) data) ∧ ¬WrappedAndTaken api w data := by
  constructor
  · intro hround
    refine ⟨?_, fun hwrapped => not_roundTrips_wrapped hlen hwrapped hround⟩
    rintro ⟨tx, hsent⟩
    exact not_roundTrips_dynamicFee hsent hround
  · rintro ⟨hdynamic, hwrapped⟩
    constructor
    · intro tx hsent
      cases tx with
      | legacy tx =>
        obtain rfl := Option.some.inj hsent.encoding
        exact ⟨_, _, decodeTransaction_legacy w tx hlen, rfl⟩
      | dynamicFee tx => exact absurd ⟨tx, hsent⟩ hdynamic
      | other tx => cases hsent.encoding
    · intro hunsent
      unfold PublicEthAPI.sendRawTransaction
      cases hdecode : decodeTransaction w data with
      | none => exact ⟨_, rfl⟩
      | some decoded =>
        obtain ⟨tx, size⟩ := decoded
        obtain ⟨legacy, rfl, rfl⟩ | ⟨envelope, rfl, htyped, rfl⟩ := decodeTransaction_cases hdecode
        · apply submit_unsigned
          by_contra hsigned
          exact hunsent ⟨.legacy legacy, rfl, hsigned⟩
        · dsimp only
          rw [exists_error_iff]
          rintro ⟨hash, hsubmit⟩
          exact hwrapped ⟨envelope, tx, rfl, htyped, hash, hsubmit⟩

end RoundTrip

section Sample

def sampleWire : Wire where
  keccak256 bs := bytesToHash bs
  sender _ := some 0xa1
  decodeOther _ _ := none

def sampleAPI : PublicEthAPI where
  bc := ((Blockchain.addBlock clockSealing ⟨.empty, none⟩ (clockBlock 0 0) none).toOption).getD ⟨.empty, none⟩
  chainID := 99999
  keccak := .ideal

def legacyTransfer : LegacyTx where
  nonce := 0
  gasPrice := 1000000000
  gas := 21000
  toAddr := some 0xb1
  value := 1
  data := []
  v := 200033
  r := 1
  s := 1

def walletTransfer (gasFeeCap value : ℕ) : DynamicFeeTx where
  chainID := 99999
  nonce := 0
  gasTipCap := 0
  gasFeeCap := gasFeeCap
  gas := 21000
  toAddr := some 0xb1
  value := value
  data := []
  accessList := []
  v := 1
  r := 1
  s := 1

theorem raw_round_trips_legacy : RoundTrips sampleAPI sampleWire (LegacyTx.codec.encode legacyTransfer) := by
  have hlen : (LegacyTx.codec.encode legacyTransfer).length < 2 ^ 64 := by decide +kernel
  refine (raw_round_trips_iff _ _ _ hlen).mpr ⟨?_, ?_⟩
  · rintro ⟨tx, hsent⟩
    have hhead : some 2 = (LegacyTx.codec.encode legacyTransfer).head? :=
      congrArg List.head? (Option.some.inj hsent.encoding)
    exact absurd hhead (by decide +kernel)
  · rintro ⟨envelope, tx, hdata, htyped, -⟩
    apply not_sent_envelope htyped (hdata ▸ hlen)
    exact ⟨.legacy legacyTransfer, congrArg some hdata, nofun⟩

theorem wallet_transfer_rejected :
    Sent sampleWire (.dynamicFee (walletTransfer 2000000000 1))
        (2 :: DynamicFeeTx.codec.encode (walletTransfer 2000000000 1)) ∧
      ¬RoundTrips sampleAPI sampleWire (2 :: DynamicFeeTx.codec.encode (walletTransfer 2000000000 1)) ∧
      ¬RoundTrips sampleAPI sampleWire (encodeString (2 :: DynamicFeeTx.codec.encode (walletTransfer 0 0))) := by
  have hsent : Sent sampleWire (.dynamicFee (walletTransfer 2000000000 1))
      (2 :: DynamicFeeTx.codec.encode (walletTransfer 2000000000 1)) := ⟨rfl, nofun⟩
  refine ⟨hsent, not_roundTrips_dynamicFee hsent, not_roundTrips_wrapped (by decide +kernel) ?_⟩
  have htyped : decodeTyped sampleWire (2 :: DynamicFeeTx.codec.encode (walletTransfer 0 0)) =
      some (.dynamicFee (walletTransfer 0 0)) := by decide +kernel
  refine ⟨_, _, rfl, htyped, (TxData.dynamicFee (walletTransfer 0 0)).hash sampleWire, ?_⟩
  decide +kernel

end Sample

end Zephyria
