import Zephyria.Lib.Framing
import Zephyria.RawTransactions
import Zephyria.Sync

/-!
The messages that peers exchange, as RLP lists inside an envelope of a code and a payload.
-/

namespace Zephyria

open Rlp

section Headers

abbrev ArrivedHeader := { h : Header // h.baseFee.isSome }

def headerFields : Codec ArrivedHeader :=
  (hashCodec.pair <| Codec.bigInt.pair <| Codec.uint64.pair <| hashCodec.pair <| hashCodec.pair <|
    addressCodec.pair <| Codec.string.pair <| Codec.bigInt.pair <| Codec.uint64.pair <| Codec.uint64.pair
    Codec.bigInt).refine
    (fun h => (h.1.parentHash, h.1.number, h.1.time, h.1.verkleRoot, h.1.txHash, h.1.coinbase, h.1.extraData,
      h.1.difficulty, h.1.gasLimit, h.1.gasUsed, h.1.baseFee.get h.2))
    (fun (parentHash, number, time, verkleRoot, txHash, coinbase, extraData, difficulty, gasLimit, gasUsed, baseFee) =>
      some ⟨⟨parentHash, number, time, verkleRoot, txHash, coinbase, extraData, difficulty, gasLimit, gasUsed,
        some baseFee⟩, rfl⟩)
    (fun h => by
      rw [Option.some_inj]
      apply Subtype.ext
      simp)
    (fun _ _ h => by
      rw [← Option.some.inj h]
      rfl)

def headerCodec : Codec ArrivedHeader := headerFields.one.list

end Headers

section Blocks

variable (valid : Bytes → Bool)

def isOther (envelope : Bytes) : Bool :=
  (envelope.head? = some 1 ∨ envelope.head? = some 3 ∨ envelope.head? = some 4) ∧ 1 < envelope.length ∧ valid envelope

inductive TypedTx where
  | dynamicFee (tx : DynamicFeeTx)
  | other (envelope : { e : Bytes // isOther valid e })

variable {valid} in
def TypedTx.envelope : TypedTx valid → Bytes
  | dynamicFee tx => 2 :: DynamicFeeTx.codec.encode tx
  | other e => e.1

def readTyped (envelope : Bytes) : Option (TypedTx valid) :=
  if envelope.head? = some 2 then (DynamicFeeTx.codec.whole envelope.tail).map .dynamicFee
  else if h : isOther valid envelope then some (.other ⟨envelope, h⟩)
  else none

theorem isOther_head {envelope : Bytes} (h : isOther valid envelope) : envelope.head? ≠ some 2 := by
  rw [isOther, decide_eq_true_iff] at h
  rintro heq
  rw [heq] at h
  simp at h

theorem readTyped_envelope (tx : TypedTx valid) (hlen : (Codec.string.encode tx.envelope).length < 256 ^ 8) :
    readTyped valid tx.envelope = some tx := by
  cases tx with
  | dynamicFee tx =>
    have hle : (2 :: DynamicFeeTx.codec.encode tx).length ≤ (encodeString (2 :: DynamicFeeTx.codec.encode tx)).length :=
      (infix_encodeString _).length_le
    have hlt : (DynamicFeeTx.codec.encode tx).length < 256 ^ 8 :=
      (Nat.lt_succ_self _).trans_le (hle.trans hlen.le)
    rw [readTyped, TypedTx.envelope, if_pos List.head?_cons, List.tail_cons, Codec.whole_encode _ _ hlt]
    rfl
  | other e =>
    rw [readTyped, TypedTx.envelope, if_neg (isOther_head valid e.2), dif_pos e.2]

theorem envelope_of_readTyped {envelope : Bytes} {tx : TypedTx valid} (h : readTyped valid envelope = some tx) :
    envelope = tx.envelope := by
  rw [readTyped] at h
  split at h
  next hhead =>
    obtain ⟨d, hd, rfl⟩ := Option.map_eq_some_iff.mp h
    cases envelope with
    | nil => cases hhead
    | cons first rest =>
      obtain rfl := Option.some.inj hhead
      rw [TypedTx.envelope, ← DynamicFeeTx.codec.eq_encode_of_whole hd]
      rfl
  next =>
    split at h
    next => rw [← Option.some.inj h, TypedTx.envelope]
    next => cases h

def typedCodec : Codec (TypedTx valid) :=
  Codec.string.translate TypedTx.envelope (readTyped valid) (readTyped_envelope valid)
    fun _ _ => envelope_of_readTyped valid

abbrev WireTx := TypedTx valid ⊕ LegacyTx

def txCodec : Codec (WireTx valid) :=
  (typedCodec valid).orList LegacyTx.fields.one fun _ => encodeString_cons

structure WireBlock where
  header : ArrivedHeader
  transactions : List (WireTx valid)

def blockCodec : Codec (WireBlock valid) :=
  ((headerCodec.pair (txCodec valid).many.list).one.list).refine (fun b => (b.header, b.transactions))
    (fun (header, transactions) => some ⟨header, transactions⟩) (fun _ => rfl)
    (fun _ _ h => by rw [← Option.some.inj h])

end Blocks

section Messages

variable (valid : Bytes → Bool)

/-- `StatusMsg` with the fields that `handleStatus` does not read. -/
structure Handshake extends StatusMsg where
  protocolVersion : UInt32
  challenge : Bytes
deriving DecidableEq

structure AuthMsg where
  signature : Bytes
  publicKey : Bytes
deriving DecidableEq

inductive Msg where
  | status (msg : Handshake)
  | newBlock (block : WireBlock valid)
  | getBlocks (msg : GetBlocksMsg)
  | blocks (blocks : List (WireBlock valid))
  | auth (msg : AuthMsg)

def statusCodec : Codec Handshake :=
  ((Codec.uint32.pair <| Codec.uint64.pair <| hashCodec.pair <| hashCodec.pair <| Codec.uint64.pair
    Codec.string).one.list).refine
    (fun m => (m.protocolVersion, m.networkID, m.genesisHash, m.headHash, m.headNumber, m.challenge))
    (fun (protocolVersion, networkID, genesisHash, headHash, headNumber, challenge) =>
      some ⟨⟨networkID, genesisHash, headHash, headNumber⟩, protocolVersion, challenge⟩)
    (fun _ => rfl) (fun _ _ h => by rw [← Option.some.inj h])

def newBlockCodec : Codec (WireBlock valid) := (blockCodec valid).one.list

def getBlocksCodec : Codec GetBlocksMsg :=
  ((hashCodec.pair Codec.uint64).one.list).refine (fun m => (m.startHash, m.limit))
    (fun (startHash, limit) => some ⟨startHash, limit⟩) (fun _ => rfl) (fun _ _ h => by rw [← Option.some.inj h])

def blocksCodec : Codec (List (WireBlock valid)) := (blockCodec valid).many.list.one.list

def authCodec : Codec AuthMsg :=
  ((Codec.string.pair Codec.string).one.list).refine (fun m => (m.signature, m.publicKey))
    (fun (signature, publicKey) => some ⟨signature, publicKey⟩) (fun _ => rfl)
    (fun _ _ h => by rw [← Option.some.inj h])

variable {valid} in
def Msg.code : Msg valid → UInt64
  | .status _ => 0
  | .newBlock _ => 1
  | .getBlocks _ => 2
  | .blocks _ => 3
  | .auth _ => 4

variable {valid} in
def Msg.payload : Msg valid → Bytes
  | .status msg => statusCodec.encode msg
  | .newBlock b => (newBlockCodec valid).encode b
  | .getBlocks msg => getBlocksCodec.encode msg
  | .blocks bs => (blocksCodec valid).encode bs
  | .auth msg => authCodec.encode msg

/-- `handleMessage` up to the handler that it calls. Other codes and malformed payloads are passed over. -/
def decodeMessage (code : UInt64) (payload : Bytes) : Option (Msg valid) :=
  if code = 0 then (statusCodec.whole payload).map .status
  else if code = 1 then ((newBlockCodec valid).whole payload).map .newBlock
  else if code = 2 then (getBlocksCodec.whole payload).map .getBlocks
  else if code = 3 then ((blocksCodec valid).whole payload).map .blocks
  else if code = 4 then (authCodec.whole payload).map .auth
  else none

theorem decodeMessage_payload {m : Msg valid} (hlen : m.payload.length < 256 ^ 8) :
    decodeMessage valid m.code m.payload = some m := by
  cases m with
  | status msg =>
    have hwhole := statusCodec.whole_encode msg hlen
    simp [decodeMessage, Msg.code, Msg.payload, hwhole]
  | newBlock b =>
    have hwhole := (newBlockCodec valid).whole_encode b hlen
    simp [decodeMessage, Msg.code, Msg.payload, hwhole]
  | getBlocks msg =>
    have hwhole := getBlocksCodec.whole_encode msg hlen
    simp [decodeMessage, Msg.code, Msg.payload, hwhole]
  | blocks bs =>
    have hwhole := (blocksCodec valid).whole_encode bs hlen
    simp [decodeMessage, Msg.code, Msg.payload, hwhole]
  | auth msg =>
    have hwhole := authCodec.whole_encode msg hlen
    simp [decodeMessage, Msg.code, Msg.payload, hwhole]

theorem eq_of_decodeMessage {code : UInt64} {payload : Bytes} {m : Msg valid}
    (h : decodeMessage valid code payload = some m) : code = m.code ∧ payload = m.payload := by
  rw [decodeMessage] at h
  split_ifs at h with h0 h1 h2 h3 h4
  · obtain ⟨msg, hmsg, rfl⟩ := Option.map_eq_some_iff.mp h
    exact ⟨h0, statusCodec.eq_encode_of_whole hmsg⟩
  · obtain ⟨block, hblock, rfl⟩ := Option.map_eq_some_iff.mp h
    exact ⟨h1, (newBlockCodec valid).eq_encode_of_whole hblock⟩
  · obtain ⟨msg, hmsg, rfl⟩ := Option.map_eq_some_iff.mp h
    exact ⟨h2, getBlocksCodec.eq_encode_of_whole hmsg⟩
  · obtain ⟨blocks, hblocks, rfl⟩ := Option.map_eq_some_iff.mp h
    exact ⟨h3, (blocksCodec valid).eq_encode_of_whole hblocks⟩
  · obtain ⟨msg, hmsg, rfl⟩ := Option.map_eq_some_iff.mp h
    exact ⟨h4, authCodec.eq_encode_of_whole hmsg⟩

theorem decodeMessage_eq_some_iff {code : UInt64} {payload : Bytes} (hlen : payload.length < 256 ^ 8) (m : Msg valid) :
    decodeMessage valid code payload = some m ↔ code = m.code ∧ payload = m.payload := by
  constructor
  · exact eq_of_decodeMessage valid
  · rintro ⟨rfl, rfl⟩
    exact decodeMessage_payload valid hlen

def blockRequest (limit : UInt64) : Msg fun _ => false := .getBlocks ⟨0, limit⟩

theorem decodeMessage_eq_some_iff_request :
    decodeMessage (fun _ => false) 2 (blockRequest 5).payload = some (blockRequest 5) :=
  (decodeMessage_eq_some_iff (fun _ => false) (by decide) (blockRequest 5)).mpr ⟨rfl, rfl⟩

end Messages

end Zephyria
