import Zephyria.Messages
import Zephyria.RateLimit

/-!
One direction of a connection: the queue in front of `writeLoop`, the bytes on their way, and `readLoop`,
which starts each envelope with an empty buffer and counts the envelopes of a second.
-/

namespace Zephyria

open Rlp

abbrev Envelope := UInt64 × Bytes

def envelopeCodec : Codec Envelope := (Codec.uint64.pair Codec.string).one.list

section Link

variable {valid : Bytes → Bool}

/-- `writeLoop` knows no code for an `AuthMsg`. -/
def Msg.envelope : Msg valid → Option Envelope
  | .auth _ => none
  | m => some (m.code, m.payload)

variable (valid) in
/-- `accepted` records what `Send` has put into the queue, `arrivals` when the envelopes were decoded. -/
structure Link where
  queue : List (Msg valid)
  wire : Bytes
  reader : Reader Envelope
  arrivals : List Arrival
  accepted : List (Msg valid)

variable (valid) in
/-- Times are counted from the start of `readLoop`. -/
inductive LinkEvent where
  | send (m : Msg valid)
  | write
  | arrive (k now : ℕ) (isTrusted : Bool)

namespace Link

def start : Link valid := ⟨[], [], .start, [], []⟩

def step (l : Link valid) : LinkEvent valid → Link valid
  | .send m =>
    if l.queue.length < 100 then { l with queue := l.queue ++ [m], accepted := l.accepted ++ [m] } else l
  | .write =>
    { l with
      queue := l.queue.tail
      wire := l.wire ++ ((l.queue.head?.bind Msg.envelope).map envelopeCodec.encode).getD [] }
  | .arrive k now isTrusted =>
    -- A read takes at most what the buffer holds.
    let reader := l.reader.feed envelopeCodec (l.wire.take (min k 4096))
    { l with
      wire := l.wire.drop (min k 4096)
      reader := reader
      arrivals := l.arrivals ++
        (reader.received.drop l.reader.received.length).map fun e => ⟨now, e.2.length, isTrusted⟩ }

def handled (l : Link valid) : List (Msg valid) :=
  (l.reader.received.take (readMessages 0 l.arrivals).length).filterMap fun e => decodeMessage valid e.1 e.2

def UnderLimit (l : Link valid) : Prop :=
  ∀ i a, l.arrivals[i]? = some a → (RateLimiter.after ⟨0, 0⟩ (l.arrivals.take i)).outcome a ≠ .rateExceeded

def envelopes (ms : List (Msg valid)) : List Envelope := ms.filterMap Msg.envelope

structure Inv (l : Link valid) (written : List Envelope) (input : Bytes) : Prop where
  queue : l.queue.length ≤ 100
  accepted : envelopes l.accepted = written ++ envelopes l.queue
  wire : input ++ l.wire = written.flatMap envelopeCodec.encode
  reader : Reader.Keeps envelopeCodec l.reader input
  sizes : l.arrivals.map Arrival.size = l.reader.received.map fun e => e.2.length

variable {l : Link valid} {written : List Envelope} {input : Bytes}

theorem inv_start : Inv (start : Link valid) [] [] := ⟨Nat.zero_le _, rfl, rfl, Reader.keeps_start _, rfl⟩

theorem Inv.send (h : Inv l written input) (m : Msg valid) : Inv (l.step (.send m)) written input := by
  rw [step]
  split
  next hlt =>
    refine ⟨?_, ?_, h.wire, h.reader, h.sizes⟩
    · rw [List.length_append, List.length_singleton]
      omega
    · have haccepted := h.accepted
      rw [envelopes, envelopes] at haccepted
      rw [envelopes, envelopes, List.filterMap_append, List.filterMap_append, haccepted, List.append_assoc]
  next => exact h

theorem Inv.write (h : Inv l written input) : ∃ written', Inv (l.step .write) written' input := by
  rw [step]
  cases hqueue : l.queue with
  | nil =>
    refine ⟨written, ?_⟩
    obtain ⟨queue, wire, reader, arrivals, accepted⟩ := l
    subst hqueue
    simpa using h
  | cons m queue =>
    have hlen := h.queue
    have haccepted := h.accepted
    rw [hqueue] at hlen haccepted
    refine ⟨written ++ m.envelope.toList, ?_, ?_, ?_, h.reader, h.sizes⟩
    · exact (Nat.le_succ _).trans hlen
    · rw [haccepted, envelopes, List.filterMap_cons]
      cases m.envelope <;> simp [envelopes]
    · rw [← List.append_assoc, h.wire, List.flatMap_append]
      cases hm : m.envelope <;> simp [hm]

theorem received_feed (r : Reader Envelope) (chunk : Bytes) :
    (r.feed envelopeCodec chunk).received =
      r.received ++ (r.feed envelopeCodec chunk).received.drop r.received.length := by
  obtain ⟨e, rest, -, hfeed⟩ | ⟨-, hfeed⟩ := Reader.feed_cases envelopeCodec r chunk
  · rw [hfeed, List.drop_left]
  · rw [hfeed, List.drop_length, List.append_nil]

theorem Inv.arrive (h : Inv l written input) (k now : ℕ) (isTrusted : Bool) :
    Inv (l.step (.arrive k now isTrusted)) written (input ++ l.wire.take (min k 4096)) := by
  refine ⟨h.queue, h.accepted, ?_, h.reader.feed _, ?_⟩
  · rw [List.append_assoc]
    exact (congrArg (input ++ ·) (List.take_append_drop _ l.wire)).trans h.wire
  · rw [step, List.map_append, h.sizes, List.map_map, received_feed, List.map_append, List.drop_left]
    rfl

theorem Inv.run (h : Inv l written input) (events : List (LinkEvent valid)) :
    ∃ written' input', Inv (events.foldl step l) written' input' := by
  induction events generalizing l written input with
  | nil => exact ⟨written, input, h⟩
  | cons event events ih =>
    cases event with
    | send m => exact ih (h.send m)
    | write =>
      obtain ⟨written', h'⟩ := h.write
      exact ih h'
    | arrive k now isTrusted => exact ih (h.arrive k now isTrusted)

theorem envelope_eq_some {m : Msg valid} {e : Envelope} (h : m.envelope = some e) : e = (m.code, m.payload) := by
  cases m with
  | auth msg => cases h
  | status msg => exact (Option.some.inj h).symm
  | newBlock b => exact (Option.some.inj h).symm
  | getBlocks msg => exact (Option.some.inj h).symm
  | blocks bs => exact (Option.some.inj h).symm

theorem envelope_of_isSome {m : Msg valid} (h : m.envelope.isSome) : m.envelope = some (m.code, m.payload) := by
  obtain ⟨e, he⟩ := Option.isSome_iff_exists.mp h
  rw [he, envelope_eq_some he]

def sendable (ms : List (Msg valid)) : List (Msg valid) := ms.filter fun m => m.envelope.isSome

theorem envelopes_eq_map (ms : List (Msg valid)) : envelopes ms = (sendable ms).map fun m => (m.code, m.payload) := by
  induction ms with
  | nil => rfl
  | cons m ms ih =>
    rw [envelopes, sendable] at ih ⊢
    cases henvelope : m.envelope with
    | none => rw [List.filterMap_cons_none henvelope, List.filter_cons_of_neg (by simp [henvelope]), ih]
    | some e =>
      rw [List.filterMap_cons_some henvelope, List.filter_cons_of_pos (by simp [henvelope]), List.map_cons, ih,
        envelope_eq_some henvelope]

def Small (m : Msg valid) : Prop := m.payload.length ≤ maxMessageSize

instance (m : Msg valid) : Decidable (Small m) := inferInstanceAs (Decidable (_ ≤ _))

theorem Small.decode {m : Msg valid} (h : Small m) : decodeMessage valid m.code m.payload = some m :=
  decodeMessage_payload valid (h.trans_lt (by decide))

theorem decode_envelopes {ms : List (Msg valid)} (hsmall : ∀ m ∈ ms, Small m) :
    (envelopes ms).filterMap (fun e => decodeMessage valid e.1 e.2) = sendable ms := by
  have hdecode : ∀ m ∈ sendable ms, decodeMessage valid m.code m.payload = some m := by
    intro m hm
    exact (hsmall m (List.mem_of_mem_filter hm)).decode
  rw [envelopes_eq_map, List.filterMap_map]
  exact (List.filterMap_congr hdecode).trans List.filterMap_some

section Limiter

variable (hsizes : l.arrivals.map Arrival.size = l.reader.received.map fun e => e.2.length)

include hsizes

theorem length_arrivals : l.arrivals.length = l.reader.received.length := by
  have hlen := congrArg List.length hsizes
  rwa [List.length_map, List.length_map] at hlen

theorem readMessages_eq_iff (hsmall : ∀ e ∈ l.reader.received, e.2.length ≤ maxMessageSize) :
    readMessages 0 l.arrivals = l.arrivals ↔ l.UnderLimit := by
  rw [readMessages, readLoop_eq_self_iff]
  refine forall_congr' fun i => forall_congr' fun a => imp_congr_right fun ha => ?_
  have hsize : a.size ≤ maxMessageSize := by
    have hmem : a.size ∈ l.reader.received.map fun e => e.2.length :=
      hsizes ▸ List.mem_map_of_mem (List.mem_of_getElem? ha)
    obtain ⟨e, he, heq⟩ := List.mem_map.mp hmem
    exact heq ▸ hsmall e he
  rw [RateLimiter.outcome, if_neg (Nat.not_lt.mpr hsize)]
  split <;> simp

theorem handled_eq_of_underLimit (hsmall : ∀ e ∈ l.reader.received, e.2.length ≤ maxMessageSize) (h : l.UnderLimit) :
    l.handled = l.reader.received.filterMap fun e => decodeMessage valid e.1 e.2 := by
  rw [handled, (readMessages_eq_iff hsizes hsmall).mpr h, length_arrivals hsizes, List.take_length]

end Limiter

theorem underLimit_of_length_le (h : l.arrivals.length ≤ 100) : l.UnderLimit := by
  intro i a ha
  obtain ⟨hi, -⟩ := List.getElem?_eq_some_iff.mp ha
  refine outcome_ne_rateExceeded ⟨0, 0⟩ ?_ a
  rw [List.length_take, Nat.zero_add]
  omega

def sent (events : List (LinkEvent valid)) : List (Msg valid) :=
  events.filterMap fun
    | .send m => some m
    | _ => none

theorem accepted_sublist (l : Link valid) (events : List (LinkEvent valid)) :
    (events.foldl step l).accepted.Sublist (l.accepted ++ sent events) := by
  induction events generalizing l with
  | nil => simp [sent]
  | cons event events ih =>
    have hrest := ih (l.step event)
    cases event with
    | send m =>
      refine hrest.trans ?_
      have hcons : sent (.send m :: events) = m :: sent events := rfl
      rw [hcons, step]
      split
      next => simp
      next => exact List.Sublist.append_left (List.sublist_cons_self m _) _
    | write => exact hrest
    | arrive k now isTrusted => exact hrest

def requests : List (LinkEvent fun _ => false) :=
  [.send (blockRequest 5), .send (.auth ⟨[], []⟩), .send (blockRequest 6), .write, .write, .arrive 20 5 false,
    .arrive 18 7 false, .write, .arrive 100 7 false]

theorem small_requests : ∀ m ∈ (requests.foldl step start).accepted, Small m := by
  intro m hm
  have haccepted : (requests.foldl step start).accepted = [blockRequest 5, .auth ⟨[], []⟩, blockRequest 6] := rfl
  rw [haccepted] at hm
  simp only [List.mem_cons, List.not_mem_nil, or_false] at hm
  obtain rfl | rfl | rfl := hm <;> decide +kernel

theorem handled_in_order {events : List (LinkEvent valid)}
    (hsmall : ∀ m ∈ (events.foldl step start).accepted, Small m)
    (hlen : ((envelopes (events.foldl step start).accepted).flatMap envelopeCodec.encode).length < 256 ^ 8)
    (hdropped : (events.foldl step start).reader.dropped = []) :
    (events.foldl step start).handled <+: sendable (events.foldl step start).accepted ∧
      (events.foldl step start).accepted.Sublist (sent events) := by
  obtain ⟨written, input, h⟩ := inv_start.run events
  have hwritten : (written.flatMap envelopeCodec.encode).length < 256 ^ 8 := by
    rw [h.accepted, List.flatMap_append, List.length_append] at hlen
    omega
  obtain ⟨pending, hpending, -⟩ := h.reader.exists_pending hwritten h.wire hdropped
  have haccepted := h.accepted
  rw [hpending, List.append_assoc] at haccepted
  refine ⟨?_, accepted_sublist start events⟩
  rw [handled, ← decode_envelopes hsmall, haccepted]
  exact ((List.take_prefix _ _).trans (List.prefix_append _ _)).filterMap _

theorem handled_in_order_requests :
    (requests.foldl step start).handled <+: sendable (requests.foldl step start).accepted ∧
      (requests.foldl step start).accepted.Sublist (sent requests) :=
  handled_in_order small_requests (by decide +kernel) (by decide +kernel)

section Injection

theorem infix_payload (code : UInt64) (payload : Bytes) : payload <:+: envelopeCodec.encode (code, payload) :=
  Payload.infix_list _ (Codec.infix_pair_right _ _ (infix_encodeString payload))

theorem small_of_length_le {m : Msg valid} (h : (envelopeCodec.encode (m.code, m.payload)).length ≤ 4096) :
    Small m := by
  exact ((infix_payload m.code m.payload).length_le.trans h).trans (by decide)

theorem infix_extraData_fields (h : ArrivedHeader) : h.1.extraData <:+: headerFields.encode h := by
  have heq : headerFields.encode h = hashCodec.encode h.1.parentHash ++ (Codec.bigInt.encode h.1.number ++
      (Codec.uint64.encode h.1.time ++ (hashCodec.encode h.1.verkleRoot ++ (hashCodec.encode h.1.txHash ++
      (addressCodec.encode h.1.coinbase ++ (Codec.string.encode h.1.extraData ++
      (Codec.bigInt.encode h.1.difficulty ++ (Codec.uint64.encode h.1.gasLimit ++
      (Codec.uint64.encode h.1.gasUsed ++ Codec.bigInt.encode (h.1.baseFee.get h.2)))))))))) := rfl
  rw [heq]
  iterate 6 apply List.infix_append_of_infix_right
  exact List.infix_append_of_infix_left (infix_encodeString _)

theorem infix_extraData (b : WireBlock valid) :
    b.header.1.extraData <:+: envelopeCodec.encode ((Msg.newBlock b).code, (Msg.newBlock b).payload) := by
  have heq : (blockCodec valid).encode b =
      (headerCodec.pair (txCodec valid).many.list).one.list.encode (b.header, b.transactions) := rfl
  have hblock : b.header.1.extraData <:+: (blockCodec valid).encode b := by
    rw [heq]
    exact Payload.infix_list _ (Codec.infix_pair_left _ _ (Payload.infix_list _ (infix_extraData_fields b.header)))
  have hlist : b.header.1.extraData <:+: (blockCodec valid).one.list.encode b :=
    Payload.infix_list (blockCodec valid).one hblock
  have hpayload : (Msg.newBlock b).payload = (blockCodec valid).one.list.encode b := rfl
  rw [← hpayload] at hlist
  exact hlist.trans (infix_payload _ _)

theorem step_arrive {l : Link valid} {chunk wire rest : Bytes} {e : Envelope} (hwire : l.wire = chunk ++ wire)
    (hacc : l.reader.acc = []) (hchunk : chunk = envelopeCodec.encode e ++ rest) (hlen : chunk.length ≤ 4096) (now : ℕ)
    (isTrusted : Bool) :
    l.step (.arrive chunk.length now isTrusted) =
      { l with
        wire := wire
        reader := ⟨[], l.reader.received ++ [e], l.reader.dropped ++ rest⟩
        arrivals := l.arrivals ++ [⟨now, e.2.length, isTrusted⟩] } := by
  have hsize := congrArg List.length hchunk
  rw [List.length_append] at hsize
  have hfeed : l.reader.feed envelopeCodec chunk = ⟨[], l.reader.received ++ [e], l.reader.dropped ++ rest⟩ := by
    rw [Reader.feed, hacc, List.nil_append, hchunk, envelopeCodec.decode_encode e rest (by omega)]
  rw [step, Nat.min_eq_left hlen, hwire, List.drop_left, List.take_left, hfeed, List.drop_left]
  rfl

theorem foldl_write {g m : Msg valid} (hg : g.envelope.isSome) (hm : m.envelope.isSome) :
    [LinkEvent.send g, .send m, .write, .write].foldl step start =
      ⟨[], envelopeCodec.encode (g.code, g.payload) ++ envelopeCodec.encode (m.code, m.payload), .start, [],
        [g, m]⟩ := by
  simp [step, start, envelope_of_isSome hg, envelope_of_isSome hm]

theorem handled_pair {l : Link valid} {g e : Msg valid} (hg : Small g) (he : Small e)
    (h : l.reader.received = [(g.code, g.payload), (e.code, e.payload)])
    (hsizes : l.arrivals.map Arrival.size = l.reader.received.map fun e => e.2.length) : l.handled = [g, e] := by
  have hlength := length_arrivals hsizes
  rw [h] at hlength
  have hsmall : ∀ e ∈ l.reader.received, e.2.length ≤ maxMessageSize := by
    rw [h]
    rintro _ (_ | ⟨_, _ | ⟨_, ⟨⟩⟩⟩)
    · exact hg
    · exact he
  have hfew : l.arrivals.length ≤ 100 := by simp [hlength]
  rw [handled_eq_of_underLimit hsizes hsmall (underLimit_of_length_le hfew), h]
  simp [hg.decode, he.decode]

/-- A block whose extra data is an envelope makes its receiver handle a message that was never sent, if a read
ends right before the extra data. -/
theorem exists_handled_extraData {g e : Msg valid} {b : WireBlock valid} (hg : g.envelope.isSome)
    (hextra : b.header.1.extraData = envelopeCodec.encode (e.code, e.payload))
    (hroom : (envelopeCodec.encode (g.code, g.payload)).length +
      (envelopeCodec.encode ((Msg.newBlock b).code, (Msg.newBlock b).payload)).length ≤ 4096) :
    ∃ events : List (LinkEvent valid), (events.foldl step start).accepted = [g, .newBlock b] ∧
      (events.foldl step start).wire = [] ∧ (events.foldl step start).handled = [g, e] := by
  obtain ⟨before, after, hblock⟩ := infix_extraData b
  rw [hextra] at hblock
  -- The first read ends right before the extra data, the second takes the rest.
  set first := envelopeCodec.encode (g.code, g.payload) ++ before with hfirst
  set second := envelopeCodec.encode (e.code, e.payload) ++ after with hsecond
  have hsize := congrArg List.length hblock
  simp only [List.length_append] at hsize
  have hlen₁ : first.length ≤ 4096 := by
    rw [hfirst, List.length_append]
    omega
  have hlen₂ : second.length ≤ 4096 := by
    rw [hsecond, List.length_append]
    omega
  have hwire : envelopeCodec.encode (g.code, g.payload) ++
      envelopeCodec.encode ((Msg.newBlock b).code, (Msg.newBlock b).payload) = first ++ second := by
    rw [← hblock, hfirst, hsecond]
    simp only [List.append_assoc]
  refine ⟨[.send g, .send (.newBlock b), .write, .write] ++ [.arrive first.length 0 false, .arrive second.length 0 false], ?_⟩
  rw [List.foldl_append, foldl_write hg rfl, hwire, List.foldl_cons, step_arrive rfl rfl hfirst hlen₁, List.foldl_cons,
    step_arrive (List.append_nil second).symm rfl hsecond hlen₂]
  refine ⟨rfl, rfl, handled_pair (small_of_length_le ?_) (small_of_length_le ?_) rfl rfl⟩
  · omega
  · omega

def carrier (extraData : Bytes) : WireBlock fun _ => false :=
  ⟨⟨⟨0, 0, 0, 0, 0, 0, extraData, 1, 0, 0, some 0⟩, rfl⟩, []⟩

theorem exists_handled_extraData_request :
    ∃ events : List (LinkEvent fun _ => false), (events.foldl step start).accepted = [blockRequest 5,
        .newBlock (carrier (envelopeCodec.encode ((blockRequest 6).code, (blockRequest 6).payload)))] ∧
      (events.foldl step start).wire = [] ∧ (events.foldl step start).handled = [blockRequest 5, blockRequest 6] :=
  exists_handled_extraData rfl rfl (by decide +kernel)

end Injection

end Link

end Link

end Zephyria
