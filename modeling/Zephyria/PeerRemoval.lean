import Zephyria.Lib.Runs

namespace Zephyria

open Relation

inductive StopPc where
  | close
  | hangUp
  | wait
deriving DecidableEq

inductive RemovePc where
  | lock
  | check
  | stop (pc : StopPc)
  | unlock
deriving DecidableEq

/-- Where a loop of a peer is. `busy` is outside the select, with a message; `resume` says that
`RemovePeer` was called from a message handler, after which the loop goes on. -/
inductive LoopPc where
  | unstarted
  | top
  | busy
  | remove (pc : RemovePc) (resume : Bool)
  | done
deriving DecidableEq

inductive Side where
  | reader
  | writer
deriving DecidableEq

inductive SetupPc where
  | idle
  | lock
  | insert
  | unlock
  | start
  | send
  | done
deriving DecidableEq

inductive ServerStopPc (P : Type) where
  | idle
  | lock
  | range (visited : List P)
  | stop (p : P) (visited : List P) (pc : StopPc)
  | done

inductive BroadcastPc (P : Type) where
  | idle
  | lock
  | range (visited : List P)
  | done

/-- A peer with the goroutines that belong to it. `listed` is its entry in the map of the server,
`closes` counts how often its `quitCh` has been closed. -/
structure Peer where
  listed : Bool
  closes : ℕ
  connClosed : Bool
  sendCh : ℕ
  setup : SetupPc
  loop : Side → LoopPc

inductive Holder (P : Type) where
  | setup (p : P)
  | loop (p : P) (side : Side)
  | stop
deriving DecidableEq

structure Server (P B : Type) where
  peer : P → Peer
  writer : Option (Holder P)
  stop : ServerStopPc P
  broadcast : B → BroadcastPc P

def newPeer : Peer where
  listed := false
  closes := 0
  connClosed := false
  sendCh := 0
  setup := .idle
  loop _ := .unstarted

def newServer (P B : Type) : Server P B where
  peer _ := newPeer
  writer := none
  stop := .idle
  broadcast _ := .idle

def sendBuffer : ℕ := 100

namespace Peer

/-- `Send` never blocks: it queues the message, or drops it when the buffer is full or the peer quits. -/
inductive Send : Peer → Peer → Prop
  | queued {q : Peer} (h : q.sendCh < sendBuffer) : Send q { q with sendCh := q.sendCh + 1 }
  | dropped {q : Peer} (h : sendBuffer ≤ q.sendCh ∨ 0 < q.closes) : Send q q

def setLoop (q : Peer) (side : Side) (pc : LoopPc) : Peer := { q with loop := Function.update q.loop side pc }

def Finished (q : Peer) (side : Side) : Prop := q.loop side = .unstarted ∨ q.loop side = .done

inductive Action where
  | plain
  | removePeer
  | acquire
  | release

/-- The steps of `readLoop` and `writeLoop`, and of `RemovePeer` and `Stop` called by them. Reads and
writes may fail whenever they are made. -/
inductive LoopStep (q : Peer) : Side → Action → Peer → Prop
  | quit {side : Side} (h : q.loop side = .top) (hquit : 0 < q.closes) : LoopStep q side .plain (q.setLoop side .done)
  | read (h : q.loop .reader = .top) (hquit : q.closes = 0) :
      LoopStep q .reader .plain (q.setLoop .reader .busy)
  | pick (h : q.loop .writer = .top) (hmsg : 0 < q.sendCh) :
      LoopStep q .writer .plain ({ q with sendCh := q.sendCh - 1 }.setLoop .writer .busy)
  | handled {side : Side} (h : q.loop side = .busy) : LoopStep q side .plain (q.setLoop side .top)
  | answered {q' : Peer} (h : q.loop .reader = .busy) (hsend : Send q q') :
      LoopStep q .reader .plain (q'.setLoop .reader .top)
  | failed {side : Side} (h : q.loop side = .busy) :
      LoopStep q side .removePeer (q.setLoop side (.remove .lock false))
  | rejected (h : q.loop .reader = .busy) :
      LoopStep q .reader .removePeer (q.setLoop .reader (.remove .lock true))
  | lock {side : Side} {resume : Bool} (h : q.loop side = .remove .lock resume) :
      LoopStep q side .acquire (q.setLoop side (.remove .check resume))
  | delete {side : Side} {resume : Bool} (h : q.loop side = .remove .check resume) (hlisted : q.listed = true) :
      LoopStep q side .plain ({ q with listed := false }.setLoop side (.remove (.stop .close) resume))
  | unlisted {side : Side} {resume : Bool} (h : q.loop side = .remove .check resume) (hlisted : q.listed = false) :
      LoopStep q side .plain (q.setLoop side (.remove .unlock resume))
  | close {side : Side} {resume : Bool} (h : q.loop side = .remove (.stop .close) resume) :
      LoopStep q side .plain ({ q with closes := q.closes + 1 }.setLoop side (.remove (.stop .hangUp) resume))
  | hangUp {side : Side} {resume : Bool} (h : q.loop side = .remove (.stop .hangUp) resume) :
      LoopStep q side .plain ({ q with connClosed := true }.setLoop side (.remove (.stop .wait) resume))
  | wait {side : Side} {resume : Bool} (h : q.loop side = .remove (.stop .wait) resume)
      (hdone : ∀ side, q.Finished side) : LoopStep q side .plain (q.setLoop side (.remove .unlock resume))
  | unlock {side : Side} {resume : Bool} (h : q.loop side = .remove .unlock resume) :
      LoopStep q side .release (q.setLoop side (if resume then .top else .done))

inductive SetupStep (q : Peer) : Action → Peer → Prop
  | connect (h : q.setup = .idle) : SetupStep q .plain { q with setup := .lock }
  | lock (h : q.setup = .lock) : SetupStep q .acquire { q with setup := .insert }
  | insert (h : q.setup = .insert) : SetupStep q .plain { q with setup := .unlock, listed := true }
  | unlock (h : q.setup = .unlock) : SetupStep q .release { q with setup := .start }
  | start (h : q.setup = .start) : SetupStep q .plain { q with setup := .send, loop := fun _ => .top }
  | send {q' : Peer} (h : q.setup = .send) (hsend : Send q q') : SetupStep q .plain { q' with setup := .done }

end Peer

namespace Server

variable {P B : Type} [DecidableEq P] [DecidableEq B]

def setPeer (s : Server P B) (p : P) (q : Peer) : Server P B := { s with peer := Function.update s.peer p q }

def Free (s : Server P B) : Prop := s.writer = none ∧ ∀ b visited, s.broadcast b ≠ .range visited

inductive Event (P : Type) where
  | removePeer (p : P) (side : Side)
  | other

inductive Step : Server P B → Event P → Server P B → Prop
  | loop {s : Server P B} {p : P} {side : Side} {q : Peer} (h : (s.peer p).LoopStep side .plain q) :
      Step s .other (s.setPeer p q)
  | removePeer {s : Server P B} {p : P} {side : Side} {q : Peer} (h : (s.peer p).LoopStep side .removePeer q) :
      Step s (.removePeer p side) (s.setPeer p q)
  | loopAcquire {s : Server P B} {p : P} {side : Side} {q : Peer} (h : (s.peer p).LoopStep side .acquire q)
      (hfree : s.Free) : Step s .other { s.setPeer p q with writer := some (.loop p side) }
  | loopRelease {s : Server P B} {p : P} {side : Side} {q : Peer} (h : (s.peer p).LoopStep side .release q) :
      Step s .other { s.setPeer p q with writer := none }
  | setup {s : Server P B} {p : P} {q : Peer} (h : (s.peer p).SetupStep .plain q) : Step s .other (s.setPeer p q)
  | setupAcquire {s : Server P B} {p : P} {q : Peer} (h : (s.peer p).SetupStep .acquire q) (hfree : s.Free) :
      Step s .other { s.setPeer p q with writer := some (.setup p) }
  | setupRelease {s : Server P B} {p : P} {q : Peer} (h : (s.peer p).SetupStep .release q) :
      Step s .other { s.setPeer p q with writer := none }
  | stopCall {s : Server P B} (h : s.stop = .idle) : Step s .other { s with stop := .lock }
  | stopLock {s : Server P B} (h : s.stop = .lock) (hfree : s.Free) :
      Step s .other { s with stop := .range [], writer := some .stop }
  | stopNext {s : Server P B} {p : P} {visited : List P} (h : s.stop = .range visited)
      (hlisted : (s.peer p).listed = true) (hnew : p ∉ visited) :
      Step s .other { s with stop := .stop p visited .close }
  | stopClose {s : Server P B} {p : P} {visited : List P} (h : s.stop = .stop p visited .close) :
      Step s .other { s.setPeer p { s.peer p with closes := (s.peer p).closes + 1 } with
        stop := .stop p visited .hangUp }
  | stopHangUp {s : Server P B} {p : P} {visited : List P} (h : s.stop = .stop p visited .hangUp) :
      Step s .other { s.setPeer p { s.peer p with connClosed := true } with stop := .stop p visited .wait }
  | stopWait {s : Server P B} {p : P} {visited : List P} (h : s.stop = .stop p visited .wait)
      (hdone : ∀ side, (s.peer p).Finished side) : Step s .other { s with stop := .range (p :: visited) }
  | stopReturn {s : Server P B} {visited : List P} (h : s.stop = .range visited)
      (hall : ∀ p, (s.peer p).listed = true → p ∈ visited) : Step s .other { s with stop := .done, writer := none }
  | broadcastCall {s : Server P B} {b : B} (h : s.broadcast b = .idle) :
      Step s .other { s with broadcast := Function.update s.broadcast b .lock }
  | broadcastLock {s : Server P B} {b : B} (h : s.broadcast b = .lock) (hfree : s.writer = none) :
      Step s .other { s with broadcast := Function.update s.broadcast b (.range []) }
  | broadcastSend {s : Server P B} {b : B} {p : P} {q : Peer} {visited : List P}
      (h : s.broadcast b = .range visited) (hlisted : (s.peer p).listed = true) (hnew : p ∉ visited)
      (hsend : (s.peer p).Send q) :
      Step s .other { s.setPeer p q with broadcast := Function.update s.broadcast b (.range (p :: visited)) }
  | broadcastReturn {s : Server P B} {b : B} {visited : List P} (h : s.broadcast b = .range visited)
      (hall : ∀ p, (s.peer p).listed = true → p ∈ visited) :
      Step s .other { s with broadcast := Function.update s.broadcast b .done }

def WaitsFor (s : Server P B) (p : P) : Holder P → Prop
  | .setup _ => False
  | .loop p' side => p' = p ∧ ∃ resume, (s.peer p).loop side = .remove (.stop .wait) resume
  | .stop => ∃ visited, s.stop = .stop p visited .wait

def Blocked (s : Server P B) (g : Holder P) (p : P) (side : Side) : Prop :=
  g = .loop p side ∨ ∃ resume, (s.peer p).loop side = .remove .lock resume

structure Deadlock (s : Server P B) (g : Holder P) (p : P) : Prop where
  holds : s.writer = some g
  waits : s.WaitsFor p g
  blocked : ∃ side, ¬(s.peer p).Finished side ∧ s.Blocked g p side

structure Safe (s : Server P B) : Prop where
  live : ∀ g p, ¬s.Deadlock g p
  closes : ∀ p, (s.peer p).closes ≤ 1

def Calm (_ : Server P B) (event : Event P) : Prop := ∀ p side, event ≠ .removePeer p side

def Removing (s : Server P B) (p : P) (side : Side) : Prop :=
  ∃ pc resume, (s.peer p).loop side = .remove (.stop pc) resume

end Server

namespace Peer

variable {q q' : Peer} {side side' : Side} {a : Action}

theorem loop_setLoop (q : Peer) (side side' : Side) (pc : LoopPc) :
    (q.setLoop side pc).loop side' = if side' = side then pc else q.loop side' :=
  Function.update_apply _ _ _ _

theorem setLoop_self (q : Peer) (side : Side) (pc : LoopPc) : (q.setLoop side pc).loop side = pc := by
  rw [loop_setLoop, if_pos rfl]

theorem Send.frame (h : Send q q') : q'.closes = q.closes ∧ q'.setup = q.setup ∧ q'.loop = q.loop := by
  cases h <;> exact ⟨rfl, rfl, rfl⟩

def Quiet (q : Peer) : Prop := ∀ side pc resume, q.loop side ≠ .remove pc resume

theorem Quiet.setLoop (h : q.Quiet) {pc : LoopPc} (hpc : ∀ rpc resume, pc ≠ .remove rpc resume) :
    (q.setLoop side pc).Quiet := by
  intro side' rpc resume
  rw [loop_setLoop]
  split
  · exact hpc rpc resume
  · exact h side' rpc resume

theorem Send.quiet (h : Send q q') (hq : q.Quiet) : q'.Quiet ∧ q'.closes = q.closes := by
  obtain ⟨hcloses, -, hloop⟩ := h.frame
  rw [Quiet, hloop]
  exact ⟨hq, hcloses⟩

theorem LoopStep.quiet (h : q.LoopStep side a q') (ha : a ≠ .removePeer) (hq : q.Quiet) :
    q'.Quiet ∧ q'.closes = q.closes := by
  cases h with
  | quit => exact ⟨hq.setLoop (by simp), rfl⟩
  | read => exact ⟨hq.setLoop (by simp), rfl⟩
  | pick => exact ⟨Quiet.setLoop hq (by simp), rfl⟩
  | handled => exact ⟨hq.setLoop (by simp), rfl⟩
  | answered _ hsend =>
    obtain ⟨hquiet, hcloses⟩ := hsend.quiet hq
    exact ⟨hquiet.setLoop (by simp), hcloses⟩
  | failed => exact absurd rfl ha
  | rejected => exact absurd rfl ha
  | lock h | delete h | unlisted h | close h | hangUp h | wait h | unlock h => exact absurd h (hq _ _ _)

theorem SetupStep.quiet (h : q.SetupStep a q') (hq : q.Quiet) : q'.Quiet ∧ q'.closes = q.closes := by
  cases h with
  | connect => exact ⟨hq, rfl⟩
  | lock => exact ⟨hq, rfl⟩
  | insert => exact ⟨hq, rfl⟩
  | unlock => exact ⟨hq, rfl⟩
  | start => exact ⟨fun _ _ _ => nofun, rfl⟩
  | send _ hsend => exact hsend.quiet hq

def Started (q : Peer) : Prop := q.setup = .send ∨ q.setup = .done ∨ ∀ side, q.loop side = .unstarted

theorem LoopStep.started (h : q.LoopStep side a q') (hq : q.Started) : q'.Started := by
  have hrunning : q.loop side ≠ .unstarted := by cases h <;> simp_all
  have hsetup : q'.setup = q.setup := by
    cases h with
    | answered _ hsend => exact hsend.frame.2.1
    | _ => rfl
  obtain hsend | hdone | hnone := hq
  · exact Or.inl (hsetup.trans hsend)
  · exact Or.inr (Or.inl (hsetup.trans hdone))
  · exact absurd (hnone side) hrunning

theorem SetupStep.started (h : q.SetupStep a q') (hq : q.Started) : q'.Started := by
  cases h with
  | start => exact Or.inl rfl
  | send => exact Or.inr (Or.inl rfl)
  | connect h | lock h | insert h | unlock h =>
    refine Or.inr (Or.inr ?_)
    simpa [Started, h] using hq

theorem LoopStep.removing (h : q.LoopStep side' a q') {pc : StopPc} {resume : Bool}
    (hpc : q.loop side = .remove (.stop pc) resume) :
    ∃ pc resume, q'.loop side = .remove (.stop pc) resume := by
  by_cases hside : side = side'
  · subst hside
    cases h with
    | close h => exact ⟨.hangUp, _, setLoop_self _ _ _⟩
    | hangUp h => exact ⟨.wait, _, setLoop_self _ _ _⟩
    | wait h hdone =>
      obtain hstart | hdone := hdone side
      · cases hpc.symm.trans hstart
      · cases hpc.symm.trans hdone
    | quit h | read h | pick h | handled h | answered h | failed h | rejected h | lock h | delete h
    | unlisted h | unlock h => cases hpc.symm.trans h
  · refine ⟨pc, resume, ?_⟩
    rw [← hpc]
    cases h with
    | answered _ hsend =>
      rw [loop_setLoop, if_neg hside, hsend.frame.2.2]
    | _ => rw [loop_setLoop, if_neg hside]

theorem SetupStep.removing (h : q.SetupStep a q') (hq : q.Started) {pc : StopPc} {resume : Bool}
    (hpc : q.loop side = .remove (.stop pc) resume) : q'.loop side = .remove (.stop pc) resume := by
  cases h with
  | start h =>
    obtain hsend | hdone | hnone := hq
    · cases h.symm.trans hsend
    · cases h.symm.trans hdone
    · cases hpc.symm.trans (hnone side)
  | send _ hsend =>
    rw [← hpc, hsend.frame.2.2]
  | _ => exact hpc

theorem reaches_wait {resume : Bool} (h : q.loop side = .remove .check resume) (hlisted : q.listed = true) :
    ∃ q', ReflTransGen (fun q q' => q.LoopStep side .plain q') q q' ∧
      q'.loop side = .remove (.stop .wait) resume := by
  have hdelete := LoopStep.delete h hlisted
  have hclose := LoopStep.close (setLoop_self { q with listed := false } side (.remove (.stop .close) resume))
  exact ⟨_, ((ReflTransGen.single hdelete).tail hclose).tail (.hangUp (setLoop_self _ _ _)), setLoop_self _ _ _⟩

inductive Change (q : Peer) : Peer → Prop
  | same : Change q q
  | loop {side : Side} {a : Action} {q' : Peer} (h : q.LoopStep side a q') : Change q q'
  | setup {a : Action} {q' : Peer} (h : q.SetupStep a q') : Change q q'
  | sent {q' : Peer} (h : q.Send q') : Change q q'
  | closed : Change q { q with closes := q.closes + 1 }
  | hungUp : Change q { q with connClosed := true }

theorem Change.started (h : q.Change q') (hq : q.Started) : q'.Started := by
  cases h with
  | loop h => exact h.started hq
  | setup h => exact h.started hq
  | sent h =>
    obtain ⟨-, hsetup, hloop⟩ := h.frame
    rw [Started, hsetup, hloop]
    exact hq
  | same | closed | hungUp => exact hq

theorem Change.removing (h : q.Change q') (hq : q.Started) {pc : StopPc} {resume : Bool}
    (hpc : q.loop side = .remove (.stop pc) resume) :
    ∃ pc resume, q'.loop side = .remove (.stop pc) resume := by
  cases h with
  | loop h => exact h.removing hpc
  | setup h => exact ⟨_, _, h.removing hq hpc⟩
  | sent h => exact ⟨_, _, by rw [h.frame.2.2, hpc]⟩
  | same | closed | hungUp => exact ⟨_, _, hpc⟩

end Peer

namespace Server

section Peers

variable {P B : Type} [DecidableEq P] {s : Server P B} {p : P}

theorem peer_setPeer (s : Server P B) (p p' : P) (q : Peer) :
    (s.setPeer p q).peer p' = if p' = p then q else s.peer p' :=
  Function.update_apply _ _ _ _

theorem change_setPeer {q : Peer} (h : (s.peer p).Change q) (p' : P) :
    (s.peer p').Change ((s.setPeer p q).peer p') := by
  rw [peer_setPeer]
  split
  next heq =>
    rw [heq]
    exact h
  next => exact .same

theorem quiet_setPeer {q : Peer} (h : ∀ p, (s.peer p).Quiet)
    (hq : q.Quiet ∧ q.closes = (s.peer p).closes) (p' : P) :
    ((s.setPeer p q).peer p').Quiet ∧ ((s.setPeer p q).peer p').closes = (s.peer p').closes := by
  rw [peer_setPeer]
  split
  next heq =>
    rw [heq]
    exact hq
  next => exact ⟨h p', rfl⟩

theorem loop_called (s : Server P B) (p : P) (side : Side) (resume : Bool) :
    ((s.setPeer p ((s.peer p).setLoop side (.remove .lock resume))).peer p).loop side =
      .remove .lock resume := by
  rw [peer_setPeer, if_pos rfl, Peer.setLoop_self]

end Peers

variable {P B : Type} [DecidableEq P] [DecidableEq B] {s s' : Server P B} {p : P} {side : Side} {event : Event P}

theorem Step.change (h : Step s event s') (p : P) : (s.peer p).Change (s'.peer p) := by
  cases h with
  | loop h | removePeer h | loopAcquire h | loopRelease h => exact change_setPeer (.loop h) p
  | setup h | setupAcquire h | setupRelease h => exact change_setPeer (.setup h) p
  | stopClose => exact change_setPeer .closed p
  | stopHangUp => exact change_setPeer .hungUp p
  | broadcastSend _ _ _ hsend => exact change_setPeer (.sent hsend) p
  | _ => exact .same

theorem started_run (h : ReflTransGen (fun s s' => ∃ event, Step s event s') (newServer P B) s) (p : P) :
    (s.peer p).Started := by
  induction h with
  | refl => exact Or.inr (Or.inr fun _ => rfl)
  | tail _ hstep ih =>
    obtain ⟨event, hstep⟩ := hstep
    exact (hstep.change p).started ih

theorem removing_run (h : ReflTransGen (fun s s' => ∃ event, Step s event s') (newServer P B) s)
    (h' : ReflTransGen (fun s s' => ∃ event, Step s event s') s s') (hremoving : s.Removing p side) :
    s'.Removing p side := by
  induction h' with
  | refl => exact hremoving
  | tail hrun hstep ih =>
    obtain ⟨event, hstep⟩ := hstep
    obtain ⟨pc, resume, hpc⟩ := ih
    exact (hstep.change p).removing (started_run (h.trans hrun) p) hpc

end Server

def ServerStopPc.Closed {P : Type} : ServerStopPc P → P → Prop
  | .idle, _ => False
  | .lock, _ => False
  | .range visited, p => p ∈ visited
  | .stop p' visited pc, p => p ∈ visited ∨ p = p' ∧ pc ≠ .close
  | .done, _ => True

namespace Server

structure Undisturbed {P B : Type} (s : Server P B) : Prop where
  quiet : ∀ p, (s.peer p).Quiet
  fresh : ∀ p visited pc, s.stop = .stop p visited pc → p ∉ visited
  once : ∀ p, (s.peer p).closes ≤ 1
  unclosed : ∀ p, ¬s.stop.Closed p → (s.peer p).closes = 0

theorem Undisturbed.of_closed {P B : Type} {s s' : Server P B} (h : s.Undisturbed)
    (hpeer : ∀ p, (s'.peer p).Quiet ∧ (s'.peer p).closes = (s.peer p).closes)
    (hfresh : ∀ p visited pc, s'.stop = .stop p visited pc → p ∉ visited)
    (hclosed : ∀ p, s.stop.Closed p → s'.stop.Closed p) : s'.Undisturbed where
  quiet p := (hpeer p).1
  fresh := hfresh
  once p := (hpeer p).2.trans_le (h.once p)
  unclosed p hp := (hpeer p).2.trans (h.unclosed p fun hp' => hp (hclosed p hp'))

theorem Undisturbed.peers {P B : Type} {s s' : Server P B} (h : s.Undisturbed) (hstop : s'.stop = s.stop)
    (hpeer : ∀ p, (s'.peer p).Quiet ∧ (s'.peer p).closes = (s.peer p).closes) : s'.Undisturbed := by
  apply h.of_closed hpeer
  · rw [hstop]
    exact h.fresh
  · rw [hstop]
    exact fun _ => id

theorem undisturbed_new (P B : Type) : (newServer P B).Undisturbed :=
  ⟨fun _ _ _ _ => nofun, fun _ _ _ => nofun, fun _ => Nat.zero_le 1, fun _ _ => rfl⟩

theorem Undisturbed.safe {P B : Type} {s : Server P B} (h : s.Undisturbed) : s.Safe := by
  refine ⟨fun g p hdead => ?_, h.once⟩
  obtain ⟨side, -, hblocked⟩ := hdead.blocked
  have hwaits := hdead.waits
  cases g with
  | setup p' => exact hwaits
  | loop p' side' =>
    obtain ⟨-, resume, hpc⟩ := hwaits
    exact h.quiet p side' _ _ hpc
  | stop =>
    obtain heq | ⟨resume, hpc⟩ := hblocked
    · cases heq
    · exact h.quiet p side _ _ hpc

variable {P B : Type} [DecidableEq P] [DecidableEq B] {s s' : Server P B} {p : P} {side : Side} {event : Event P}

theorem Undisturbed.step (h : s.Undisturbed) (hcalm : s.Calm event) (hstep : Step s event s') :
    s'.Undisturbed := by
  cases hstep with
  | loop hloop | loopAcquire hloop | loopRelease hloop =>
    exact h.peers rfl (quiet_setPeer h.quiet (hloop.quiet (by simp) (h.quiet _)))
  | removePeer => exact absurd rfl (hcalm _ _)
  | setup hsetup | setupAcquire hsetup | setupRelease hsetup =>
    exact h.peers rfl (quiet_setPeer h.quiet (hsetup.quiet (h.quiet _)))
  | broadcastSend _ _ _ hsend =>
    exact h.peers rfl (quiet_setPeer h.quiet (hsend.quiet (h.quiet _)))
  | broadcastCall | broadcastLock | broadcastReturn => exact h.peers rfl fun p => ⟨h.quiet p, rfl⟩
  | stopCall hpc | stopLock hpc =>
    refine h.of_closed (fun p => ⟨h.quiet p, rfl⟩) nofun ?_
    rw [hpc]
    exact fun _ => False.elim
  | stopNext hpc hlisted hnew =>
    refine h.of_closed (fun p => ⟨h.quiet p, rfl⟩) ?_ ?_
    · rintro p' visited' pc' hpc'
      cases hpc'
      exact hnew
    · rw [hpc]
      exact fun _ => Or.inl
  | @stopClose p visited hpc =>
    have hzero : (s.peer p).closes = 0 := by
      apply h.unclosed
      rw [hpc]
      rintro (hmem | ⟨-, hne⟩)
      · exact h.fresh p visited .close hpc hmem
      · exact hne rfl
    constructor
    · intro p'
      change Peer.Quiet ((s.setPeer p _).peer p')
      rw [peer_setPeer]
      split
      · exact h.quiet p
      · exact h.quiet p'
    · rintro p' visited' pc' hpc'
      cases hpc'
      exact h.fresh p visited .close hpc
    · intro p'
      change ((s.setPeer p _).peer p').closes ≤ 1
      rw [peer_setPeer]
      split
      · exact (congrArg (· + 1) hzero).le
      · exact h.once p'
    · intro p' hp
      change ((s.setPeer p _).peer p').closes = 0
      rw [peer_setPeer]
      split
      next heq => exact absurd (Or.inr ⟨heq, nofun⟩) hp
      next hne =>
        apply h.unclosed
        rw [hpc]
        rintro (hmem | ⟨heq, -⟩)
        · exact hp (Or.inl hmem)
        · exact hne heq
  | @stopHangUp p visited hpc =>
    refine h.of_closed (quiet_setPeer h.quiet ⟨h.quiet p, rfl⟩) ?_ ?_
    · rintro p' visited' pc' hpc'
      cases hpc'
      exact h.fresh p visited .hangUp hpc
    · rw [hpc]
      rintro p' (hmem | ⟨heq, -⟩)
      · exact Or.inl hmem
      · exact Or.inr ⟨heq, nofun⟩
  | @stopWait p visited hpc hdone =>
    refine h.of_closed (fun p => ⟨h.quiet p, rfl⟩) nofun ?_
    rw [hpc]
    rintro p' (hmem | ⟨rfl, -⟩)
    · exact List.mem_cons_of_mem _ hmem
    · exact List.mem_cons_self
  | stopReturn => exact h.of_closed (fun p => ⟨h.quiet p, rfl⟩) nofun fun _ _ => trivial

theorem run_loop {q : Peer} (h : ReflTransGen (fun q q' => q.LoopStep side .plain q') (s.peer p) q) :
    ReflTransGen (fun s s' => ∃ event, Step s event s') s (s.setPeer p q) := by
  induction h with
  | refl =>
    rw [setPeer, Function.update_eq_self]
  | @tail q q' _ hstep ih =>
    apply ih.tail
    refine ⟨.other, ?_⟩
    have hpeer : (s.setPeer p q).peer p = q := by rw [peer_setPeer, if_pos rfl]
    have hlift := Step.loop (s := s.setPeer p q) (p := p) (q := q') (by rw [hpeer]; exact hstep)
    rw [setPeer, setPeer, Function.update_idem] at hlift
    exact hlift

theorem exists_deadlock {resume : Bool} (hpc : (s.peer p).loop side = .remove .lock resume)
    (hlisted : (s.peer p).listed = true) (hfree : s.Free) :
    ∃ s', ReflTransGen (fun s s' => ∃ event, Step s event s') s s' ∧ s'.Deadlock (.loop p side) p := by
  let q₁ := (s.peer p).setLoop side (.remove .check resume)
  let s₁ : Server P B := { s.setPeer p q₁ with writer := some (.loop p side) }
  have hlock : Step s .other s₁ := .loopAcquire (.lock hpc) hfree
  have hpeer : s₁.peer p = q₁ := (peer_setPeer s p p q₁).trans (if_pos rfl)
  obtain ⟨q, hrun, hwait⟩ := Peer.reaches_wait
    (Peer.setLoop_self (s.peer p) side (.remove .check resume)) hlisted
  have hfinal : (s₁.setPeer p q).peer p = q := (peer_setPeer s₁ p p q).trans (if_pos rfl)
  refine ⟨s₁.setPeer p q, .head ⟨_, hlock⟩ (run_loop (by rw [hpeer]; exact hrun)), rfl, ?_, side, ?_, Or.inl rfl⟩
  · refine ⟨rfl, resume, ?_⟩
    rw [hfinal, hwait]
  · rw [Peer.Finished, hfinal, hwait]
    simp

theorem Step.removePeer_eq (h : Step s (.removePeer p side) s') :
    ∃ resume, s' = s.setPeer p ((s.peer p).setLoop side (.remove .lock resume)) := by
  cases h with
  | removePeer h =>
    cases h with
    | failed => exact ⟨false, rfl⟩
    | rejected => exact ⟨true, rfl⟩

end Server

/-- Without calls of `RemovePeer` nothing goes wrong. A call on a listed peer deadlocks as soon as it
gets the lock, or at once while `Server.Stop` waits for the peer, and never returns. -/
theorem peer_removal_safe (P B : Type) [DecidableEq P] [DecidableEq B] :
    (∀ s : Server P B, ReflTransGen (fun s s' => ∃ event, s.Calm event ∧ Server.Step s event s')
      (newServer P B) s → s.Safe) ∧
    (∀ (s s' : Server P B) (p : P) (side : Side), Server.Step s (.removePeer p side) s' →
      (s.peer p).listed = true → s.Free → ∃ s'' : Server P B,
        ReflTransGen (fun s s' => ∃ event, Server.Step s event s') s' s'' ∧ s''.Deadlock (.loop p side) p) ∧
    (∀ (s s' : Server P B) (p : P) (side : Side) (visited : List P), Server.Step s (.removePeer p side) s' →
      s.writer = some .stop → s.stop = .stop p visited .wait → s'.Deadlock .stop p) ∧
    ∀ (s s' : Server P B) (p : P) (side : Side),
      ReflTransGen (fun s s' => ∃ event, Server.Step s event s') (newServer P B) s → s.Removing p side →
      ReflTransGen (fun s s' => ∃ event, Server.Step s event s') s s' → s'.Removing p side := by
  refine ⟨fun s h => ?_, fun s s' p side hstep hlisted hfree => ?_, fun s s' p side visited hstep hwriter hstop => ?_,
    fun s s' p side h hremoving h' => Server.removing_run h h' hremoving⟩
  · exact (guarded_invariant (I := Server.Undisturbed) (fun hs hcalm hstep => hs.step hcalm hstep)
      (Server.undisturbed_new P B) h).safe
  · obtain ⟨resume, rfl⟩ := hstep.removePeer_eq
    refine Server.exists_deadlock (Server.loop_called s p side resume) ?_ hfree
    rw [Server.peer_setPeer, if_pos rfl]
    exact hlisted
  · obtain ⟨resume, rfl⟩ := hstep.removePeer_eq
    have hpc := Server.loop_called s p side resume
    refine ⟨hwriter, ⟨visited, hstop⟩, side, ?_, Or.inr ⟨resume, hpc⟩⟩
    rw [Peer.Finished, hpc]
    simp

section Sample

def lone (q : Peer) (writer : Option (Holder Unit)) (stop : ServerStopPc Unit) : Server Unit Empty where
  peer _ := q
  writer := writer
  stop := stop
  broadcast := Empty.elim

abbrev Runs : Server Unit Empty → Server Unit Empty → Prop :=
  ReflTransGen fun s s' => ∃ event, Server.Step s event s'

abbrev CalmRuns : Server Unit Empty → Server Unit Empty → Prop :=
  ReflTransGen fun s s' => ∃ event, s.Calm event ∧ Server.Step s event s'

variable {q q' : Peer} {side : Side} {writer : Option (Holder Unit)} {stop : ServerStopPc Unit}

theorem newServer_eq_lone : newServer Unit Empty = lone newPeer none .idle := by
  unfold newServer lone
  congr 1
  funext b
  cases b

theorem setPeer_lone : (lone q writer stop).setPeer () q' = lone q' writer stop := by
  unfold Server.setPeer lone
  congr 1

theorem free_lone : (lone q none stop).Free := ⟨rfl, nofun⟩

theorem lone_loop (side : Side) (h : q.LoopStep side .plain q') :
    Server.Step (lone q writer stop) .other (lone q' writer stop) := by
  have hstep := Server.Step.loop (s := lone q writer stop) (p := ()) h
  rwa [setPeer_lone] at hstep

theorem lone_setup (h : q.SetupStep .plain q') :
    Server.Step (lone q writer stop) .other (lone q' writer stop) := by
  have hstep := Server.Step.setup (s := lone q writer stop) (p := ()) h
  rwa [setPeer_lone] at hstep

theorem lone_call (h : q.LoopStep side .removePeer q') :
    Server.Step (lone q writer stop) (.removePeer () side) (lone q' writer stop) := by
  have hstep := Server.Step.removePeer (s := lone q writer stop) (p := ()) h
  rwa [setPeer_lone] at hstep

theorem lone_acquire (h : q.LoopStep side .acquire q') :
    Server.Step (lone q none stop) .other (lone q' (some (.loop () side)) stop) := by
  have hstep := Server.Step.loopAcquire (s := lone q none stop) (p := ()) h free_lone
  rwa [setPeer_lone] at hstep

theorem runs_of_calmRuns {s s' : Server Unit Empty} (h : CalmRuns s s') : Runs s s' := by
  induction h with
  | refl => exact .refl
  | tail _ hstep ih =>
    obtain ⟨event, -, hstep⟩ := hstep
    exact ih.tail ⟨event, hstep⟩

theorem lone_removes (side : Side) (h : q.loop side = .busy) (hlisted : q.listed = true) :
    Runs (lone q none stop) (lone ({ q with listed := false, closes := q.closes + 1, connClosed := true }.setLoop
      side (.remove (.stop .wait) false)) (some (.loop () side)) stop) := by
  have hcall : Server.Step (lone q none stop) (.removePeer () side) _ := lone_call (.failed h)
  have hlock : Server.Step (lone _ none stop) .other _ :=
    lone_acquire (.lock (Peer.setLoop_self q side (.remove .lock false)))
  have hdelete : Server.Step (lone _ (some (.loop () side)) stop) .other _ := lone_loop side
    (.delete (Peer.setLoop_self (q.setLoop side (.remove .lock false)) side (.remove .check false)) hlisted)
  have hclose : Server.Step (lone _ (some (.loop () side)) stop) .other _ := lone_loop side
    (.close (Peer.setLoop_self { q with listed := false } side (.remove (.stop .close) false)))
  have hhangUp : Server.Step (lone _ (some (.loop () side)) stop) .other _ := lone_loop side
    (.hangUp (Peer.setLoop_self { q with listed := false, closes := q.closes + 1 } side
      (.remove (.stop .hangUp) false)))
  simp only [Peer.setLoop, Function.update_idem] at hcall hlock hdelete hclose hhangUp ⊢
  exact ((((ReflTransGen.single ⟨_, hcall⟩).tail ⟨_, hlock⟩).tail ⟨_, hdelete⟩).tail ⟨_, hclose⟩).tail ⟨_, hhangUp⟩

def listedPeer : Peer := { newPeer with setup := .start, listed := true }

theorem run_listed : CalmRuns (newServer Unit Empty) (lone listedPeer none .idle) := by
  have hlock := Server.Step.setupAcquire (s := lone { newPeer with setup := .lock } none .idle) (p := ()) (.lock rfl)
    free_lone
  have hunlock := Server.Step.setupRelease (s := lone { newPeer with setup := .unlock, listed := true }
    (some (.setup ())) .idle) (p := ()) (.unlock rfl)
  rw [setPeer_lone] at hlock hunlock
  rw [newServer_eq_lone]
  exact (((ReflTransGen.single ⟨.other, nofun, lone_setup (.connect rfl)⟩).tail ⟨.other, nofun, hlock⟩).tail
    ⟨.other, nofun, lone_setup (.insert rfl)⟩).tail ⟨.other, nofun, hunlock⟩

def stoppedPeer : Peer := { listedPeer with closes := 1, connClosed := true }

theorem run_stopped : CalmRuns (lone listedPeer none .idle) (lone stoppedPeer none .done) := by
  have hlock := Server.Step.stopLock (s := lone listedPeer none .lock) rfl free_lone
  have hclose := Server.Step.stopClose (s := lone listedPeer (some .stop) (.stop () [] .close)) rfl
  have hhangUp := Server.Step.stopHangUp (s := lone { listedPeer with closes := 1 } (some .stop)
    (.stop () [] .hangUp)) rfl
  have hwait := Server.Step.stopWait (s := lone stoppedPeer (some .stop) (.stop () [] .wait)) rfl
    fun _ => Or.inl rfl
  have hreturn := Server.Step.stopReturn (s := lone stoppedPeer (some .stop) (.range [()])) rfl
    fun _ _ => List.mem_cons_self
  rw [setPeer_lone] at hclose hhangUp
  have hnext := Server.Step.stopNext (s := lone listedPeer (some .stop) (.range [])) (p := ()) rfl rfl
    List.not_mem_nil
  exact ((((((ReflTransGen.single ⟨.other, nofun, .stopCall rfl⟩).tail ⟨.other, nofun, hlock⟩).tail
    ⟨.other, nofun, hnext⟩).tail ⟨.other, nofun, hclose⟩).tail ⟨.other, nofun, hhangUp⟩).tail
    ⟨.other, nofun, hwait⟩).tail ⟨.other, nofun, hreturn⟩

theorem stop_before_start_safe : (lone stoppedPeer none .done).Safe :=
  (peer_removal_safe Unit Empty).1 _ (run_listed.trans run_stopped)

theorem removal_deadlocks_or_closes_twice :
    (∃ s, Runs (newServer Unit Empty) s ∧ s.Deadlock (.loop () .reader) () ∧
      ∀ side, ¬(s.peer ()).Finished side → s.Blocked (.loop () .reader) () side) ∧
    ∃ s, Runs (newServer Unit Empty) s ∧ (s.peer ()).closes = 2 := by
  constructor
  · have hstart := (runs_of_calmRuns run_listed).tail ⟨_, lone_setup (.start rfl)⟩
    have hread := hstart.tail ⟨_, lone_loop .reader (.read rfl rfl)⟩
    have hremoves := hread.trans (lone_removes .reader rfl rfl)
    have hquit := hremoves.tail ⟨_, lone_loop .writer (.quit rfl (by decide))⟩
    refine ⟨_, hquit, ⟨rfl, ⟨rfl, false, rfl⟩, .reader, ?_, Or.inl rfl⟩, fun side hside => ?_⟩
    · rintro (h | h) <;> cases h
    · cases side with
      | reader => exact Or.inl rfl
      | writer => exact absurd (Or.inr rfl) hside
  · have hstopped := runs_of_calmRuns (run_listed.trans run_stopped)
    have hstart := hstopped.tail ⟨_, lone_setup (.start rfl)⟩
    have hsend := hstart.tail ⟨_, lone_setup (.send rfl (.queued (by decide)))⟩
    have hpick := hsend.tail ⟨_, lone_loop .writer (.pick rfl (by decide))⟩
    exact ⟨_, hpick.trans (lone_removes .writer rfl rfl), rfl⟩

end Sample

end Zephyria
