import Zephyria.BlockLog
import Zephyria.Codes
import Zephyria.Footprints
import Zephyria.Node
import Zephyria.Nonces

/-!
The nonces under which the transactions of an account are executed, over any number of blocks and under
any interleaving of their goroutines.
-/

namespace Zephyria

section Ledger

variable (K : Keccak256)

def ledgerKeys : Set Bytes :=
  {k | (∃ a, k = balanceKey K a) ∨ ∃ a slot, k = storageKey K a slot}

theorem nonceKey_notMem_ledgerKeys (a : Address) : nonceKey K a ∉ ledgerKeys K := by
  rintro (⟨b, h⟩ | ⟨b, slot, h⟩)
  · cases Cell.key_injective K (f := .nonce a) (g := .balance b) h
  · cases Cell.key_injective K (f := .nonce a) (g := .storage b slot) h

theorem codeHashKey_notMem_ledgerKeys (a : Address) : codeHashKey K a ∉ ledgerKeys K := by
  rintro (⟨b, h⟩ | ⟨b, slot, h⟩)
  · cases Cell.key_injective K (f := .codeHash a) (g := .balance b) h
  · cases Cell.key_injective K (f := .codeHash a) (g := .storage b slot) h

theorem balanceKey_mem_ledgerKeys (a : Address) : balanceKey K a ∈ ledgerKeys K := .inl ⟨a, rfl⟩

theorem storageKey_mem_ledgerKeys (a : Address) (slot : Hash) : storageKey K a slot ∈ ledgerKeys K := .inr ⟨a, slot, rfl⟩

theorem ledger_addBalance (a : Address) (v : U256) : (addBalance K a v).Writes (ledgerKeys K) :=
  writes_addBalance K (balanceKey_mem_ledgerKeys K a) v

theorem ledger_setState (a : Address) (slot v : Hash) : (setState K a slot v).Writes (ledgerKeys K) :=
  writes_setState K (storageKey_mem_ledgerKeys K a slot) v

variable (p : SystemParams)

theorem writes_removeValidator (key : Hash) : (removeValidator K p key).Writes (ledgerKeys K) := by
  refine (writes_getState K _ _).bind fun index => (writes_getState K _ _).bind fun count => ?_
  have hclear : Prog.Writes (ledgerKeys K) (do
      let _ ← setState K p.validatorAddr count 0
      let _ ← setState K p.validatorAddr 0 (bigToHash ((count.toNat : ℤ) - 1).natAbs)
      let _ ← setState K p.stakingAddr key 0
      let _ ← setState K p.validatorAddr key 0
      pure ()) :=
    (ledger_setState K _ _ _).bind fun _ => (ledger_setState K _ _ _).bind fun _ =>
      (ledger_setState K _ _ _).bind fun _ => (ledger_setState K _ _ _).bind fun _ => Prog.writes_pure _
  dsimp only
  split
  · exact (writes_getState K _ _).bind fun _ => (ledger_setState K _ _ _).bind fun _ =>
      (ledger_setState K _ _ _).bind fun _ => hclear
  · exact hclear

theorem writes_unstake (sender : Address) : (unstake K p sender).Writes (ledgerKeys K) := by
  refine (writes_getState K _ _).bind fun stored => ?_
  split
  · exact Prog.writes_pure _
  · refine (writes_getBalance K _).bind fun balance => ?_
    split
    · exact Prog.writes_pure _
    · exact (ledger_addBalance K _ _).bind fun _ => (ledger_addBalance K _ _).bind fun _ => writes_removeValidator K p _

theorem writes_distributeReward (value : ℕ) (data : Bytes) :
    (distributeReward K p value data).Writes (ledgerKeys K) := by
  have hpay (target : Address) (amount : ℤ) : (payReward K p target amount).Writes (ledgerKeys K) := by
    refine (writes_getBalance K _).bind fun balance => ?_
    split
    · exact Prog.writes_pure _
    · exact (ledger_addBalance K _ _).bind fun _ => (ledger_addBalance K _ _).bind fun _ => Prog.writes_pure _
  unfold distributeReward
  split
  · split
    · split
      · exact hpay _ _
      · exact Prog.writes_pure _
    · exact Prog.writes_pure _
  · exact Prog.writes_pure _

theorem writes_processSystemContracts (msg : Message) (data : Bytes) :
    (processSystemContracts K p msg data).Writes (ledgerKeys K) := by
  refine Prog.Writes.bind ?_ fun _ => ?_
  · split
    · refine Prog.Writes.bind ?_ fun _ => ?_
      · split
        · exact writes_deposit K p (storageKey_mem_ledgerKeys K) _ _
        · exact Prog.writes_pure _
      · split
        · exact writes_unstake K p _
        · exact Prog.writes_pure _
    · exact Prog.writes_pure _
  · split
    · exact writes_distributeReward K p _ _
    · exact Prog.writes_pure _

end Ledger

section Accounts

variable (K : Keccak256) (a : Address)

def Codeless (k v : Bytes) : Prop := k = codeHashKey K a → v = []

structure Own.Notes (own : Own) (nonce : Option Bytes) : Prop where
  nonce : own.dirty.lookup (nonceKey K a) = nonce
  code : own.dirty.lookup (codeHashKey K a) = none

def nonceBytes (n : UInt64) : Bytes := BigEndian.minimal 8 (nonceMagnitude n)

def Own.Funds (own : Own) (msg : Message) : Prop :=
  ∃ val, own.dirty.lookup (balanceKey K msg.fromAddr) = some val ∧ msg.value ≤ (decodeBalance val).toNat

/-- What the interpreter does to an account without code: its nonce changes only when it creates a contract
itself. -/
structure Interpreter.Orderly (I : Interpreter) : Prop where
  run : ∀ ctx msg gas own nonce, own.Notes K a nonce →
    overlayBuffer.Always (Codeless K a) (fun _ own' => own'.Notes K a nonce) (I.run ctx msg gas) own
  createOther : ∀ ctx msg gas own nonce, msg.fromAddr ≠ a → own.Notes K a nonce →
    overlayBuffer.Always (Codeless K a) (fun _ own' => own'.Notes K a nonce) (I.create ctx msg gas) own
  createOwn : ∀ ctx msg gas own n, msg.fromAddr = a → own.Notes K a none → own.Funds K msg → ¬n + 1 < n →
    overlayBuffer.Always (fun k v => Codeless K a k v ∧ (k = nonceKey K a → decodeNonce v = n))
      (fun _ own' => own'.Notes K a (some (nonceBytes (n + 1)))) (I.create ctx msg gas) own

variable {K a} {R : Bytes → Bytes → Prop} {own : Own} {nonce : Option Bytes}

theorem Own.Notes.writes (h : own.Notes K a nonce) {α : Type} {p : StateM α} (hp : p.Writes (ledgerKeys K)) :
    overlayBuffer.Always R (fun _ own' => own'.Notes K a nonce) p own := by
  apply overlayBuffer.always_mono _ (overlayBuffer.always_writes hp own)
  intro _ own' hsame
  exact ⟨(hsame _ (nonceKey_notMem_ledgerKeys K a)).trans h.nonce,
    (hsame _ (codeHashKey_notMem_ledgerKeys K a)).trans h.code⟩

theorem Own.Notes.write (h : own.Notes K a nonce) {k : Bytes} (hnonce : nonceKey K a ≠ k) (hcode : codeHashKey K a ≠ k)
    (v : Bytes) : Own.Notes K a (overlayBuffer.write own k v) nonce := by
  constructor
  · exact (overlayBuffer.find_write own k v _).trans ((if_neg hnonce).trans h.nonce)
  · exact (overlayBuffer.find_write own k v _).trans ((if_neg hcode).trans h.code)

theorem Own.Notes.write_nonce (h : own.Notes K a nonce) (v : Bytes) :
    Own.Notes K a (overlayBuffer.write own (nonceKey K a) v) (some v) := by
  have hcode : codeHashKey K a ≠ nonceKey K a := by
    intro heq
    cases Cell.key_injective K (f := .codeHash a) (g := .nonce a) heq
  constructor
  · exact (overlayBuffer.find_write own _ v _).trans (if_pos rfl)
  · exact (overlayBuffer.find_write own _ v _).trans ((if_neg hcode).trans h.code)

theorem Own.Notes.bind (h : own.Notes K a nonce) {α γ : Type} {p : StateM α} (hp : p.Writes (ledgerKeys K))
    {f : α → StateM γ} {Q : γ → Own → Prop}
    (hf : ∀ x own', own'.Notes K a nonce → overlayBuffer.Always R Q (f x) own') :
    overlayBuffer.Always R Q (p >>= f) own :=
  (overlayBuffer.always_bind R Q p f own).mpr (overlayBuffer.always_mono (fun x own' h' => hf x own' h') (h.writes hp))

variable {I : Interpreter} (ctx : BlockContext) {msg : Message}

theorem notes_call (hI : I.Orderly K a) (h : own.Notes K a nonce) (toAddr : Address) (gas : ℕ) :
    overlayBuffer.Always (Codeless K a) (fun _ own' => own'.Notes K a nonce) (call K I ctx msg toAddr gas) own := by
  refine h.bind (writes_cannotTransfer K _ _) fun blocked own h => ?_
  split
  · exact h
  · refine h.bind (ledger_addBalance K _ _) fun _ own h => h.bind (ledger_addBalance K _ _) fun _ own h => ?_
    split
    · exact h
    · refine h.bind (writes_getCode K _ _) fun code own h => ?_
      split
      · exact h
      · exact hI.run ctx msg gas own nonce h

theorem always_raiseNonce (b : Address) {γ : Type} {f : StateM γ} {Q : γ → Own → Prop}
    (h : ∀ v, own.dirty.lookup (nonceKey K b) = some v ∨ own.dirty.lookup (nonceKey K b) = none ∧ R (nonceKey K b) v →
      overlayBuffer.Always R Q f (overlayBuffer.write own (nonceKey K b) (nonceBytes (decodeNonce v + 1)))) :
    overlayBuffer.Always R Q (getNonce K b >>= fun n => setNonce K b (n + 1) >>= fun _ => f) own :=
  h

theorem Own.Notes.raise_other (h : own.Notes K a nonce) {b : Address} (hb : b ≠ a) {γ : Type} {f : StateM γ}
    {Q : γ → Own → Prop} (hf : ∀ own', own'.Notes K a nonce → overlayBuffer.Always R Q f own') :
    overlayBuffer.Always R Q (getNonce K b >>= fun n => setNonce K b (n + 1) >>= fun _ => f) own := by
  have hnonce : nonceKey K a ≠ nonceKey K b := by
    intro heq
    cases Cell.key_injective K (f := .nonce a) (g := .nonce b) heq
    exact hb rfl
  have hcode : codeHashKey K a ≠ nonceKey K b := by
    intro heq
    cases Cell.key_injective K (f := .codeHash a) (g := .nonce b) heq
  exact always_raiseNonce b fun v _ => hf _ (h.write hnonce hcode _)

theorem Own.Notes.raise_own (h : own.Notes K a none) {n : UInt64}
    (hR : ∀ v, R (nonceKey K a) v → decodeNonce v = n) {γ : Type} {f : StateM γ} {Q : γ → Own → Prop}
    (hf : ∀ own', own'.Notes K a (some (nonceBytes (n + 1))) → overlayBuffer.Always R Q f own') :
    overlayBuffer.Always R Q (getNonce K a >>= fun n => setNonce K a (n + 1) >>= fun _ => f) own := by
  refine always_raiseNonce a fun v hv => ?_
  obtain hown | ⟨-, hbelow⟩ := hv
  · rw [h.nonce] at hown
    cases hown
  · rw [hR v hbelow]
    exact hf _ (h.write_nonce _)

theorem notes_transition_other (hI : I.Orderly K a) (hfrom : msg.fromAddr ≠ a) (h : own.Notes K a nonce) (gas : ℕ) :
    overlayBuffer.Always (Codeless K a) (fun _ own' => own'.Notes K a nonce) (transition K I ctx msg gas) own := by
  unfold transition
  split
  · exact hI.createOther ctx msg gas own nonce hfrom h
  · exact h.raise_other hfrom fun own h => h.bind (writes_getCode K _ _) fun _ own h => notes_call ctx hI h _ gas

theorem notes_transition_own (hI : I.Orderly K a) (hfrom : msg.fromAddr = a) (h : own.Notes K a none)
    (hfunds : own.Funds K msg) {n : UInt64} (hn : ¬n + 1 < n) (gas : ℕ) :
    overlayBuffer.Always (fun k v => Codeless K a k v ∧ (k = nonceKey K a → decodeNonce v = n))
      (fun _ own' => own'.Notes K a (some (nonceBytes (n + 1)))) (transition K I ctx msg gas) own := by
  unfold transition
  split
  · exact hI.createOwn ctx msg gas own n hfrom h hfunds hn
  · rw [hfrom]
    refine h.raise_own (fun v hv => hv.2 rfl) fun own h => h.bind (writes_getCode K _ _) fun _ own h => ?_
    exact overlayBuffer.always_weaken (fun _ _ hr => hr.1) (notes_call ctx hI h _ gas)

theorem Own.Notes.write_balance (h : own.Notes K a nonce) (b : Address) (val : Bytes) :
    (overlayBuffer.write own (balanceKey K b) val).Notes K a nonce := by
  refine h.write ?_ ?_ val
  · intro heq
    cases Cell.key_injective K (f := .nonce a) (g := .balance b) heq
  · intro heq
    cases Cell.key_injective K (f := .codeHash a) (g := .balance b) heq

theorem notes_applyMessage {gasPool : ℕ} (h : own.Notes K a none)
    (hunread : own.dirty.lookup (nonceKey K msg.fromAddr) = none)
    (htransition : ∀ v own gas, R (nonceKey K msg.fromAddr) v → ¬decodeNonce v + 1 < decodeNonce v →
      own.Notes K a none → own.Funds K msg →
        overlayBuffer.Always R (fun _ own' => own'.Notes K a nonce) (transition K I ctx msg gas) own) :
    overlayBuffer.Always R (fun r own' => ∀ res, r = .ok res →
        own'.Notes K a nonce ∧ ∃ v, R (nonceKey K msg.fromAddr) v ∧ msg.nonce = decodeNonce v)
      (applyMessage K I ctx gasPool msg) own := by
  have herr (err : MessageError) (own' : Own) : ∀ res : ExecutionResult, Except.error err = .ok res →
      own'.Notes K a nonce ∧ ∃ v, R (nonceKey K msg.fromAddr) v ∧ msg.nonce = decodeNonce v := nofun
  apply always_applyMessage K I ctx overlayBuffer herr
  intro v _ _ val hv _ _ hadmitted hvalue
  obtain ⟨hnonce, -⟩ := admission_eq_none ctx hadmitted
  have hread : R (nonceKey K msg.fromAddr) v := hv.below hunread
  have hnext : ¬decodeNonce v + 1 < decodeNonce v := by
    intro hlt
    unfold checkNonce at hnonce
    split_ifs at hnonce
  have hfunds : (overlayBuffer.write own (balanceKey K msg.fromAddr) val).Funds K msg :=
    ⟨val, (overlayBuffer.find_write own _ _ _).trans (if_pos rfl), hvalue⟩
  rw [overlayBuffer.always_bind]
  apply overlayBuffer.always_mono _ (htransition v _ _ hread hnext (h.write_balance msg.fromAddr val) hfunds)
  intro res own h
  refine h.bind ((ledger_addBalance K _ _).bind fun _ => (ledger_addBalance K _ _).bind fun _ => Prog.writes_pure _)
    fun _ own h => ?_
  exact fun _ _ => ⟨h, v, hread, (checkNonce_eq_none hnonce).symm⟩

end Accounts

namespace Executor

variable (e : Executor) (a : Address) (ctx : BlockContext) (txs : List Transaction)

/-- What a goroutine may meet of the account: the nonce matters if the transaction is its own. -/
def Sees (n : UInt64) (tx : Transaction) (k v : Bytes) : Prop :=
  Codeless e.keccak a k v ∧ (tx.sender = some a → k = nonceKey e.keccak a → decodeNonce v = n)

structure Leaves (n : UInt64) (tx : Transaction) (own : Own) : Prop where
  raised : tx.sender = some a → tx.nonce = n ∧ own.Notes e.keccak a (some (nonceBytes (n + 1)))
  other : tx.sender ≠ some a → own.Notes e.keccak a none

def Advances (run : BlockRun) (x : Execution) : Prop := x.Merged → e.Leaves a (run.statedb.nonce e.keccak a) x.tx x.own

def Advancing : BlockRun → List Execution → Prop
  | _, [] => True
  | run, x :: log => e.Advances a run x ∧ Advancing (e.record ctx txs run x) log

variable {e a ctx txs} {n : UInt64} {tx : Transaction} {own : Own} {run run' : BlockRun}

theorem Leaves.code (h : e.Leaves a n tx own) : own.dirty.lookup (codeHashKey e.keccak a) = none := by
  by_cases hsender : tx.sender = some a
  · exact (h.raised hsender).2.code
  · exact (h.other hsender).code

theorem Leaves.writes (h : e.Leaves a n tx own) {R : Bytes → Bytes → Prop} {α : Type} {p : StateM α}
    (hp : p.Writes (ledgerKeys e.keccak)) : overlayBuffer.Always R (fun _ own' => e.Leaves a n tx own') p own := by
  by_cases hsender : tx.sender = some a
  · obtain ⟨hnonce, hnotes⟩ := h.raised hsender
    exact overlayBuffer.always_mono (fun _ _ h' => ⟨fun _ => ⟨hnonce, h'⟩, fun hne => absurd hsender hne⟩) (hnotes.writes hp)
  · exact overlayBuffer.always_mono (fun _ _ h' => ⟨fun heq => absurd heq hsender, fun _ => h'⟩)
      ((h.other hsender).writes hp)

theorem leaves_applyMessage (hI : e.interpreter.Orderly e.keccak a) {msg : Message}
    (hmsg : transactionToMessage tx ctx.baseFee = some msg) (gasPool : ℕ) :
    overlayBuffer.Always (e.Sees a n tx) (fun r own => ∀ res, r = .ok res → e.Leaves a n tx own)
      (applyMessage e.keccak e.interpreter ctx gasPool msg) .empty := by
  obtain ⟨sender, hsender, hfields⟩ := Option.map_eq_some_iff.mp hmsg
  have hfrom : msg.fromAddr = sender := by rw [← hfields]
  have hnonce : msg.nonce = tx.nonce := by rw [← hfields]
  have hempty : Own.Notes e.keccak a .empty none := ⟨rfl, rfl⟩
  by_cases ha : sender = a
  · subst ha
    have htransition (v : Bytes) (own : Own) (gas : ℕ) (hv : e.Sees sender n tx (nonceKey e.keccak msg.fromAddr) v)
        (hnext : ¬decodeNonce v + 1 < decodeNonce v) (hown : own.Notes e.keccak sender none)
        (hfunds : own.Funds e.keccak msg) : overlayBuffer.Always (e.Sees sender n tx)
          (fun _ own' => own'.Notes e.keccak sender (some (nonceBytes (n + 1))))
          (transition e.keccak e.interpreter ctx msg gas) own := by
      have hn : decodeNonce v = n := hv.2 hsender (by rw [hfrom])
      rw [hn] at hnext
      exact overlayBuffer.always_weaken (fun _ _ h => ⟨h.1, h.2 hsender⟩)
        (notes_transition_own ctx hI hfrom hown hfunds hnext gas)
    apply overlayBuffer.always_mono _ (notes_applyMessage ctx hempty rfl htransition)
    intro r own h res hres
    obtain ⟨hnotes, v, hv, hread⟩ := h res hres
    refine ⟨fun _ => ⟨?_, hnotes⟩, fun hne => absurd hsender hne⟩
    rw [← hnonce, hread]
    exact hv.2 hsender (by rw [hfrom])
  · have hne : tx.sender ≠ some a := by
      rw [hsender]
      exact fun heq => ha (Option.some.inj heq)
    have htransition (v : Bytes) (own : Own) (gas : ℕ) (_ : e.Sees a n tx (nonceKey e.keccak msg.fromAddr) v)
        (_ : ¬decodeNonce v + 1 < decodeNonce v) (hown : own.Notes e.keccak a none) (_ : own.Funds e.keccak msg) :
        overlayBuffer.Always (e.Sees a n tx) (fun _ own' => own'.Notes e.keccak a none)
          (transition e.keccak e.interpreter ctx msg gas) own :=
      overlayBuffer.always_weaken (fun _ _ h => h.1) (notes_transition_other ctx hI (hfrom ▸ ha) hown gas)
    apply overlayBuffer.always_mono _ (notes_applyMessage ctx hempty rfl htransition)
    exact fun r own h res hres => ⟨fun heq => absurd heq hne, fun _ => (h res hres).1⟩

theorem leaves_executeTransaction (hI : e.interpreter.Orderly e.keccak a) (n : UInt64) (tx : Transaction) :
    overlayBuffer.Always (e.Sees a n tx) (fun r own => r.1 = tx ∧ (Commits r → e.Leaves a n tx own))
      (e.executeTransaction ctx tx) .empty := by
  refine e.always_executeTransaction ctx overlayBuffer ⟨rfl, nofun⟩ fun _ msg hmsg =>
    ⟨_, leaves_applyMessage hI hmsg _, ?_, ?_⟩
  · exact fun err _ _ => ⟨rfl, fun hc => absurd hc (not_commits_error tx err)⟩
  · intro res own h
    apply overlayBuffer.always_mono _ ((h res rfl).writes (writes_processSystemContracts _ _ _ _))
    exact fun _ _ h => ⟨rfl, fun _ => h⟩

theorem nonce_of_getVerkleValue {s s' : StateDB}
    (h : s'.getVerkleValue (nonceKey e.keccak a) = s.getVerkleValue (nonceKey e.keccak a)) :
    s'.nonce e.keccak a = s.nonce e.keccak a := by
  rw [nonce_eq, nonce_eq]
  exact congrArg decodeNonce h

theorem sender_ne_of_get {wave : List Transaction} (hwave : wave.Pairwise fun t u => ¬Conflict t u)
    {i j : Fin wave.length} (hij : j ≠ i) (hi : (wave.get i).sender = some a) : (wave.get j).sender ≠ some a := by
  intro hj
  have hmem {k : Fin wave.length} (hk : (wave.get k).sender = some a) : a ∈ (wave.get k).addresses :=
    Transaction.mem_addresses_of_sender hk
  rcases lt_or_gt_of_ne hij with hlt | hlt
  · exact List.pairwise_iff_get.mp hwave j i hlt ⟨a, hmem hj, hmem hi⟩
  · exact List.pairwise_iff_get.mp hwave i j hlt ⟨a, hmem hi, hmem hj⟩

section Wave

variable {wave : List Transaction} {log : List (Publication Own (Transaction × TxResult) (Fin wave.length))}

theorem nonce_published (hwave : wave.Pairwise fun t u => ¬Conflict t u) {i : Fin wave.length}
    (hi : (wave.get i).sender = some a) (hmem : i ∉ log.map Publication.thread)
    (hlog : ∀ x ∈ log, x.result.1 = wave.get x.thread ∧ (Commits x.result → e.Leaves a n (wave.get x.thread) x.overlay))
    (run : BlockRun) : ((e.waveStore ctx txs).published run log).statedb.nonce e.keccak a =
      run.statedb.nonce e.keccak a := by
  apply nonce_of_getVerkleValue
  apply (e.waveStore ctx txs).read_published_of_find_none
  intro x hx hc
  have hne : x.thread ≠ i := by
    rintro rfl
    exact hmem (List.mem_map_of_mem hx)
  exact (((hlog x hx).2 hc).other (sender_ne_of_get hwave hne hi)).nonce

theorem leaves_of_publishes (hI : e.interpreter.Orderly e.keccak a) (hwave : wave.Pairwise fun t u => ¬Conflict t u)
    (hcode : run.statedb.getVerkleValue (codeHashKey e.keccak a) = [])
    (h : (e.waveStore ctx txs).Publishes run (e.goroutines ctx wave) log run') :
    ∀ x ∈ log, x.result.1 = wave.get x.thread ∧
      (Commits x.result → e.Leaves a (run.statedb.nonce e.keccak a) (wave.get x.thread) x.overlay) := by
  apply h.rely (fun i => leaves_executeTransaction hI (run.statedb.nonce e.keccak a) (wave.get i))
  intro pre _ hpre i hi k
  constructor
  · rintro rfl
    rw [← hcode]
    exact (e.waveStore ctx txs).read_published_of_find_none (fun x hx hc => ((hpre x hx).2 hc).code) run
  · rintro hsender rfl
    rw [← nonce_published hwave hsender hi hpre run, nonce_eq]
    rfl

theorem advancing_of_publishes (hI : e.interpreter.Orderly e.keccak a) (hwave : wave.Pairwise fun t u => ¬Conflict t u)
    (hcode : run.statedb.getVerkleValue (codeHashKey e.keccak a) = [])
    (h : (e.waveStore ctx txs).Publishes run (e.goroutines ctx wave) log run') :
    e.Advancing a ctx txs run (log.map Execution.ofPublication) := by
  have hleaves := leaves_of_publishes hI hwave hcode h
  have hnodup := h.nodup
  -- Each execution, after those in front of it.
  have hfrom (pre post : List (Publication Own (Transaction × TxResult) (Fin wave.length))) (hlog : log = pre ++ post) :
      e.Advancing a ctx txs ((e.waveStore ctx txs).published run pre) (post.map Execution.ofPublication) := by
    induction post generalizing pre with
    | nil => trivial
    | cons x post ih =>
      constructor
      · intro hmerged
        obtain ⟨htx, hx⟩ := hleaves x (by simp [hlog])
        have hx := hx hmerged
        rw [← htx] at hx
        refine ⟨fun hsender => ?_, hx.other⟩
        have hmem : x.thread ∉ pre.map Publication.thread := by
          rw [hlog, List.map_append, List.map_cons] at hnodup
          intro hpre
          exact (List.nodup_append'.mp hnodup).2.2 hpre List.mem_cons_self
        have hpre (y) (hy : y ∈ pre) := hleaves y (by simp [hlog, hy])
        change x.result.1.sender = some a at hsender
        rw [nonce_published hwave (htx ▸ hsender) hmem hpre run]
        exact hx.raised hsender
      · have hnext := ih (pre ++ [x]) (by rw [hlog, List.append_assoc]; rfl)
        rw [Shared.published, List.foldl_append] at hnext
        exact hnext
  exact hfrom [] log rfl

end Wave

theorem Advancing.append {log log' : List Execution} (h : e.Advancing a ctx txs run log)
    (h' : e.Advancing a ctx txs (log.foldl (e.record ctx txs) run) log') : e.Advancing a ctx txs run (log ++ log') := by
  induction log generalizing run with
  | nil => exact h'
  | cons x log ih => exact ⟨h.1, ih h.2 h'⟩

theorem Advances.code {x : Execution} (h : e.Advances a run x) :
    (e.record ctx txs run x).statedb.getVerkleValue (codeHashKey e.keccak a) =
      run.statedb.getVerkleValue (codeHashKey e.keccak a) := by
  by_cases hmerged : x.Merged
  · refine ((e.waveStore ctx txs).read_commit run x.own (x.tx, x.result) _ hmerged).trans ?_
    rw [show (e.waveStore ctx txs).find x.own (codeHashKey e.keccak a) = none from (h hmerged).code]
    rfl
  · exact (e.waveStore ctx txs).read_discard run x.own (x.tx, x.result) _ hmerged

theorem Advancing.code {log : List Execution} (h : e.Advancing a ctx txs run log) :
    (log.foldl (e.record ctx txs) run).statedb.getVerkleValue (codeHashKey e.keccak a) =
      run.statedb.getVerkleValue (codeHashKey e.keccak a) := by
  induction log generalizing run with
  | nil => rfl
  | cons x log ih => exact (ih h.2).trans h.1.code

theorem LogWaves.advancing (hI : e.interpreter.Orderly e.keccak a) {waves : List (List Transaction)} {log : List Execution}
    (h : e.LogWaves ctx txs run waves log run') (hwaves : ∀ wave ∈ waves, wave.Pairwise fun t u => ¬Conflict t u)
    (hcode : run.statedb.getVerkleValue (codeHashKey e.keccak a) = []) : e.Advancing a ctx txs run log := by
  induction h with
  | nil => trivial
  | limit => trivial
  | wave _ hwave _ ih =>
    obtain ⟨hfirst, hrest⟩ := List.forall_mem_cons.mp hwaves
    have hadvancing := advancing_of_publishes hI hfirst hcode hwave
    have hrun := hwave.shared
    rw [published_eq_record] at hrun
    refine hadvancing.append ?_
    rw [← hrun]
    apply ih hrest
    rw [hrun, hadvancing.code, hcode]

theorem LogBlock.advancing (hI : e.interpreter.Orderly e.keccak a) {s : StateDB} {log : List Execution}
    (h : e.LogBlock ctx txs s log run) (hcode : s.getVerkleValue (codeHashKey e.keccak a) = []) :
    e.Advancing a ctx txs (startBlock s txs) log := by
  apply LogWaves.advancing hI h _ hcode
  intro wave hwave
  rw [schedule_eq_rounds] at hwave
  exact FirstFit.rounds_pairwise Conflict hwave

end Executor

section Tracking

variable (K : Keccak256) (a : Address)

structure NonceSettled (s : StateDB) : Prop where
  coherent : Coherent s
  nonce : s.own.dirty.lookup (nonceKey K a) ≠ some []
  code : s.own.dirty.lookup (codeHashKey K a) ≠ some []

def Execution.isBy (x : Execution) : Bool :=
  match x.result with
  | .executed _ _ _ => x.tx.sender = some a
  | _ => false

def executedBy (log : List Execution) : List Execution := log.filter fun x => x.isBy a

structure NonceTrail (s : StateDB) (log : List Execution) (s' : StateDB) : Prop where
  nonces : (executedBy a log).map (fun x => x.tx.nonce.toNat) =
    List.range' (s.nonce K a).toNat (executedBy a log).length
  next : (s'.nonce K a).toNat = (s.nonce K a).toNat + (executedBy a log).length
  code : s'.getVerkleValue (codeHashKey K a) = s.getVerkleValue (codeHashKey K a)
  settled : NonceSettled K a s'

variable {K a} {s s' s'' : StateDB} {log log' : List Execution}

theorem Execution.isBy_iff (x : Execution) : x.isBy a = true ↔ x.Merged ∧ x.tx.sender = some a := by
  obtain ⟨own, tx, result⟩ := x
  cases result <;> simp [isBy, Merged, Executor.Commits]

theorem NonceTrail.refl (h : NonceSettled K a s) : NonceTrail K a s [] s := ⟨rfl, rfl, rfl, h⟩

theorem NonceTrail.trans (h : NonceTrail K a s log s') (h' : NonceTrail K a s' log' s'') : NonceTrail K a s (log ++ log') s'' := by
  have happend : executedBy a (log ++ log') = executedBy a log ++ executedBy a log' := List.filter_append _ _
  refine ⟨?_, ?_, h'.code.trans h.code, h'.settled⟩
  · rw [happend, List.map_append, h.nonces, h'.nonces, h.next, List.length_append, List.range'_append_1]
  · rw [happend, List.length_append, h'.next, h.next, Nat.add_assoc]

theorem lookup_dirty_setVerkleValue (s : StateDB) (key value k : Bytes) :
    (s.setVerkleValue key value).own.dirty.lookup k = if k = key then some value else s.own.dirty.lookup k := by
  have hown : (s.setVerkleValue key value).own.dirty = s.own.dirty.insert key value := by cases s <;> rfl
  rw [hown]
  exact lookup_insert_ite s.own.dirty key value k

theorem lookup_dirty_exec {F : Set Bytes} {α : Type} {p : StateM α} (hp : p.Writes F) (s : StateDB) {k : Bytes}
    (hk : k ∉ F) : (StateDB.exec p s).2.own.dirty.lookup k = s.own.dirty.lookup k := by
  induction p generalizing s with
  | ret a => rfl
  | get key next ih => exact ih _ (hp _) s
  | set key value next ih =>
    refine (ih hp.2 _).trans ((lookup_dirty_setVerkleValue s key value k).trans (if_neg ?_))
    rintro rfl
    exact hk hp.1

theorem lookup_dirty_merge (s : StateDB) (own : Own) (code : List (Σ _ : Hash, Bytes)) (k : Bytes) :
    (((StateDB.overlay s own).addCode code).merge).own.dirty.lookup k =
      (own.dirty.lookup k).or (s.own.dirty.lookup k) := by
  have hcode (t : StateDB) (entries : List (Σ _ : Hash, Bytes)) : (t.addCode entries).own.dirty = t.own.dirty := by
    cases t <;> rfl
  have hreplay := look_replay (fun s k => AList.lookup k (StateDB.own s).dirty) StateDB.setVerkleValue some
    lookup_dirty_setVerkleValue own.dirty.nodupKeys s k
  refine (congrArg (AList.lookup k) (hcode _ _)).trans (hreplay.trans ?_)
  rw [show own.dirty.entries.dlookup k = own.dirty.lookup k from rfl]
  cases own.dirty.lookup k <;> rfl

theorem nonceBytes_ne_nil {n : UInt64} (hlt : 0 < n.toNat) (hle : n.toNat ≤ 2 ^ 63) : nonceBytes n ≠ [] := by
  intro hnil
  have hstored : decodeNonce (nonceBytes n) = storedNonce n := decodeNonce_minimal n
  rw [hnil, storedNonce_eq_iff.mpr hle] at hstored
  rw [← hstored] at hlt
  exact absurd hlt (by decide)

end Tracking

namespace Executor

variable {e : Executor} {a : Address} {ctx : BlockContext} {txs : List Transaction} {run : BlockRun} {s : StateDB}

theorem Advances.settled {x : Execution} (h : e.Advances a run x) (hs : NonceSettled e.keccak a run.statedb)
    (hbound : x.isBy a = true → (run.statedb.nonce e.keccak a).toNat < 2 ^ 63) :
    NonceSettled e.keccak a (e.record ctx txs run x).statedb := by
  obtain ⟨own, tx, result⟩ := x
  cases result with
  | skipped => exact hs
  | panicked => exact hs
  | rejected => exact hs
  | executed usedGas failed code =>
    have hleaves := h trivial
    have hdirty (k : Bytes) : (e.record ctx txs run ⟨own, tx, .executed usedGas failed code⟩).statedb.own.dirty.lookup k =
      (own.dirty.lookup k).or (run.statedb.own.dirty.lookup k) := lookup_dirty_merge run.statedb own code k
    refine ⟨?_, ?_, ?_⟩
    · exact e.finish_invariant (I := Coherent) ctx (fun s key value hs => coherent_setVerkleValue hs key value)
        (fun s entries hs => coherent_addCode hs entries) txs own (tx, .executed usedGas failed code) hs.coherent
    · rw [hdirty]
      by_cases hsender : tx.sender = some a
      · have hlt := hbound ((Execution.isBy_iff _).mpr ⟨trivial, hsender⟩)
        rw [(hleaves.raised hsender).2.nonce]
        have hsucc : (run.statedb.nonce e.keccak a + 1).toNat = (run.statedb.nonce e.keccak a).toNat + 1 := by
          rw [UInt64.toNat_add, UInt64.toNat_one]
          omega
        exact fun heq => nonceBytes_ne_nil (by omega) (by omega) (Option.some.inj heq)
      · rw [(hleaves.other hsender).nonce]
        exact hs.nonce
    · rw [hdirty, hleaves.code]
      exact hs.code

theorem Advances.nonceTrail (ctx : BlockContext) (txs : List Transaction) {x : Execution} (h : e.Advances a run x) (hs : NonceSettled e.keccak a run.statedb)
    (hbound : (run.statedb.nonce e.keccak a).toNat + (executedBy a [x]).length ≤ 2 ^ 63) :
    NonceTrail e.keccak a run.statedb [x] (e.record ctx txs run x).statedb := by
  by_cases hby : x.isBy a = true
  · obtain ⟨hmerged, hsender⟩ := x.isBy_iff.mp hby
    obtain ⟨hnonce, hnotes⟩ := (h hmerged).raised hsender
    have hexecuted : executedBy a [x] = [x] := List.filter_cons_of_pos hby
    rw [hexecuted, List.length_singleton] at hbound
    have hread : (e.record ctx txs run x).statedb.nonce e.keccak a = storedNonce (run.statedb.nonce e.keccak a + 1) := by
      rw [nonce_eq]
      refine (congrArg decodeNonce ?_).trans (decodeNonce_minimal _)
      refine ((e.waveStore ctx txs).read_commit run x.own (x.tx, x.result) _ hmerged).trans ?_
      rw [show (e.waveStore ctx txs).find x.own (nonceKey e.keccak a) =
        some (nonceBytes (run.statedb.nonce e.keccak a + 1)) from hnotes.nonce]
      rfl
    have hsucc : (run.statedb.nonce e.keccak a + 1).toNat = (run.statedb.nonce e.keccak a).toNat + 1 := by
      rw [UInt64.toNat_add, UInt64.toNat_one]
      omega
    refine ⟨?_, ?_, h.code, h.settled hs fun _ => by omega⟩
    · rw [hexecuted, List.map_singleton, hnonce]
      rfl
    · rw [hexecuted, hread, storedNonce_eq_iff.mpr (by omega), hsucc]
      rfl
  · have hexecuted : executedBy a [x] = [] := List.filter_cons_of_neg hby
    refine ⟨?_, ?_, h.code, h.settled hs fun heq => absurd heq hby⟩
    · rw [hexecuted]
      rfl
    · rw [hexecuted, List.length_nil, Nat.add_zero]
      apply congrArg UInt64.toNat
      apply nonce_of_getVerkleValue
      by_cases hmerged : x.Merged
      · have hother : x.tx.sender ≠ some a := fun hsender => hby (x.isBy_iff.mpr ⟨hmerged, hsender⟩)
        refine ((e.waveStore ctx txs).read_commit run x.own (x.tx, x.result) _ hmerged).trans ?_
        rw [show (e.waveStore ctx txs).find x.own (nonceKey e.keccak a) = none from ((h hmerged).other hother).nonce]
        rfl
      · exact (e.waveStore ctx txs).read_discard run x.own (x.tx, x.result) _ hmerged

theorem Advancing.nonceTrail {log : List Execution} (h : e.Advancing a ctx txs run log) (hs : NonceSettled e.keccak a run.statedb)
    (hbound : (run.statedb.nonce e.keccak a).toNat + (executedBy a log).length ≤ 2 ^ 63) :
    NonceTrail e.keccak a run.statedb log (log.foldl (e.record ctx txs) run).statedb := by
  induction log generalizing run with
  | nil => exact .refl hs
  | cons x log ih =>
    have hlen : (executedBy a (x :: log)).length = (executedBy a [x]).length + (executedBy a log).length := by
      rw [← List.length_append]
      exact congrArg List.length (List.filter_append [x] log)
    rw [hlen] at hbound
    have hfirst := h.1.nonceTrail ctx txs hs (by omega)
    have hrest := ih h.2 hfirst.settled (by rw [hfirst.next]; omega)
    exact hfirst.trans hrest

theorem nonceTrail_closeBlock (ctx : BlockContext) (txs : List Transaction) (hs : NonceSettled e.keccak a run.statedb) :
    NonceTrail e.keccak a run.statedb [] (e.closeBlock ctx txs run).statedb := by
  have hwrites := ledger_addBalance e.keccak ctx.coinbase (BitVec.ofNat 256 (blockReward + run.totalFees))
  have hvalue {k : Bytes} (hk : k ∉ ledgerKeys e.keccak) :
      (e.closeBlock ctx txs run).statedb.getVerkleValue k = run.statedb.getVerkleValue k := by
    refine (congrFun (StateDB.exec_denote _ run.statedb).2 k).trans ?_
    exact hwrites.denote run.statedb.getVerkleValue hk
  have hdirty {k : Bytes} (hk : k ∉ ledgerKeys e.keccak) :
      (e.closeBlock ctx txs run).statedb.own.dirty.lookup k = run.statedb.own.dirty.lookup k :=
    lookup_dirty_exec hwrites run.statedb hk
  refine ⟨rfl, ?_, hvalue (codeHashKey_notMem_ledgerKeys _ a), ?_, ?_, ?_⟩
  · exact congrArg UInt64.toNat (nonce_of_getVerkleValue (hvalue (nonceKey_notMem_ledgerKeys _ a)))
  · exact StateDB.exec_invariant (I := Coherent) (fun s key value hs => coherent_setVerkleValue hs key value) _ hs.coherent
  · rw [hdirty (nonceKey_notMem_ledgerKeys _ a)]
    exact hs.nonce
  · rw [hdirty (codeHashKey_notMem_ledgerKeys _ a)]
    exact hs.code

theorem nonceTrail_commit (hs : NonceSettled e.keccak a s) : NonceTrail e.keccak a s [] s.commit.1 := by
  have hdirty (k : Bytes) : s.commit.1.own.dirty.lookup k = none := by cases s <;> rfl
  refine ⟨rfl, ?_, getVerkleValue_commit hs.coherent hs.code, coherent_commit hs.coherent, ?_, ?_⟩
  · exact congrArg UInt64.toNat (nonce_of_getVerkleValue (getVerkleValue_commit hs.coherent hs.nonce))
  · rw [hdirty]
    exact nofun
  · rw [hdirty]
    exact nofun

variable (e) in
inductive History : StateDB → List Execution → StateDB → Prop
  | refl (s : StateDB) : History s [] s
  | block {s s' : StateDB} {log log' : List Execution} {ctx : BlockContext} {txs : List Transaction} {run : BlockRun}
      (h : History s log s') (hblock : e.LogBlock ctx txs s' log' run) :
      History s (log ++ log') (e.closeBlock ctx txs run).statedb
  | commit {s s' : StateDB} {log : List Execution} (h : History s log s') : History s log s'.commit.1

theorem History.nonceTrail (hI : e.interpreter.Orderly e.keccak a) {s' : StateDB} {log : List Execution}
    (h : e.History s log s') (hs : NonceSettled e.keccak a s) (hcode : s.getVerkleValue (codeHashKey e.keccak a) = [])
    (hbound : (s.nonce e.keccak a).toNat + (executedBy a log).length ≤ 2 ^ 63) : NonceTrail e.keccak a s log s' := by
  induction h with
  | refl => exact .refl hs
  | @block s' log log' ctx txs run _ hblock ih =>
    have hlen : (executedBy a (log ++ log')).length = (executedBy a log).length + (executedBy a log').length := by
      rw [← List.length_append]
      exact congrArg List.length (List.filter_append log log')
    rw [hlen] at hbound
    have hold := ih (by omega)
    have hadvancing := LogBlock.advancing hI hblock (hold.code.trans hcode)
    have hnew := hadvancing.nonceTrail hold.settled (by
      change (s'.nonce e.keccak a).toNat + _ ≤ _
      rw [hold.next]
      omega)
    rw [← LogWaves.run_eq hblock] at hnew
    have hblock := (hold.trans hnew).trans (nonceTrail_closeBlock ctx txs hnew.settled)
    rwa [List.append_nil] at hblock
  | commit _ ih =>
    have hold := ih hbound
    have hcommit := hold.trans (nonceTrail_commit hold.settled)
    rwa [List.append_nil] at hcommit

theorem History.apply {s' : StateDB} {log : List Execution} {res : AppliedBlock} (h : e.History s log s')
    (happly : e.ApplyBlock ctx s' txs res) : ∃ log', e.History s log' res.statedb := by
  obtain ⟨run, hrun, -, rfl⟩ := happly
  obtain ⟨log', hlog'⟩ := runWaves_iff_logBlock.mp hrun
  exact ⟨_, h.block hlog'⟩

theorem exists_history {S : Sealing} {cfg : NetworkConfig} {n n' : Node}
    (h : Relation.ReflTransGen (fun n n' => ∃ event, Node.Step e S cfg n event n') n n') :
    ∃ log, e.History n.state log n'.state := by
  induction h with
  | refl => exact ⟨[], .refl _⟩
  | tail _ hstep ih =>
    obtain ⟨log, hlog⟩ := ih
    obtain ⟨event, hstep⟩ := hstep
    cases hstep with
    | deliver _ hdeliver =>
      cases hdeliver with
      | skipped => exact ⟨log, hlog⟩
      | rejected => exact ⟨log, hlog⟩
      | imported _ _ happly =>
        obtain ⟨log', hlog'⟩ := hlog.apply happly
        exact ⟨log', hlog'.commit⟩
    | updateValidators => exact ⟨log, hlog⟩
    | readParent => exact ⟨log, hlog⟩
    | execute _ _ _ happly => exact hlog.apply happly
    | persist _ => exact ⟨log, hlog.commit⟩

theorem nonceSettled_new (db : Database) : NonceSettled e.keccak a (StateDB.new db) :=
  ⟨fun _ _ hk => (nomatch hk), nofun, nofun⟩

/-- The transactions of an account without code are executed under consecutive nonces, from the stored one on,
over all blocks, whatever the interleaving of their goroutines; so none is executed twice. -/
theorem executed_nonces_consecutive (hI : e.interpreter.Orderly e.keccak a) {db : Database}
    (hcode : (StateDB.new db).getVerkleValue (codeHashKey e.keccak a) = []) {log : List Execution} {s' : StateDB}
    (h : e.History (.new db) log s')
    (hbound : ((StateDB.new db).nonce e.keccak a).toNat + (executedBy a log).length ≤ 2 ^ 63) :
    (executedBy a log).map (fun x => x.tx.nonce.toNat) =
        List.range' ((StateDB.new db).nonce e.keccak a).toNat (executedBy a log).length ∧
      ((executedBy a log).map Execution.tx).Nodup ∧
      (s'.nonce e.keccak a).toNat = ((StateDB.new db).nonce e.keccak a).toNat + (executedBy a log).length := by
  have htrail := h.nonceTrail hI (nonceSettled_new db) hcode hbound
  refine ⟨htrail.nonces, ?_, htrail.next⟩
  apply List.Nodup.of_map (fun tx => tx.nonce.toNat)
  rw [List.map_map]
  exact htrail.nonces ▸ List.nodup_range'

end Executor

section Sample

def Interpreter.raising (K : Keccak256) : Interpreter where
  precompile _ _ gas := (gas, false)
  run _ _ gas := pure ⟨gas, false, []⟩
  create _ msg gas := getNonce K msg.fromAddr >>= fun nonce => setNonce K msg.fromAddr (nonce + 1) >>= fun _ =>
    pure ⟨gas, false, []⟩

theorem Interpreter.orderly_raising (K : Keccak256) (a : Address) : (raising K).Orderly K a where
  run _ _ _ _ _ h := h
  createOther _ _ _ _ _ hfrom h := h.raise_other hfrom fun _ h => h
  createOwn _ msg _ _ _ hfrom h _ _ := by
    change overlayBuffer.Always _ _ (getNonce K msg.fromAddr >>= _) _
    rw [hfrom]
    exact h.raise_own (fun v hv => hv.2 rfl) fun _ h => h

def Executor.raising : Executor := { Executor.ideal with interpreter := .raising .ideal }

def fundedDatabase : Database :=
  Database.empty.put (StateDB.leafPrefix :: balanceKey .ideal 0xa1) (.raw (BigEndian.minimal 32 1000000))

def twoNonces : List Transaction :=
  [payment 0 0xa1 0xb1, { payment 0 0xa1 0xb2 with hash := 2, nonce := 1 }]

theorem schedule_twoNonces : schedule twoNonces = twoNonces.map fun tx => [tx] := by
  rw [schedule_eq_rounds, twoNonces, FirstFit.rounds_of_ne_nil Conflict (by simp)]
  simp [FirstFit.select, Conflict, Transaction.addresses, payment, FirstFit.rounds_of_ne_nil Conflict, FirstFit.rounds_nil]

def noncesLog : List Execution :=
  Executor.raising.logInOrder sampleContext twoNonces (Executor.startBlock (.new fundedDatabase) twoNonces) twoNonces

theorem executed_nonces_consecutive_payments : ∃ s', Executor.raising.History (.new fundedDatabase) noncesLog s' ∧
    (executedBy 0xa1 noncesLog).map (fun x => x.tx.nonce.toNat) = [0, 1] ∧ (s'.nonce .ideal 0xa1).toNat = 2 := by
  have hblock : Executor.raising.LogBlock sampleContext twoNonces (.new fundedDatabase) noncesLog
      (Executor.raising.runInOrder sampleContext twoNonces (Executor.startBlock (.new fundedDatabase) twoNonces)
        twoNonces) := by
    rw [Executor.LogBlock, schedule_twoNonces]
    exact Executor.raising.logWaves_singletons sampleContext twoNonces _ twoNonces
  have hhistory := Executor.History.block (.refl _) hblock
  have hlen : (executedBy 0xa1 noncesLog).length = 2 := by decide +kernel
  have hnonce : ((StateDB.new fundedDatabase).nonce .ideal 0xa1).toNat = 0 := by decide +kernel
  obtain ⟨hnonces, -, hnext⟩ := Executor.executed_nonces_consecutive (e := .raising)
    (Interpreter.orderly_raising .ideal 0xa1) (by decide +kernel) hhistory (by
      rw [List.nil_append, hlen]
      decide +kernel)
  rw [List.nil_append] at hhistory hnonces hnext
  refine ⟨_, hhistory, ?_, ?_⟩
  · rw [hnonces, hlen]
    decide +kernel
  · exact hnext.trans (by rw [hlen]; exact congrArg (· + 2) hnonce)

end Sample

end Zephyria
