import Zephyria.Production
import Zephyria.Receipts
import Zephyria.WaveDeterminism

/-!
Which transactions of a block take effect: those that the state transition rejects leave no trace,
and the others are executed exactly when it finds their sender in order.
-/

namespace Zephyria

section Absence

variable {wave : List Transaction} (i : Fin wave.length)

def withoutIdx (j : Fin (wave.eraseIdx i).length) : Fin wave.length :=
  ⟨if (j : ℕ) < i then j else j + 1, by
    have hlength := List.length_eraseIdx_of_lt i.isLt
    have hj := j.isLt
    split <;> omega⟩

theorem withoutIdx_injective : Function.Injective (withoutIdx i) := by
  intro j l h
  have hval : (if (j : ℕ) < i then (j : ℕ) else j + 1) = if (l : ℕ) < i then (l : ℕ) else l + 1 := congrArg Fin.val h
  apply Fin.ext
  split_ifs at hval <;> omega

theorem eq_of_notMem_withoutIdx {j : Fin wave.length} (h : j ∉ Set.range (withoutIdx i)) : j = i := by
  by_contra hne
  have hne : (j : ℕ) ≠ i := fun heq => hne (Fin.ext heq)
  have hi := i.isLt
  have hj := j.isLt
  have hlength := List.length_eraseIdx_of_lt hi
  apply h
  by_cases hlt : (j : ℕ) < i
  · exact ⟨⟨j, by omega⟩, Fin.ext (if_pos hlt)⟩
  · refine ⟨⟨j - 1, by omega⟩, Fin.ext ?_⟩
    have hnot : ¬((j : ℕ) - 1 < i) := by omega
    change (if (j : ℕ) - 1 < i then (j : ℕ) - 1 else j - 1 + 1) = j
    rw [if_neg hnot]
    omega

theorem get_withoutIdx (j : Fin (wave.eraseIdx i).length) : wave.get (withoutIdx i j) = (wave.eraseIdx i).get j := by
  simp only [List.get_eq_getElem, List.getElem_eraseIdx, withoutIdx]
  split <;> rfl

end Absence

section Message

variable (K : Keccak256) (I : Interpreter) (ctx : BlockContext) {ω : Type} (B : Buffer ω Bytes Bytes)
  {R : Bytes → Bytes → Prop}

end Message

namespace Executor

variable (e : Executor) (ctx : BlockContext) (txs : List Transaction)

structure SameEffects (run run' : BlockRun) : Prop where
  statedb : run.statedb = run'.statedb
  blockGasUsed : run.blockGasUsed = run'.blockGasUsed
  totalFees : run.totalFees = run'.totalFees

theorem sameEffects_blind : (e.waveStore ctx txs).Blind SameEffects where
  read h := by
    change StateDB.getVerkleValue _ = StateDB.getVerkleValue _
    rw [h.statedb]
  publish o a h := by
    obtain ⟨hdb, hgas, hfees⟩ := h
    obtain ⟨tx, res⟩ := a
    cases res with
    | skipped => exact ⟨hdb, hgas, hfees⟩
    | panicked => exact ⟨hdb, hgas, hfees⟩
    | rejected => exact ⟨hdb, hgas, hfees⟩
    | executed usedGas failed code =>
      exact ⟨congrArg (fun db => ((StateDB.overlay db o).addCode code).merge) hdb,
        congrArg (· + UInt64.ofNat usedGas) hgas, congrArg (· + usedGas * effectiveGasPrice ctx tx) hfees⟩
  discard o a hc h := by
    obtain ⟨hdb, hgas, hfees⟩ := e.finish_of_not_commits ctx txs _ o hc
    exact ⟨hdb.trans h.statedb, hgas.trans h.blockGasUsed, hfees.trans h.totalFees⟩

variable {e ctx txs} {wave : List Transaction} {run run' : BlockRun}
  {log : List (Publication Own (Transaction × TxResult) (Fin wave.length))}

theorem goroutine_skipped (h : (e.waveStore ctx txs).Publishes run (e.goroutines ctx wave) log run') :
    ∀ x ∈ log, (wave.get x.thread).size > maxTxSize ∨ (wave.get x.thread).sender = none → ¬Commits x.result := by
  apply h.always (A := fun _ _ _ => True)
    (Q := fun i a _ => (wave.get i).size > maxTxSize ∨ (wave.get i).sender = none → ¬Commits a)
  · intro i
    unfold goroutines executeTransaction
    split
    · exact fun _ => id
    next hsize =>
      split
      · exact fun _ => id
      next msg hmsg =>
        apply (e.waveStore ctx txs).always_mono _ ((e.waveStore ctx txs).always_true _ _ _)
        rintro a o - (hlarge | hsender)
        · exact absurd hlarge hsize
        · rw [(transactionToMessage_fields hmsg).1] at hsender
          cases hsender
  · exact fun _ _ _ _ _ => trivial

/-- A transaction of a wave that is too large, has no sender, or is rejected by the state transition
after any writes to its overlay, could as well not be in the wave. -/
theorem rejected_absent (e : Executor) (ctx : BlockContext) (txs wave : List Transaction) (run run' : BlockRun)
    (log : List (Publication Own (Transaction × TxResult) (Fin wave.length)))
    (h : (e.waveStore ctx txs).Publishes run (e.goroutines ctx wave) log run') (i : Fin wave.length)
    (hi : (wave.get i).size > maxTxSize ∨ (wave.get i).sender = none ∨
      ∃ own, ⟨i, own, (wave.get i, .rejected)⟩ ∈ log) :
    ∃ run'', (e.waveStore ctx txs).Outcome run (e.goroutines ctx (wave.eraseIdx i)) run'' ∧
      SameEffects run' run'' := by
  have hout (x : Publication Own (Transaction × TxResult) (Fin wave.length)) (hx : x ∈ log)
      (hrange : x.thread ∉ Set.range (withoutIdx i)) : ¬(e.waveStore ctx txs).commits x.result := by
    have hxi : x.thread = i := eq_of_notMem_withoutIdx i hrange
    obtain hlarge | hsender | ⟨own, hown⟩ := hi
    · exact goroutine_skipped h x hx (Or.inl (hxi ▸ hlarge))
    · exact goroutine_skipped h x hx (Or.inr (hxi ▸ hsender))
    · obtain rfl : x = ⟨i, own, (wave.get i, .rejected)⟩ :=
        List.inj_on_of_nodup_map h.nodup hx hown hxi
      exact id
  obtain ⟨run'', hsame, houtcome⟩ := h.restrict (e.sameEffects_blind ctx txs) (withoutIdx_injective i)
    (⟨rfl, rfl, rfl⟩ : SameEffects run run) hout
  refine ⟨run'', ?_, hsame⟩
  have hgoroutines : e.goroutines ctx wave ∘ withoutIdx i = e.goroutines ctx (wave.eraseIdx i) := by
    funext j
    exact congrArg (e.executeTransaction ctx) (get_withoutIdx i j)
  rwa [hgoroutines] at houtcome

/-- The states of the store that a goroutine may still read. -/
def Meets (e : Executor) (ctx : BlockContext) (txs : List Transaction) (run : BlockRun)
    (log : List (Publication Own (Transaction × TxResult) (Fin wave.length))) (i : Fin wave.length)
    (state : BlockRun) : Prop :=
  ∃ pre, pre <+: log ∧ i ∉ pre.map Publication.thread ∧ state = (e.waveStore ctx txs).published run pre

def Undisturbed (e : Executor) (ctx : BlockContext) (txs : List Transaction) (run : BlockRun)
    (log : List (Publication Own (Transaction × TxResult) (Fin wave.length))) (i : Fin wave.length) : Prop :=
  ∀ state, e.Meets ctx txs run log i state → ∀ a, (wave.get i).sender = some a →
    (e.book state).nonce a = (e.book run).nonce a ∧ (e.book state).codeHash a = (e.book run).codeHash a ∧
      (e.book state).balance a = (e.book run).balance a

section Batch

variable (e ctx)

/-- Whatever the others leave at the keys that they write, a transaction writes only its own keys, and
these are not in the account of the sender of another one. -/
structure Independent (s : StateDB) (txs : List Transaction) (W : Transaction → Set Bytes) : Prop where
  nodup : txs.Nodup
  confined : ∀ tx ∈ txs, overlayBuffer.Always
    (fun k v => (∀ other ∈ txs, other ≠ tx → k ∉ W other) → v = s.getVerkleValue k)
    (fun _ own => overlayBuffer.Confined (W tx) own) (e.executeTransaction ctx tx) overlayBuffer.fresh
  senders : ∀ tx ∈ txs, ∀ other ∈ txs, other ≠ tx → ∀ a, tx.sender = some a →
    nonceKey e.keccak a ∉ W other ∧ codeHashKey e.keccak a ∉ W other ∧ balanceKey e.keccak a ∉ W other

structure PlainPayments (s : StateDB) (txs : List Transaction) : Prop where
  transfers : ∀ tx ∈ txs, ∃ recipient, IsTransfer ctx (accounts e.keccak s.getVerkleValue) tx recipient
  senders : (txs.map Transaction.sender).Nodup
  unpaid : ∀ tx ∈ txs, ∀ a, tx.sender = some a → a ≠ ctx.coinbase ∧
    ∀ other ∈ txs, other ≠ tx → other.toAddr ≠ some a

variable {e ctx} {s : StateDB} {W : Transaction → Set Bytes}

theorem PlainPayments.independent (h : e.PlainPayments ctx s txs) : e.Independent ctx s txs (e.writtenKeys ctx) where
  nodup := h.senders.of_map _
  confined := by
    intro tx htx
    obtain ⟨recipient, ht⟩ := h.transfers tx htx
    refine e.confined_executeTransaction ctx overlayBuffer ht.toAddr ht.data ht.precompile fun v hv => ?_
    have hkept : v = s.getVerkleValue (codeHashKey e.keccak recipient) :=
      hv fun other _ _ hmem => (e.mem_writtenKeys ctx (c := .codeHash recipient)).mp hmem
    rw [hkept]
    exact ht.code
  senders := by
    intro tx htx other hother hne a ha
    have hsender : other.sender ≠ some a := by
      intro hsame
      exact hne (List.inj_on_of_nodup_map h.senders hother htx (hsame.trans ha.symm))
    obtain ⟨hcoinbase, hto⟩ := h.unpaid tx htx a ha
    refine ⟨fun hmem => ?_, fun hmem => ?_, fun hmem => ?_⟩
    · exact hsender ((e.mem_writtenKeys ctx (c := .nonce a)).mp hmem)
    · exact (e.mem_writtenKeys ctx (c := .codeHash a)).mp hmem
    · obtain hs | ht | hc := (e.mem_writtenKeys ctx (c := .balance a)).mp hmem
      · exact hsender hs
      · exact hto other hother hne ht
      · exact hcoinbase hc

def Touches (s : StateDB) (W : Transaction → Set Bytes) (done : List Transaction) (run : BlockRun) : Prop :=
  ∀ k, (∀ tx ∈ done, k ∉ W tx) → run.statedb.getVerkleValue k = s.getVerkleValue k

variable {done : List Transaction}

variable (e ctx txs) in
theorem Touches.published (h : Touches s W done run)
    {pre : List (Publication Own (Transaction × TxResult) (Fin wave.length))}
    (hpre : ∀ x ∈ pre, overlayBuffer.Confined (W (wave.get x.thread)) x.overlay) :
    Touches s W (done ++ pre.map fun x => wave.get x.thread) ((e.waveStore ctx txs).published run pre) := by
  intro k hk
  refine (Shared.read_published_of_find_none (S := e.waveStore ctx txs) (fun x hx _ => ?_) run).trans (h k ?_)
  · apply hpre x hx
    exact hk _ (List.mem_append_right _ (List.mem_map_of_mem hx))
  · exact fun tx htx => hk tx (List.mem_append_left _ htx)

section Wave

variable (hind : e.Independent ctx s txs W) (hmem : ∀ tx ∈ done ++ wave, tx ∈ txs) (hnodup : (done ++ wave).Nodup)
  (htouches : Touches s W done run) (h : (e.waveStore ctx txs).Publishes run (e.goroutines ctx wave) log run')

include hind hmem hnodup htouches h

end Wave

end Batch

end Executor

section Sample

def unsignedPayment : Transaction := { payment 0 0xa2 0xb2 with sender := none, unsupported := fun _ _ => rfl }

def starvedPayment : Transaction := { payment 0 0xa1 0xb1 with gas := 20000 }

def mixedWave : List Transaction := [unsignedPayment, starvedPayment, payment 0 0xa3 0xb3]

def mixedRun : BlockRun := Executor.startBlock (granted .ideal [(0xa1, 1000000), (0xa3, 1000000)]) []

theorem unsigned_and_starved_absent : ∃ (own : Own) (run' run₀ run₁ : BlockRun),
    (Executor.ideal.waveStore sampleContext []).Outcome mixedRun (Executor.ideal.goroutines sampleContext mixedWave) run' ∧
    own.dirty.lookup (balanceKey .ideal 0xa1) = some (BigEndian.minimal 32 980000) ∧
    (Executor.ideal.waveStore sampleContext []).Outcome mixedRun
      (Executor.ideal.goroutines sampleContext [starvedPayment, payment 0 0xa3 0xb3]) run₀ ∧
    Executor.SameEffects run' run₀ ∧
    (Executor.ideal.waveStore sampleContext []).Outcome mixedRun
      (Executor.ideal.goroutines sampleContext [unsignedPayment, payment 0 0xa3 0xb3]) run₁ ∧
    Executor.SameEffects run' run₁ := by
  let unsigned : Fin mixedWave.length := ⟨0, by decide⟩
  let starved : Fin mixedWave.length := ⟨1, by decide⟩
  obtain ⟨run', hlog⟩ := Shared.publishes_results (S := Executor.ideal.waveStore sampleContext [])
    (List.nodup_finRange mixedWave.length) List.mem_finRange mixedRun (Executor.ideal.goroutines sampleContext mixedWave)
  obtain ⟨p, hp⟩ : ∃ p, p = (Executor.ideal.waveStore sampleContext []).publication mixedRun
    (Executor.ideal.goroutines sampleContext mixedWave) starved := ⟨_, rfl⟩
  have hthread : p.thread = starved := by rw [hp]; rfl
  have hresult : p.result = (mixedWave.get starved, .rejected) := by rw [hp]; decide +kernel
  have hdebited : p.overlay.dirty.lookup (balanceKey .ideal 0xa1) = some (BigEndian.minimal 32 980000) := by
    rw [hp]
    decide +kernel
  have hmem : p ∈ (List.finRange mixedWave.length).map ((Executor.ideal.waveStore sampleContext []).publication mixedRun
      (Executor.ideal.goroutines sampleContext mixedWave)) := by
    rw [hp]
    exact List.mem_map_of_mem (List.mem_finRange starved)
  obtain ⟨thread, own, result⟩ := p
  obtain rfl : thread = starved := hthread
  obtain rfl : result = (mixedWave.get starved, .rejected) := hresult
  obtain ⟨run₀, habsent₀, hsame₀⟩ := Executor.rejected_absent _ _ _ _ _ _ _ hlog unsigned (Or.inr (Or.inl rfl))
  obtain ⟨run₁, habsent₁, hsame₁⟩ := Executor.rejected_absent _ _ _ _ _ _ _ hlog starved (Or.inr (Or.inr ⟨own, hmem⟩))
  exact ⟨own, run', run₀, run₁, Shared.outcome_iff_publishes.mpr ⟨_, hlog⟩, hdebited, habsent₀, hsame₀, habsent₁, hsame₁⟩

end Sample

end Zephyria
