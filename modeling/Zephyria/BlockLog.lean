import Zephyria.Lib.Publications
import Zephyria.Supply

/-!
The executions of a block in the order in which their goroutines record them. What `ApplyBlock`
returns is a function of this log.
-/

namespace Zephyria

section Message

variable (K : Keccak256) (I : Interpreter) (ctx : BlockContext) {ω : Type} (B : Buffer ω Bytes Bytes)
  {R : Bytes → Bytes → Prop}

structure Message.Payable (baseFee : Option ℕ) (gasPool : ℕ) (msg : Message) : Prop where
  nonce : checkNonce msg.nonce msg.nonce = none
  fees : checkFees baseFee msg = none
  blobs : checkBlobs msg = none
  balance : balanceCheck msg < 2 ^ 256
  limits : checkLimits gasPool msg = none
  intrinsic : checkIntrinsicGas msg = none

instance (baseFee : Option ℕ) (gasPool : ℕ) (msg : Message) : Decidable (msg.Payable baseFee gasPool) :=
  decidable_of_iff (checkNonce msg.nonce msg.nonce = none ∧ checkFees baseFee msg = none ∧
      checkBlobs msg = none ∧ balanceCheck msg < 2 ^ 256 ∧ checkLimits gasPool msg = none ∧
      checkIntrinsicGas msg = none)
    ⟨fun h => ⟨h.1, h.2.1, h.2.2.1, h.2.2.2.1, h.2.2.2.2.1, h.2.2.2.2.2⟩,
      fun h => ⟨h.nonce, h.fees, h.blobs, h.balance, h.limits, h.intrinsic⟩⟩

theorem checkNonce_eq_none {n m : UInt64} (h : checkNonce n m = none) : n = m := by
  unfold checkNonce at h
  split_ifs at h with h₁ h₂ h₃
  exact UInt64.le_antisymm (UInt64.not_lt.mp h₂) (UInt64.not_lt.mp h₁)

theorem always_applyMessage_ok (gasPool : ℕ) (msg : Message) (o : ω) :
    B.Always R (fun a _ => ∀ res, a = .ok res → res.usedGas ≤ msg.gasLimit.toNat ∧ msg.Payable ctx.baseFee gasPool)
      (applyMessage K I ctx gasPool msg) o := by
  have herr (err : MessageError) (o : ω) : ∀ res : ExecutionResult, Except.error err = .ok res →
      res.usedGas ≤ msg.gasLimit.toNat ∧ msg.Payable ctx.baseFee gasPool := nofun
  apply always_applyMessage K I ctx B herr
  intro v₁ v₂ v₃ v₄ _ _ _ hadmitted _
  obtain ⟨hnonce, -, hfees, hblobs, hbalance, -, hlimits, hintrinsic⟩ := admission_eq_none ctx hadmitted
  apply B.always_bind_of_forall
  intro call _
  apply B.always_bind_of_forall
  intro _ _ res hres
  obtain rfl := Except.ok.inj hres
  rw [checkNonce_eq_none hnonce] at hnonce
  exact ⟨Nat.sub_le _ _, hnonce, hfees, hblobs, hbalance, hlimits, hintrinsic⟩

end Message

structure Execution where
  own : Own
  tx : Transaction
  result : TxResult

namespace Execution

def ofPublication {ι : Type} (x : Publication Own (Transaction × TxResult) ι) : Execution :=
  ⟨x.overlay, x.result.1, x.result.2⟩

def Merged (x : Execution) : Prop := Executor.Commits (x.tx, x.result)

def usedGas (x : Execution) : ℕ :=
  match x.result with
  | .executed usedGas _ _ => usedGas
  | _ => 0

end Execution

namespace Executor

variable (e : Executor) (ctx : BlockContext) (txs : List Transaction)

def gasReserve (tx : Transaction) : ℕ :=
  match transactionToMessage tx ctx.baseFee with
  | none => 0
  | some msg =>
    if tx.size ≤ maxTxSize ∧ ¬e.isSystemTx tx.toAddr ∧ msg.Payable ctx.baseFee ctx.gasLimit.toNat then tx.gas.toNat else 0

theorem always_executeTransaction_gas {ω : Type} (B : Buffer ω Bytes Bytes) {R : Bytes → Bytes → Prop}
    (tx : Transaction) (o : ω) :
    B.Always R (fun a _ => a.1 = tx ∧ ∀ usedGas failed code, a.2 = .executed usedGas failed code →
      usedGas ≤ e.gasReserve ctx tx) (e.executeTransaction ctx tx) o := by
  refine e.always_executeTransaction ctx B ⟨rfl, nofun⟩ fun hsize msg hmsg =>
    ⟨_, always_applyMessage_ok e.keccak e.interpreter ctx B _ msg o, ?_, ?_⟩
  · exact fun err _ _ => ⟨rfl, fun _ _ _ hres => absurd hres (error_ne_executed err _ _ _)⟩
  · intro res _ hok
    obtain ⟨-, hto, -⟩ := transactionToMessage_fields hmsg
    obtain ⟨hused, hpayable⟩ := hok res rfl
    refine B.always_mono (fun _ _ _ => ⟨rfl, fun usedGas failed code hres => ?_⟩) (B.always_true _ _ _)
    obtain ⟨rfl, -, -⟩ := TxResult.executed.inj hres
    rw [hto]
    by_cases hsystem : e.isSystemTx tx.toAddr
    · rw [if_pos hsystem]
      exact Nat.zero_le _
    · unfold gasReserve
      rw [if_neg hsystem, hmsg]
      dsimp only
      rw [if_pos ⟨hsize, hsystem, hpayable⟩]
      obtain ⟨sender, -, rfl⟩ := Option.map_eq_some_iff.mp hmsg
      exact hused

theorem gasReserve_cases (tx : Transaction) : e.gasReserve ctx tx = 0 ∨
    e.gasReserve ctx tx = tx.gas.toNat ∧ tx.size ≤ maxTxSize ∧ ¬e.isSystemTx tx.toAddr ∧
      ∃ msg, transactionToMessage tx ctx.baseFee = some msg ∧ msg.Payable ctx.baseFee ctx.gasLimit.toNat := by
  unfold gasReserve
  split
  · exact Or.inl rfl
  next msg hmsg =>
    split_ifs with h
    · exact Or.inr ⟨rfl, h.1, h.2.1, msg, hmsg, h.2.2⟩
    · exact Or.inl rfl

theorem gasReserve_le (tx : Transaction) : e.gasReserve ctx tx ≤ ctx.gasLimit.toNat := by
  obtain hzero | ⟨hgas, -, -, msg, hmsg, hpayable⟩ := e.gasReserve_cases ctx tx
  · rw [hzero]
    exact Nat.zero_le _
  · rw [hgas]
    have hlimits := hpayable.limits
    obtain ⟨sender, -, rfl⟩ := Option.map_eq_some_iff.mp hmsg
    simpa [checkLimits] using hlimits

def record (run : BlockRun) (x : Execution) : BlockRun := e.finish ctx txs run x.own (x.tx, x.result)

inductive LogWaves : BlockRun → List (List Transaction) → List Execution → BlockRun → Prop
  | nil (run : BlockRun) : LogWaves run [] [] run
  | limit {run : BlockRun} {waves : List (List Transaction)} (h : run.blockGasUsed > blockGasLimit) :
      LogWaves run waves [] run
  | wave {run run' run'' : BlockRun} {wave : List Transaction} {waves : List (List Transaction)}
      {log : List (Publication Own (Transaction × TxResult) (Fin wave.length))} {log' : List Execution}
      (h : ¬run.blockGasUsed > blockGasLimit)
      (hwave : (e.waveStore ctx txs).Publishes run (e.goroutines ctx wave) log run')
      (hwaves : LogWaves run' waves log' run'') :
      LogWaves run (wave :: waves) (log.map Execution.ofPublication ++ log') run''

def LogBlock (statedb : StateDB) (log : List Execution) (run : BlockRun) : Prop :=
  e.LogWaves ctx txs (startBlock statedb txs) (schedule txs) log run

variable {e ctx txs} {run run' : BlockRun} {waves : List (List Transaction)} {log : List Execution} {s : StateDB}

theorem runWaves_iff_log : e.RunWaves ctx txs run waves run' ↔ ∃ log, e.LogWaves ctx txs run waves log run' := by
  constructor
  · intro h
    induction h with
    | nil run => exact ⟨[], .nil run⟩
    | limit h => exact ⟨[], .limit h⟩
    | wave h hwave _ ih =>
      obtain ⟨log, hlog⟩ := Shared.outcome_iff_publishes.mp hwave
      obtain ⟨log', hlog'⟩ := ih
      exact ⟨_, .wave h hlog hlog'⟩
  · rintro ⟨log, h⟩
    induction h with
    | nil run => exact .nil run
    | limit h => exact .limit h
    | wave h hwave _ ih => exact .wave h (Shared.outcome_iff_publishes.mpr ⟨_, hwave⟩) ih

theorem exists_outcome (e : Executor) (ctx : BlockContext) (txs : List Transaction) (run : BlockRun)
    (wave : List Transaction) : ∃ run', (e.waveStore ctx txs).Outcome run (e.goroutines ctx wave) run' :=
  ⟨_, (e.waveStore ctx txs).outcome_sequential (List.finRange wave.length) (List.nodup_finRange _)
    List.mem_finRange run _⟩

theorem exists_runWaves (e : Executor) (ctx : BlockContext) (txs : List Transaction) (run : BlockRun)
    (waves : List (List Transaction)) : ∃ run', e.RunWaves ctx txs run waves run' := by
  induction waves generalizing run with
  | nil => exact ⟨run, .nil run⟩
  | cons wave waves ih =>
    by_cases h : run.blockGasUsed > blockGasLimit
    · exact ⟨run, .limit h⟩
    · obtain ⟨run', hwave⟩ := exists_outcome e ctx txs run wave
      obtain ⟨run'', hwaves⟩ := ih run'
      exact ⟨run'', .wave h hwave hwaves⟩

theorem published_eq_record {wave : List Transaction} (run : BlockRun)
    (log : List (Publication Own (Transaction × TxResult) (Fin wave.length))) :
    (e.waveStore ctx txs).published run log = (log.map Execution.ofPublication).foldl (e.record ctx txs) run := by
  rw [List.foldl_map]
  rfl

theorem LogWaves.run_eq (h : e.LogWaves ctx txs run waves log run') : run' = log.foldl (e.record ctx txs) run := by
  induction h with
  | nil => rfl
  | limit => rfl
  | wave _ hwave _ ih => rw [ih, List.foldl_append, hwave.shared, published_eq_record]

variable (e ctx) in
/-- What the goroutine of `tx` publishes, if nothing is merged while it runs. -/
def execution (run : BlockRun) (tx : Transaction) : Execution :=
  Execution.ofPublication ((e.waveStore ctx [tx]).publication run (e.goroutines ctx [tx]) (0 : Fin 1))

variable (e ctx txs) in
def logInOrder : BlockRun → List Transaction → List Execution
  | _, [] => []
  | run, tx :: rest =>
    if run.blockGasUsed > blockGasLimit then []
    else e.execution ctx run tx :: logInOrder ((e.waveStore ctx txs).atomic run (e.executeTransaction ctx tx)) rest

variable (e ctx txs) in
theorem logWaves_singletons (run : BlockRun) (rest : List Transaction) :
    e.LogWaves ctx txs run (rest.map fun tx => [tx]) (e.logInOrder ctx txs run rest) (e.runInOrder ctx txs run rest) := by
  induction rest generalizing run with
  | nil => exact .nil run
  | cons tx rest ih =>
    rw [List.map_cons, logInOrder, runInOrder]
    by_cases hl : run.blockGasUsed > blockGasLimit
    · rw [if_pos hl, if_pos hl]
      exact .limit hl
    · rw [if_neg hl, if_neg hl]
      obtain ⟨run', hwave⟩ := Shared.publishes_results (S := e.waveStore ctx txs) (List.nodup_finRange [tx].length)
        List.mem_finRange run (e.goroutines ctx [tx])
      have hrun' : run' = (e.waveStore ctx txs).atomic run (e.executeTransaction ctx tx) := hwave.shared
      subst hrun'
      exact .wave hl hwave (ih _)

theorem goroutine_results {wave : List Transaction}
    {log : List (Publication Own (Transaction × TxResult) (Fin wave.length))}
    (h : (e.waveStore ctx txs).Publishes run (e.goroutines ctx wave) log run') :
    ∀ x ∈ log, x.result.1 = wave.get x.thread ∧ ∀ usedGas failed code,
      x.result.2 = .executed usedGas failed code → usedGas ≤ e.gasReserve ctx (wave.get x.thread) :=
  h.always (A := fun _ _ _ => True)
    (fun i => e.always_executeTransaction_gas ctx (e.waveStore ctx txs).toBuffer (wave.get i) _)
    fun _ _ _ _ _ => trivial

theorem publications_perm {wave : List Transaction}
    {log : List (Publication Own (Transaction × TxResult) (Fin wave.length))}
    (h : (e.waveStore ctx txs).Publishes run (e.goroutines ctx wave) log run') :
    ((log.map Execution.ofPublication).map Execution.tx).Perm wave := by
  have hthreads : (log.map Publication.thread).Perm (List.finRange wave.length) := by
    apply (List.perm_ext_iff_of_nodup h.nodup (List.nodup_finRange _)).mpr
    intro i
    exact ⟨fun _ => List.mem_finRange i, fun _ => h.mem i⟩
  have htxs : (log.map Execution.ofPublication).map Execution.tx = (log.map Publication.thread).map wave.get := by
    rw [List.map_map, List.map_map]
    apply List.map_congr_left
    intro x hx
    exact (goroutine_results h x hx).1
  rw [htxs]
  exact (hthreads.map wave.get).trans (List.Perm.of_eq (List.map_get_finRange wave))

theorem usedGas_publication {wave : List Transaction}
    {log : List (Publication Own (Transaction × TxResult) (Fin wave.length))}
    (h : (e.waveStore ctx txs).Publishes run (e.goroutines ctx wave) log run')
    {p : Publication Own (Transaction × TxResult) (Fin wave.length)} (hp : p ∈ log) :
    (Execution.ofPublication p).usedGas ≤ e.gasReserve ctx (Execution.ofPublication p).tx := by
  obtain ⟨htx, hgas⟩ := goroutine_results h p hp
  change (Execution.ofPublication p).usedGas ≤ e.gasReserve ctx p.result.1
  rw [htx]
  unfold Execution.usedGas
  split
  next hres => exact hgas _ _ _ hres
  · exact Nat.zero_le _

theorem LogWaves.perm (h : e.LogWaves ctx txs run waves log run') :
    ∃ n, (log.map Execution.tx).Perm (waves.take n).flatten := by
  induction h with
  | nil => exact ⟨0, .nil⟩
  | limit => exact ⟨0, .nil⟩
  | wave _ hwave _ ih =>
    obtain ⟨n, hn⟩ := ih
    refine ⟨n + 1, ?_⟩
    rw [List.map_append, List.take_succ_cons, List.flatten_cons]
    exact (publications_perm hwave).append hn

theorem LogWaves.usedGas_le (h : e.LogWaves ctx txs run waves log run') :
    ∀ x ∈ log, x.usedGas ≤ e.gasReserve ctx x.tx := by
  induction h with
  | nil => exact nofun
  | limit => exact nofun
  | wave _ hwave _ ih =>
    intro x hx
    obtain hx | hx := List.mem_append.mp hx
    · obtain ⟨p, hp, rfl⟩ := List.mem_map.mp hx
      exact usedGas_publication hwave hp
    · exact ih x hx

theorem LogWaves.calm (h : e.LogWaves ctx txs run waves log run') (hbase : ctx.baseFee ≠ none)
    (hblobs : ∀ wave ∈ waves, ∀ tx ∈ wave, tx.blobHashes = none) : ∀ x ∈ log, x.result ≠ .panicked := by
  induction h with
  | nil => exact nofun
  | limit => exact nofun
  | @wave _ _ _ wave _ _ _ _ hwave _ ih =>
    obtain ⟨hhead, hblobs⟩ := List.forall_mem_cons.mp hblobs
    intro x hx
    obtain hx | hx := List.mem_append.mp hx
    · obtain ⟨p, hp, rfl⟩ := List.mem_map.mp hx
      exact hwave.always (A := fun _ _ _ => True) (Q := fun _ a _ => a.2 ≠ .panicked)
        (fun i => e.always_executeTransaction_calm ctx (e.waveStore ctx txs).toBuffer hbase
          (hhead _ (wave.get_mem i)) _)
        (fun _ _ _ _ _ => trivial) p hp
    · exact ih hblobs x hx

theorem panicked_foldl (run : BlockRun) {log : List Execution} (h : ∀ x ∈ log, x.result ≠ .panicked) :
    (log.foldl (e.record ctx txs) run).panicked = run.panicked := by
  induction log generalizing run with
  | nil => rfl
  | cons x log ih =>
    obtain ⟨hx, h⟩ := List.forall_mem_cons.mp h
    rw [List.foldl_cons, ih _ h]
    exact e.finish_calm ctx txs run x.own hx

theorem LogBlock.subperm (h : e.LogBlock ctx txs s log run) : (log.map Execution.tx).Subperm txs := by
  obtain ⟨n, hn⟩ := LogWaves.perm h
  have htake : ((schedule txs).take n).flatten.Sublist (schedule txs).flatten :=
    (List.take_sublist n (schedule txs)).flatten
  exact hn.subperm.trans (htake.subperm.trans (flatten_schedule_perm txs).subperm)

theorem LogBlock.mem (h : e.LogBlock ctx txs s log run) : ∀ x ∈ log, x.tx ∈ txs :=
  fun _ hx => h.subperm.subset (List.mem_map_of_mem hx)

theorem LogBlock.alive (h : e.LogBlock ctx txs s log run) (hbase : ctx.baseFee ≠ none)
    (hblobs : ∀ tx ∈ txs, tx.blobHashes = none) : run.panicked = false := by
  have hcalm := LogWaves.calm h hbase fun wave hwave tx htx =>
    hblobs tx ((flatten_schedule_perm txs).subset (List.mem_flatten.mpr ⟨wave, hwave, htx⟩))
  rw [LogWaves.run_eq h, panicked_foldl _ hcalm]
  rfl

theorem runWaves_iff_logBlock : e.RunWaves ctx txs (startBlock s txs) (schedule txs) run ↔
    ∃ log, e.LogBlock ctx txs s log run :=
  runWaves_iff_log

theorem exists_logBlock (e : Executor) (ctx : BlockContext) (txs : List Transaction) (s : StateDB) :
    ∃ log run, e.LogBlock ctx txs s log run := by
  obtain ⟨run, hrun⟩ := exists_runWaves e ctx txs (startBlock s txs) (schedule txs)
  obtain ⟨log, hlog⟩ := runWaves_iff_logBlock.mp hrun
  exact ⟨log, run, hlog⟩

end Executor

end Zephyria
