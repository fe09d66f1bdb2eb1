import Zephyria.Lib.Speculation
import Zephyria.Message
import Zephyria.Scheduler
import Zephyria.SystemContracts

namespace Zephyria

structure Executor where
  keccak : Keccak256
  interpreter : Interpreter
  params : SystemParams
  createAddress : Address → UInt64 → Address
  rootHash : VerkleTree → Hash

inductive TxResult where
  | skipped
  | panicked
  | rejected
  | executed (usedGas : ℕ) (failed : Bool) (code : List (Σ _ : Hash, Bytes))
deriving DecidableEq

structure BlockRun where
  statedb : StateDB
  blockGasUsed : UInt64
  totalFees : ℕ
  receipts : List (Option Receipt)
  panicked : Bool

structure AppliedBlock where
  receipts : List Receipt
  root : Hash
  statedb : StateDB

def maxTxSize : ℕ := 512 * 1024

def blockGasLimit : UInt64 := 60_000_000

def blockReward : ℕ := 10_000_000_000_000_000_000

def effectiveGasPrice (ctx : BlockContext) (tx : Transaction) : ℕ :=
  match ctx.baseFee with
  | none => tx.gasPrice
  | some fee => if fee + tx.gasTipCap < tx.gasPrice then fee + tx.gasTipCap else tx.gasPrice

def txIndex (txs : List Transaction) (hash : Hash) : ℕ :=
  txs.zipIdx.foldl (fun idx t => if t.1.hash = hash then t.2 else idx) 0

def failedReceipt (tx : Transaction) : Receipt := ⟨tx.hash, 0, 0, 0, 0, []⟩

def status (failed : Bool) : UInt64 := if failed then 0 else 1

def finalReceipts (cumulative : UInt64) : List Transaction → List (Option Receipt) → List Receipt
  | tx :: txs, r :: receipts =>
    let r := r.getD (failedReceipt tx)
    let cumulative := cumulative + r.gasUsed
    { r with cumulativeGasUsed := cumulative } :: finalReceipts cumulative txs receipts
  | _, _ => []

namespace Executor

variable (e : Executor) (ctx : BlockContext)

def isSystemTx (toAddr : Option Address) : Bool :=
  toAddr = some e.params.stakingAddr ∨ toAddr = some e.params.rewardAddr ∨
    toAddr = some e.params.validatorAddr

def executeTransaction (tx : Transaction) : StateM (Transaction × TxResult) :=
  if tx.size > maxTxSize then pure (tx, .skipped)
  else
    match transactionToMessage tx ctx.baseFee with
    | none => pure (tx, .skipped)
    | some msg => do
      let res ← applyMessage e.keccak e.interpreter ctx ctx.gasLimit.toNat msg
      match res with
      | .error err => pure (tx, if err.panics then .panicked else .rejected)
      | .ok res => do
        processSystemContracts e.keccak e.params msg tx.data
        pure (tx, .executed (if e.isSystemTx msg.toAddr then 0 else res.usedGas) res.failed res.code)

def finish (txs : List Transaction) (run : BlockRun) (own : Own) : Transaction × TxResult → BlockRun
  | (_, .skipped) => run
  | (_, .panicked) => { run with panicked := true }
  | (tx, .rejected) =>
    { run with receipts := run.receipts.set (txIndex txs tx.hash) (some (failedReceipt tx)) }
  | (tx, .executed usedGas failed code) =>
    let blockGasUsed := run.blockGasUsed + UInt64.ofNat usedGas
    { run with
      statedb := ((StateDB.overlay run.statedb own).addCode code).merge
      blockGasUsed := blockGasUsed
      totalFees := run.totalFees + usedGas * effectiveGasPrice ctx tx
      receipts := run.receipts.set (txIndex txs tx.hash) (some
        { txHash := tx.hash
          status := status failed
          gasUsed := UInt64.ofNat usedGas
          cumulativeGasUsed := blockGasUsed
          contractAddress :=
            if tx.toAddr = none then e.createAddress (tx.sender.getD 0) tx.nonce else 0 }) }

def Commits : Transaction × TxResult → Prop
  | (_, .executed _ _ _) => True
  | _ => False

theorem Commits.ne_panicked {a : Transaction × TxResult} (h : Commits a) : a.2 ≠ .panicked := by
  obtain ⟨tx, res⟩ := a
  rintro rfl
  exact h

theorem not_commits_error (tx : Transaction) (err : MessageError) :
    ¬Commits (tx, if err.panics then .panicked else .rejected) := by
  split <;> exact id

theorem error_ne_executed (err : MessageError) (usedGas : ℕ) (failed : Bool) (code : List (Σ _ : Hash, Bytes)) :
    (if err.panics then TxResult.panicked else .rejected) ≠ .executed usedGas failed code := by
  split <;> exact nofun

theorem getVerkleValue_addCode_merge (parent : StateDB) (own : Own) (code : List (Σ _ : Hash, Bytes))
    (k : Bytes) : (((StateDB.overlay parent own).addCode code).merge).getVerkleValue k =
      (own.dirty.lookup k).getD (parent.getVerkleValue k) :=
  StateDB.getVerkleValue_merge parent _ k

def waveStore (txs : List Transaction) : Shared BlockRun Own Bytes Bytes (Transaction × TxResult) where
  toBuffer := overlayBuffer
  read run := run.statedb.getVerkleValue
  finish := e.finish ctx txs
  commits := Commits
  read_commit run own a k h := by
    obtain ⟨tx, res⟩ := a
    cases res with
    | executed usedGas failed code => exact getVerkleValue_addCode_merge run.statedb own code k
    | _ => exact h.elim
  read_discard run own a k h := by
    obtain ⟨tx, res⟩ := a
    cases res with
    | executed usedGas failed code => exact absurd trivial h
    | _ => rfl

def goroutines (wave : List Transaction) (i : Fin wave.length) : StateM (Transaction × TxResult) :=
  e.executeTransaction ctx (wave.get i)

inductive RunWaves (txs : List Transaction) : BlockRun → List (List Transaction) → BlockRun → Prop
  | nil (run : BlockRun) : RunWaves txs run [] run
  | limit {run : BlockRun} {waves : List (List Transaction)} (h : run.blockGasUsed > blockGasLimit) :
      RunWaves txs run waves run
  | wave {run run' run'' : BlockRun} {wave : List Transaction} {waves : List (List Transaction)}
      (h : ¬run.blockGasUsed > blockGasLimit)
      (hwave : (e.waveStore ctx txs).Outcome run (e.goroutines ctx wave) run')
      (hwaves : RunWaves txs run' waves run'') : RunWaves txs run (wave :: waves) run''

def intermediateRoot : StateDB → Hash
  | .base tree _ => e.rootHash tree
  | .overlay parent _ => intermediateRoot parent

def closeBlock (txs : List Transaction) (run : BlockRun) : AppliedBlock :=
  let reward := blockReward + run.totalFees
  let statedb :=
    (StateDB.exec (addBalance e.keccak ctx.coinbase (BitVec.ofNat 256 reward)) run.statedb).2
  { receipts := finalReceipts 0 txs run.receipts
    root := e.intermediateRoot statedb
    statedb := statedb }

def startBlock (statedb : StateDB) (txs : List Transaction) : BlockRun :=
  ⟨statedb, 0, 0, List.replicate txs.length none, false⟩

/-- No goroutine has panicked, which ends the process, and the reward fits a word. -/
structure Closes (run : BlockRun) : Prop where
  alive : run.panicked = false
  reward : blockReward + run.totalFees < 2 ^ 256

/-- `ApplyBlock` returns `res` under some interleaving. -/
def ApplyBlock (statedb : StateDB) (txs : List Transaction) (res : AppliedBlock) : Prop :=
  ∃ run, e.RunWaves ctx txs (startBlock statedb txs) (schedule txs) run ∧ Closes run ∧
    res = e.closeBlock ctx txs run

section Invariant

variable {I : StateDB → Prop} (hset : ∀ s key value, I s → I (s.setVerkleValue key value))
  (hcode : ∀ s entries, I s → I (s.addCode entries))

include hset hcode

theorem finish_invariant (txs : List Transaction) {run : BlockRun} (own : Own)
    (a : Transaction × TxResult) (h : I run.statedb) : I (e.finish ctx txs run own a).statedb := by
  obtain ⟨tx, res⟩ := a
  cases res with
  | skipped => exact h
  | panicked => exact h
  | rejected => exact h
  | executed usedGas failed code => exact hcode _ _ (StateDB.setAll_invariant hset h own.dirty.entries)

theorem runWaves_invariant {txs : List Transaction} {run run' : BlockRun} {waves : List (List Transaction)}
    (hrun : e.RunWaves ctx txs run waves run') (h : I run.statedb) : I run'.statedb := by
  induction hrun with
  | nil => exact h
  | limit => exact h
  | wave _ hwave _ ih =>
    apply ih
    exact Shared.Outcome.invariant (I := fun run => I run.statedb) _
      (fun run own a => e.finish_invariant ctx hset hcode txs own a) h hwave

theorem applyBlock_invariant {s : StateDB} {txs : List Transaction} {res : AppliedBlock} (h : I s)
    (happly : e.ApplyBlock ctx s txs res) : I res.statedb := by
  obtain ⟨run, hrun, -, rfl⟩ := happly
  exact StateDB.exec_invariant hset _ (e.runWaves_invariant ctx hset hcode hrun h)

end Invariant

theorem applyBlock_nil (s : StateDB) (res : AppliedBlock) :
    e.ApplyBlock ctx s [] res ↔ res = e.closeBlock ctx [] (startBlock s []) := by
  have hschedule : schedule [] = [] := by rw [schedule, scheduleQueue]
  unfold ApplyBlock
  rw [hschedule]
  constructor
  · rintro ⟨run, hrun, -, rfl⟩
    cases hrun <;> rfl
  · rintro rfl
    exact ⟨_, .nil _, ⟨rfl, show blockReward + 0 < 2 ^ 256 by decide⟩, rfl⟩

end Executor

def Executor.ideal : Executor where
  keccak := .ideal
  interpreter :=
    { precompile := fun _ _ gas => (gas, false)
      run := fun _ _ gas => pure ⟨gas, false, []⟩
      create := fun _ _ gas => pure ⟨gas, false, []⟩ }
  params := systemParams
  createAddress _ _ := 0
  rootHash _ := 0

end Zephyria
