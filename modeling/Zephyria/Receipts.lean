import Zephyria.BlockLog
import Zephyria.Node

namespace Zephyria

theorem txIndex_append_singleton (txs : List Transaction) (tx : Transaction) (hash : Hash) :
    txIndex (txs ++ [tx]) hash = if tx.hash = hash then txs.length else txIndex txs hash := by
  simp [txIndex, List.zipIdx_append]

theorem txIndex_spec {txs : List Transaction} {hash : Hash} (h : hash ∈ txs.map Transaction.hash) :
    (txs.map Transaction.hash)[txIndex txs hash]? = some hash := by
  induction txs using List.reverseRecOn with
  | nil => cases h
  | append_singleton txs tx ih =>
    rw [txIndex_append_singleton]
    split
    next heq => simp [heq]
    next hne =>
      have hmem : hash ∈ txs.map Transaction.hash := by
        rw [List.map_append] at h
        obtain h | h := List.mem_append.mp h
        · exact h
        · exact absurd (List.mem_singleton.mp h).symm hne
      rw [List.map_append, List.getElem?_append_left]
      · exact ih hmem
      · exact (List.getElem?_eq_some_iff.mp (ih hmem)).1

theorem txIndex_lt {txs : List Transaction} {tx : Transaction} (h : tx ∈ txs) : txIndex txs tx.hash < txs.length := by
  have hspec := txIndex_spec (List.mem_map_of_mem (f := Transaction.hash) h)
  simpa using (List.getElem?_eq_some_iff.mp hspec).1

theorem txIndex_inj {txs : List Transaction} {t u : Transaction} (ht : t ∈ txs) (hu : u ∈ txs) :
    txIndex txs t.hash = txIndex txs u.hash ↔ t.hash = u.hash := by
  refine ⟨fun h => ?_, fun h => by rw [h]⟩
  have hspec := txIndex_spec (List.mem_map_of_mem (f := Transaction.hash) ht)
  rw [h, txIndex_spec (List.mem_map_of_mem (f := Transaction.hash) hu)] at hspec
  exact (Option.some.inj hspec).symm

structure Report where
  txHash : Hash
  status : UInt64
  gasUsed : UInt64
deriving DecidableEq

def Receipt.report (r : Receipt) : Report := ⟨r.txHash, r.status, r.gasUsed⟩

def failedReport (tx : Transaction) : Report := (failedReceipt tx).report

def Execution.report (x : Execution) : Option Report :=
  match x.result with
  | .skipped => none
  | .panicked => none
  | .rejected => some (failedReport x.tx)
  | .executed usedGas failed _ => some ⟨x.tx.hash, status failed, UInt64.ofNat usedGas⟩

section FinalReceipts

variable (cumulative : UInt64) (txs : List Transaction) (receipts : List (Option Receipt))

theorem report_finalReceipts : (finalReceipts cumulative txs receipts).map Receipt.report =
    List.zipWith (fun tx r => r.getD (failedReport tx)) txs (receipts.map (Option.map Receipt.report)) := by
  induction txs generalizing cumulative receipts with
  | nil => rfl
  | cons tx txs ih =>
    cases receipts with
    | nil => rfl
    | cons r receipts =>
      rw [finalReceipts, List.map_cons, List.map_cons, List.zipWith_cons_cons, ih]
      cases r <;> rfl

theorem cumulative_finalReceipts {i : ℕ} {r : Receipt} (h : (finalReceipts cumulative txs receipts)[i]? = some r) :
    r.cumulativeGasUsed =
      cumulative + (((finalReceipts cumulative txs receipts).take (i + 1)).map Receipt.gasUsed).sum := by
  induction txs generalizing cumulative receipts i with
  | nil => cases h
  | cons tx txs ih =>
    cases receipts with
    | nil => cases h
    | cons slot receipts =>
      rw [finalReceipts] at h ⊢
      rw [List.take_succ_cons, List.map_cons, List.sum_cons, ← UInt64.add_assoc]
      cases i with
      | zero =>
        obtain rfl := Option.some.inj h
        simp
      | succ i => exact ih _ _ h

end FinalReceipts

structure ReceiptsAligned (txs : List Transaction) (receipts : List Receipt) : Prop where
  length : receipts.length = txs.length
  hashes : receipts.map Receipt.txHash = txs.map Transaction.hash
  cumulative : ∀ i r, receipts[i]? = some r →
    r.cumulativeGasUsed = ((receipts.take (i + 1)).map Receipt.gasUsed).sum
  total : getGasUsed receipts = (receipts.map Receipt.gasUsed).sum

theorem getGasUsed_eq_sum {receipts : List Receipt} (h : ∀ i r, receipts[i]? = some r →
      r.cumulativeGasUsed = ((receipts.take (i + 1)).map Receipt.gasUsed).sum) :
    getGasUsed receipts = (receipts.map Receipt.gasUsed).sum := by
  induction receipts using List.reverseRecOn with
  | nil => rfl
  | append_singleton receipts r _ =>
    have hlast := h receipts.length r (by simp)
    rw [getGasUsed, List.getLast?_concat]
    simpa using hlast

namespace Executor

variable {e : Executor} {ctx : BlockContext} {txs : List Transaction} {s : StateDB} {run : BlockRun}
  {log : List Execution}

def reports (run : BlockRun) : List (Option Report) := run.receipts.map (Option.map Receipt.report)

def place (txs : List Transaction) (slots : List (Option Report)) (x : Execution) : List (Option Report) :=
  match x.report with
  | none => slots
  | some report => slots.set (txIndex txs x.tx.hash) (some report)

theorem reports_record (run : BlockRun) (x : Execution) :
    reports (e.record ctx txs run x) = place txs (reports run) x := by
  obtain ⟨own, tx, res⟩ := x
  cases res with
  | skipped => rfl
  | panicked => rfl
  | rejected => exact List.map_set
  | executed usedGas failed code => exact List.map_set

theorem reports_foldl (run : BlockRun) (log : List Execution) :
    reports (log.foldl (e.record ctx txs) run) = log.foldl (place txs) (reports run) := by
  induction log generalizing run with
  | nil => rfl
  | cons x log ih => rw [List.foldl_cons, List.foldl_cons, ih, reports_record]

variable (txs) in
def slots (log : List Execution) : List (Option Report) :=
  log.foldl (place txs) (List.replicate txs.length none)

theorem LogBlock.reports (h : e.LogBlock ctx txs s log run) : Executor.reports run = slots txs log := by
  rw [LogWaves.run_eq h, reports_foldl, slots]
  simp [startBlock, Executor.reports]

theorem slots_append_singleton (log : List Execution) (x : Execution) :
    slots txs (log ++ [x]) = place txs (slots txs log) x := by
  rw [slots, List.foldl_append]
  rfl

theorem slots_length (log : List Execution) : (slots txs log).length = txs.length := by
  induction log using List.reverseRecOn with
  | nil => simp [slots]
  | append_singleton log x ih =>
    rw [slots_append_singleton, place]
    split
    · exact ih
    · rw [List.length_set, ih]

def lastReport (log : List Execution) (hash : Hash) : Option Report :=
  lastSet (fun x => if x.tx.hash = hash then x.report else none) log

theorem lastReport_append_singleton (log : List Execution) (x : Execution) (hash : Hash) :
    lastReport (log ++ [x]) hash = (if x.tx.hash = hash then x.report else none).or (lastReport log hash) :=
  lastSet_append_singleton _ log x

theorem slots_txIndex (hlog : ∀ x ∈ log, x.tx ∈ txs) {tx : Transaction} (htx : tx ∈ txs) :
    (slots txs log)[txIndex txs tx.hash]? = some (lastReport log tx.hash) := by
  induction log using List.reverseRecOn with
  | nil => simp [slots, lastReport, lastSet, txIndex_lt htx]
  | append_singleton log x ih =>
    have hx : x.tx ∈ txs := hlog x (by simp)
    have ih := ih fun y hy => hlog y (List.mem_append_left _ hy)
    rw [slots_append_singleton, lastReport_append_singleton, place]
    cases hr : x.report with
    | none => simpa using ih
    | some report =>
      dsimp only
      rw [List.getElem?_set]
      simp only [txIndex_inj hx htx]
      split
      · rw [if_pos (by rw [slots_length]; exact txIndex_lt hx)]
        rfl
      · exact ih

theorem slots_txHash (hlog : ∀ x ∈ log, x.tx ∈ txs) {i : ℕ} {report : Report}
    (h : (slots txs log)[i]? = some (some report)) : (txs.map Transaction.hash)[i]? = some report.txHash := by
  induction log using List.reverseRecOn with
  | nil => simp [slots, List.getElem?_replicate] at h
  | append_singleton log x ih =>
    have ih := ih fun y hy => hlog y (List.mem_append_left _ hy)
    rw [slots_append_singleton, place] at h
    cases hr : x.report with
    | none =>
      rw [hr] at h
      exact ih h
    | some own =>
      rw [hr] at h
      dsimp only at h
      rw [List.getElem?_set] at h
      split at h
      next hi =>
        split at h
        · obtain rfl := Option.some.inj (Option.some.inj h)
          have hhash : own.txHash = x.tx.hash := by
            unfold Execution.report at hr
            split at hr <;> cases hr <;> rfl
          rw [← hi, hhash]
          exact txIndex_spec (List.mem_map_of_mem (hlog x (by simp)))
        · cases h
      · exact ih h

theorem LogBlock.closeBlock_reports (h : e.LogBlock ctx txs s log run) :
    (e.closeBlock ctx txs run).receipts.map Receipt.report =
      List.zipWith (fun tx r => r.getD (failedReport tx)) txs (slots txs log) := by
  rw [← h.reports]
  exact report_finalReceipts 0 txs run.receipts

theorem LogBlock.hashes (h : e.LogBlock ctx txs s log run) :
    (e.closeBlock ctx txs run).receipts.map Receipt.txHash = txs.map Transaction.hash := by
  have hreports := congrArg (List.map Report.txHash) h.closeBlock_reports
  rw [List.map_map] at hreports
  refine hreports.trans (List.ext_getElem? fun i => ?_)
  rw [List.getElem?_map, List.getElem?_zipWith, List.getElem?_map]
  have hlength : (slots txs log).length = txs.length := slots_length log
  cases htx : txs[i]? with
  | none => rfl
  | some tx =>
    have hi : i < (slots txs log).length := by
      rw [hlength]
      exact (List.getElem?_eq_some_iff.mp htx).1
    cases hslot : (slots txs log)[i]? with
    | none => exact absurd (List.getElem?_eq_none_iff.mp hslot) (Nat.not_le.mpr hi)
    | some slot =>
      cases slot with
      | none => rfl
      | some report =>
        have hhash := slots_txHash h.mem hslot
        rw [List.getElem?_map, htx] at hhash
        exact hhash.symm

theorem LogBlock.aligned (h : e.LogBlock ctx txs s log run) :
    ReceiptsAligned txs (e.closeBlock ctx txs run).receipts := by
  have hcumulative (i : ℕ) (r : Receipt) (hr : (e.closeBlock ctx txs run).receipts[i]? = some r) :
      r.cumulativeGasUsed = (((e.closeBlock ctx txs run).receipts.take (i + 1)).map Receipt.gasUsed).sum := by
    have hsum := cumulative_finalReceipts 0 txs run.receipts hr
    rw [UInt64.zero_add] at hsum
    exact hsum
  refine ⟨?_, h.hashes, hcumulative, getGasUsed_eq_sum hcumulative⟩
  have hlength := congrArg List.length h.hashes
  rwa [List.length_map, List.length_map] at hlength

def gasOf (slot : Option Report) : ℕ := (slot.map fun report => report.gasUsed.toNat).getD 0

theorem gasOf_report {x : Execution} (h : x.usedGas < 2 ^ 64) : gasOf x.report = x.usedGas := by
  obtain ⟨own, tx, res⟩ := x
  cases res with
  | skipped => rfl
  | panicked => rfl
  | rejected => rfl
  | executed usedGas failed code => exact Nat.mod_eq_of_lt h

theorem gas_filled {slots : List (Option Report)} (h : slots.length = txs.length) :
    (List.zipWith (fun tx r => r.getD (failedReport tx)) txs slots).map (fun report => report.gasUsed.toNat) =
      slots.map gasOf := by
  induction txs generalizing slots with
  | nil => rw [List.length_eq_zero_iff.mp h]; rfl
  | cons tx txs ih =>
    cases slots with
    | nil => rfl
    | cons slot slots =>
      rw [List.zipWith_cons_cons, List.map_cons, List.map_cons, ih (Nat.succ.inj h)]
      cases slot <;> rfl

theorem LogBlock.receipts_gas (h : e.LogBlock ctx txs s log run) :
    (e.closeBlock ctx txs run).receipts.map (fun r => r.gasUsed.toNat) = (slots txs log).map gasOf := by
  have hreports := congrArg (List.map fun report => report.gasUsed.toNat) h.closeBlock_reports
  rw [List.map_map, gas_filled (slots_length log)] at hreports
  exact hreports

theorem LogBlock.usedGas_lt (h : e.LogBlock ctx txs s log run) : ∀ x ∈ log, x.usedGas < 2 ^ 64 := by
  intro x hx
  have hused := LogWaves.usedGas_le h x hx
  have hreserve := e.gasReserve_le ctx x.tx
  have hlimit := ctx.gasLimit.toNat_lt
  omega

/-- No gas is forgotten: an execution that is reported and then reported again used none. -/
def GasKept (log : List Execution) : Prop :=
  log.Pairwise fun y x => y.tx.hash = x.tx.hash → x.report.isSome → y.usedGas = 0

theorem gasKept_append_singleton {x : Execution} : GasKept (log ++ [x]) ↔
    GasKept log ∧ ∀ y ∈ log, y.tx.hash = x.tx.hash → x.report.isSome → y.usedGas = 0 := by
  rw [GasKept, List.pairwise_append]
  simp [GasKept]

def gasFor (log : List Execution) (hash : Hash) : ℕ :=
  ((log.filter fun x => x.tx.hash = hash).map Execution.usedGas).sum

theorem gasFor_append_singleton (log : List Execution) (x : Execution) (hash : Hash) :
    gasFor (log ++ [x]) hash = gasFor log hash + if x.tx.hash = hash then x.usedGas else 0 := by
  unfold gasFor
  rw [List.filter_append, List.map_append, List.sum_append]
  split_ifs with h <;> simp [h]

theorem gasFor_eq_zero_iff {hash : Hash} :
    gasFor log hash = 0 ↔ ∀ y ∈ log, y.tx.hash = hash → y.usedGas = 0 := by
  simp only [gasFor, List.sum_eq_zero_iff, List.forall_mem_map, List.mem_filter, decide_eq_true_eq, and_imp]

theorem gasOf_lastReport (hgas : ∀ x ∈ log, x.usedGas < 2 ^ 64) (hkept : GasKept log) (hash : Hash) :
    gasOf (lastReport log hash) = gasFor log hash := by
  induction log using List.reverseRecOn with
  | nil => rfl
  | append_singleton log x ih =>
    obtain ⟨hlog, hx⟩ := gasKept_append_singleton.mp hkept
    have ih := ih (fun y hy => hgas y (List.mem_append_left _ hy)) hlog
    have hreport := gasOf_report (hgas x (by simp))
    rw [lastReport_append_singleton, gasFor_append_singleton]
    split
    next hhash =>
      subst hhash
      cases hr : x.report with
      | none =>
        rw [hr] at hreport
        rw [← hreport]
        exact ih
      | some report =>
        have hzero : gasFor log x.tx.hash = 0 :=
          gasFor_eq_zero_iff.mpr fun y hy hsame => hx y hy hsame (by rw [hr]; rfl)
        rw [hr] at hreport
        rw [hzero, Nat.zero_add, ← hreport]
        rfl
    · exact ih

theorem sum_set_add (gas : List ℕ) {i g : ℕ} (h : gas[i]? = some g) (a : ℕ) :
    (gas.set i a).sum + g = gas.sum + a := by
  induction gas generalizing i with
  | nil => cases h
  | cons b gas ih =>
    cases i with
    | zero =>
      obtain rfl := Option.some.inj h
      simp only [List.set_cons_zero, List.sum_cons]
      omega
    | succ i =>
      have hrest := ih h
      simp only [List.set_cons_succ, List.sum_cons]
      omega

theorem sum_slots (hlog : ∀ x ∈ log, x.tx ∈ txs) (hgas : ∀ x ∈ log, x.usedGas < 2 ^ 64) :
    ((slots txs log).map gasOf).sum ≤ (log.map Execution.usedGas).sum ∧
      (((slots txs log).map gasOf).sum = (log.map Execution.usedGas).sum ↔ GasKept log) := by
  induction log using List.reverseRecOn with
  | nil => simp [slots, GasKept, gasOf]
  | append_singleton log x ih =>
    have hlog' (y : Execution) (hy : y ∈ log) : y.tx ∈ txs := hlog y (List.mem_append_left _ hy)
    have hgas' (y : Execution) (hy : y ∈ log) : y.usedGas < 2 ^ 64 := hgas y (List.mem_append_left _ hy)
    obtain ⟨hle, hiff⟩ := ih hlog' hgas'
    have hreport := gasOf_report (hgas x (by simp))
    rw [slots_append_singleton, gasKept_append_singleton, place, List.map_append, List.sum_append]
    cases hr : x.report with
    | none =>
      have hzero : x.usedGas = 0 := by rw [← hreport, hr]; rfl
      simp [hzero, hiff, hle]
    | some report =>
      rw [hr] at hreport
      have hslot : ((slots txs log).map gasOf)[txIndex txs x.tx.hash]? = some (gasOf (lastReport log x.tx.hash)) := by
        rw [List.getElem?_map, slots_txIndex hlog' (hlog x (by simp))]
        rfl
      have hset := sum_set_add _ hslot x.usedGas
      rw [← hreport, ← List.map_set] at hset
      simp only [List.map_cons, List.map_nil, List.sum_cons, List.sum_nil, Option.isSome_some, forall_const]
      rw [← gasFor_eq_zero_iff, ← hreport]
      refine ⟨by omega, ?_⟩
      constructor
      · intro hsum
        have hkept : GasKept log := hiff.mp (by omega)
        rw [← gasOf_lastReport hgas' hkept]
        exact ⟨hkept, by omega⟩
      · rintro ⟨hkept, hzero⟩
        rw [← gasOf_lastReport hgas' hkept] at hzero
        have heq := hiff.mpr hkept
        omega

theorem blockGasUsed_foldl (run : BlockRun) (log : List Execution) :
    (log.foldl (e.record ctx txs) run).blockGasUsed =
      run.blockGasUsed + UInt64.ofNat (log.map Execution.usedGas).sum := by
  induction log generalizing run with
  | nil => exact (UInt64.add_zero _).symm
  | cons x log ih =>
    have hrecord : (e.record ctx txs run x).blockGasUsed = run.blockGasUsed + UInt64.ofNat x.usedGas := by
      obtain ⟨own, tx, res⟩ := x
      cases res with
      | executed usedGas failed code => rfl
      | _ => exact (UInt64.add_zero _).symm
    rw [List.foldl_cons, ih, hrecord, List.map_cons, List.sum_cons, UInt64.ofNat_add, UInt64.add_assoc]

theorem totalFees_foldl (run : BlockRun) (log : List Execution) :
    (log.foldl (e.record ctx txs) run).totalFees =
      run.totalFees + (log.map fun x => x.usedGas * effectiveGasPrice ctx x.tx).sum := by
  induction log generalizing run with
  | nil => rfl
  | cons x log ih =>
    have hrecord : (e.record ctx txs run x).totalFees =
        run.totalFees + x.usedGas * effectiveGasPrice ctx x.tx := by
      obtain ⟨own, tx, res⟩ := x
      cases res with
      | executed usedGas failed code => rfl
      | _ => exact (Nat.zero_mul _).symm ▸ rfl
    rw [List.foldl_cons, ih, hrecord, List.map_cons, List.sum_cons, Nat.add_assoc]

theorem LogBlock.blockGasUsed (h : e.LogBlock ctx txs s log run) :
    run.blockGasUsed = UInt64.ofNat (log.map Execution.usedGas).sum := by
  rw [LogWaves.run_eq h, blockGasUsed_foldl]
  exact UInt64.zero_add _

theorem LogBlock.totalFees (h : e.LogBlock ctx txs s log run) :
    run.totalFees = (log.map fun x => x.usedGas * effectiveGasPrice ctx x.tx).sum := by
  rw [LogWaves.run_eq h, totalFees_foldl]
  exact Nat.zero_add _

theorem LogBlock.gas_le (h : e.LogBlock ctx txs s log run) :
    (log.map Execution.usedGas).sum ≤ txs.length * ctx.gasLimit.toNat := by
  have hlength : log.length ≤ txs.length := by simpa using h.subperm.length_le
  have hsum : (log.map Execution.usedGas).sum ≤ log.length * ctx.gasLimit.toNat := by
    have hall : ∀ g ∈ log.map Execution.usedGas, g ≤ ctx.gasLimit.toNat := by
      intro g hg
      obtain ⟨x, hx, rfl⟩ := List.mem_map.mp hg
      exact (LogWaves.usedGas_le h x hx).trans (e.gasReserve_le ctx x.tx)
    simpa using List.sum_le_card_nsmul _ _ hall
  exact hsum.trans (Nat.mul_le_mul_right _ hlength)

theorem gasReserve_le_gas (e : Executor) (ctx : BlockContext) (tx : Transaction) :
    e.gasReserve ctx tx ≤ tx.gas.toNat := by
  obtain hzero | ⟨hgas, -⟩ := e.gasReserve_cases ctx tx
  · omega
  · omega

theorem LogBlock.totalFees_le (h : e.LogBlock ctx txs s log run) :
    run.totalFees ≤ (txs.map fun tx => tx.gas.toNat * effectiveGasPrice ctx tx).sum := by
  have hused : (log.map fun x => x.usedGas * effectiveGasPrice ctx x.tx).sum ≤
      ((log.map Execution.tx).map fun tx => tx.gas.toNat * effectiveGasPrice ctx tx).sum := by
    rw [List.map_map]
    apply List.sum_le_sum
    intro x hx
    exact Nat.mul_le_mul_right _ ((LogWaves.usedGas_le h x hx).trans (gasReserve_le_gas e ctx x.tx))
  obtain ⟨rest, hperm, hsublist⟩ := h.subperm
  rw [h.totalFees]
  apply hused.trans
  rw [← (hperm.map _).sum_eq]
  exact (hsublist.map _).sum_le_sum fun _ _ => Nat.zero_le _

variable (e ctx txs) in
/-- Some interleaving lets a goroutine read the maps of the shared state, which it does without a lock,
while another one merges into them. The runtime may end the process there. -/
inductive Races : BlockRun → List (List Transaction) → Prop
  | wave {run : BlockRun} {wave : List Transaction} {waves : List (List Transaction)}
      {c : Config BlockRun Own Bytes Bytes (Transaction × TxResult) (Fin wave.length)}
      (h : ¬run.blockGasUsed > blockGasLimit)
      (hreach : Relation.ReflTransGen (e.waveStore ctx txs).Step
        ((e.waveStore ctx txs).start run (e.goroutines ctx wave)) c)
      (hrace : (e.waveStore ctx txs).Racing c) : Races run (wave :: waves)
  | later {run run' : BlockRun} {wave : List Transaction} {waves : List (List Transaction)}
      (h : ¬run.blockGasUsed > blockGasLimit)
      (hwave : (e.waveStore ctx txs).Outcome run (e.goroutines ctx wave) run') (hwaves : Races run' waves) :
      Races run (wave :: waves)

theorem not_races {waves : List (List Transaction)} (hwaves : ∀ wave ∈ waves, wave.length ≤ 1) (run : BlockRun) :
    ¬e.Races ctx txs run waves := by
  intro h
  induction h with
  | @wave _ wave _ c _ _ hrace =>
    have hsingle : Subsingleton (Fin wave.length) := Fin.subsingleton_iff_le_one.mpr (hwaves wave List.mem_cons_self)
    exact (e.waveStore ctx txs).not_racing c hrace
  | later _ _ _ ih => exact ih fun wave hwave => hwaves wave (List.mem_cons_of_mem _ hwave)

variable (e ctx txs) in
structure Returns (s : StateDB) : Prop where
  result : ∃ res, e.ApplyBlock ctx s txs res
  closes : ∀ run, e.RunWaves ctx txs (startBlock s txs) (schedule txs) run → Closes run
  raceFree : ¬e.Races ctx txs (startBlock s txs) (schedule txs)

variable (ctx txs) in
/-- Nothing in the block ends the process: the header has a base fee and no transaction asks for a blob
fee, the reward fits a word, and no two goroutines run at a time. -/
structure Harmless : Prop where
  baseFee : ctx.baseFee ≠ none
  blobs : ∀ tx ∈ txs, tx.blobHashes = none
  reward : blockReward + (txs.map fun tx => tx.gas.toNat * effectiveGasPrice ctx tx).sum < 2 ^ 256
  waves : ∀ wave ∈ schedule txs, wave.length ≤ 1

theorem Harmless.returns (h : Harmless ctx txs) (e : Executor) (s : StateDB) : e.Returns ctx txs s := by
  have hcloses (run : BlockRun) (hrun : e.RunWaves ctx txs (startBlock s txs) (schedule txs) run) : Closes run := by
    obtain ⟨log, hlog⟩ := runWaves_iff_logBlock.mp hrun
    have hfees := hlog.totalFees_le
    have hreward := h.reward
    exact ⟨hlog.alive h.baseFee h.blobs, by omega⟩
  obtain ⟨run, hrun⟩ := exists_runWaves e ctx txs (startBlock s txs) (schedule txs)
  exact ⟨⟨_, run, hrun, hcloses run hrun, rfl⟩, hcloses, not_races h.waves _⟩

theorem lastReport_isSome {x : Execution} (hx : x ∈ log) (hr : x.report.isSome) :
    (lastReport log x.tx.hash).isSome := by
  rw [lastReport, lastSet, List.findSome?_isSome_iff]
  exact ⟨x, List.mem_reverse.mpr hx, by rwa [if_pos rfl]⟩

theorem LogBlock.receipt_at (h : e.LogBlock ctx txs s log run) {tx : Transaction} (htx : tx ∈ txs)
    {report : Report} (hlast : lastReport log tx.hash = some report) :
    ∃ r, (e.closeBlock ctx txs run).receipts[txIndex txs tx.hash]? = some r ∧ r.report = report := by
  have hi : txIndex txs tx.hash < txs.length := txIndex_lt htx
  have hat := congrArg (fun reports : List Report => reports[txIndex txs tx.hash]?) h.closeBlock_reports
  simp only [List.getElem?_map, List.getElem?_zipWith, slots_txIndex h.mem htx, hlast,
    List.getElem?_eq_getElem hi, Option.getD_some] at hat
  exact Option.map_eq_some_iff.mp hat

end Executor

namespace Execution

theorem Merged.report_isSome {x : Execution} (h : x.Merged) : x.report.isSome := by
  obtain ⟨own, tx, res⟩ := x
  cases res with
  | executed usedGas failed code => rfl
  | _ => exact h.elim

end Execution

namespace Executor

variable {e : Executor} {ctx : BlockContext} {txs : List Transaction} {s : StateDB} {run : BlockRun}
  {log : List Execution}

variable (e ctx txs) in
structure ReceiptsTruthful (log : List Execution) (run : BlockRun) : Prop where
  reported : ∀ x ∈ log, x.Merged → ∃ r,
    (e.closeBlock ctx txs run).receipts[txIndex txs x.tx.hash]? = some r ∧ x.report = some r.report
  gas : ((e.closeBlock ctx txs run).receipts.map fun r => r.gasUsed.toNat).sum = (log.map Execution.usedGas).sum
  counted : run.blockGasUsed = UInt64.ofNat (log.map Execution.usedGas).sum
  charged : run.totalFees = (log.map fun x => x.usedGas * effectiveGasPrice ctx x.tx).sum

structure Unrepeated (log : List Execution) : Prop where
  gas : GasKept log
  report : ∀ x ∈ log, x.Merged → lastReport log x.tx.hash = x.report

theorem LogBlock.truthful_iff (h : e.LogBlock ctx txs s log run) :
    ReceiptsTruthful e ctx txs log run ↔ Unrepeated log := by
  have hgas := (sum_slots h.mem h.usedGas_lt).2
  rw [← h.receipts_gas] at hgas
  constructor
  · intro ht
    refine ⟨hgas.mp ht.gas, fun x hx hmerged => ?_⟩
    obtain ⟨r, hr, hreport⟩ := ht.reported x hx hmerged
    obtain ⟨report, hlast⟩ := Option.isSome_iff_exists.mp (lastReport_isSome hx hmerged.report_isSome)
    obtain ⟨r', hr', rfl⟩ := h.receipt_at (h.mem x hx) hlast
    obtain rfl := Option.some.inj (hr.symm.trans hr')
    rw [hlast, hreport]
  · intro hu
    refine ⟨fun x hx hmerged => ?_, hgas.mpr hu.gas, h.blockGasUsed, h.totalFees⟩
    obtain ⟨report, hreport⟩ := Option.isSome_iff_exists.mp hmerged.report_isSome
    obtain ⟨r, hr, rfl⟩ := h.receipt_at (h.mem x hx) ((hu.report x hx hmerged).trans hreport)
    exact ⟨r, hr, hreport⟩

theorem lastReport_of_nodup (h : (log.map fun x => x.tx.hash).Nodup) {x : Execution} (hx : x ∈ log)
    (hr : x.report.isSome) : lastReport log x.tx.hash = x.report := by
  induction log using List.reverseRecOn with
  | nil => cases hx
  | append_singleton log y ih =>
    rw [List.map_append, List.nodup_append'] at h
    obtain ⟨hlog, -, hdisjoint⟩ := h
    rw [lastReport_append_singleton]
    obtain hx | hx := List.mem_append.mp hx
    · have hne : ¬y.tx.hash = x.tx.hash := by
        intro heq
        exact hdisjoint (List.mem_map_of_mem hx) (by simp [heq])
      rw [if_neg hne]
      exact ih hlog hx
    · obtain rfl := List.mem_singleton.mp hx
      rw [if_pos rfl, Option.or_of_isSome hr]

theorem unrepeated_of_nodup (h : (log.map fun x => x.tx.hash).Nodup) : Unrepeated log where
  gas := by
    rw [List.Nodup, List.pairwise_map] at h
    exact h.imp fun hne heq => absurd heq hne
  report _ hx hmerged := lastReport_of_nodup h hx hmerged.report_isSome

theorem receipts_truthful_iff (e : Executor) (ctx : BlockContext) (s : StateDB) (txs : List Transaction) :
    ((txs.map Transaction.hash).Nodup → ∀ log run, e.LogBlock ctx txs s log run →
        ReceiptsTruthful e ctx txs log run) ∧
      ∀ log run, e.LogBlock ctx txs s log run → (ReceiptsTruthful e ctx txs log run ↔ Unrepeated log) := by
  refine ⟨fun hnodup log run h => ?_, fun log run h => h.truthful_iff⟩
  apply h.truthful_iff.mpr
  apply unrepeated_of_nodup
  obtain ⟨executed, hperm, hsub⟩ := h.subperm
  have hmap := hperm.map Transaction.hash
  rw [List.map_map] at hmap
  exact hmap.nodup_iff.mp (hnodup.sublist (hsub.map _))

end Executor

section Sample

def gweiContext : BlockContext := { sampleContext with baseFee := some initialBaseFee }

def gweiPayment : Transaction := payment (initialBaseFee - 1) 0xa1 0xb1

def gweiSpender : StateDB := granted .ideal [(0xa1, 1000000000000000)]

def repeated : List Transaction := [gweiPayment, gweiPayment]

theorem schedule_repeated : schedule repeated = repeated.map fun tx => [tx] := by
  rw [schedule_eq_rounds, repeated, FirstFit.rounds_of_ne_nil Conflict (by simp)]
  simp [FirstFit.select, Conflict, Transaction.addresses, FirstFit.rounds_of_ne_nil Conflict, FirstFit.rounds_nil]

theorem logBlock_repeated {log : List Execution} {run : BlockRun}
    (h : Executor.ideal.LogBlock gweiContext repeated gweiSpender log run) :
    run = Executor.ideal.runInOrder gweiContext repeated (Executor.startBlock gweiSpender repeated) repeated := by
  have hrun := Executor.runWaves_iff_logBlock.mpr ⟨log, h⟩
  rw [schedule_repeated] at hrun
  exact (Executor.ideal.runWaves_singletons gweiContext repeated repeated _ _).mp hrun

theorem harmless_of_singletons {ctx : BlockContext} {txs : List Transaction}
    (hschedule : schedule txs = txs.map fun tx => [tx]) (hbase : ctx.baseFee ≠ none)
    (hblobs : ∀ tx ∈ txs, tx.blobHashes = none)
    (hreward : blockReward + (txs.map fun tx => tx.gas.toNat * effectiveGasPrice ctx tx).sum < 2 ^ 256) :
    Executor.Harmless ctx txs := by
  refine ⟨hbase, hblobs, hreward, fun wave hwave => ?_⟩
  rw [hschedule] at hwave
  obtain ⟨tx, -, rfl⟩ := List.mem_map.mp hwave
  exact le_rfl

def gweiPayments : List Transaction := [gweiPayment, payment (initialBaseFee - 1) 0xa2 0xb1]

def gweiSpenders : StateDB := granted .ideal [(0xa1, 1000000000000000), (0xa2, 1000000000000000)]

theorem schedule_gweiPayments : schedule gweiPayments = gweiPayments.map fun tx => [tx] := by
  rw [schedule_eq_rounds, gweiPayments, FirstFit.rounds_of_ne_nil Conflict (by simp)]
  simp [FirstFit.select, Conflict, Transaction.addresses, FirstFit.rounds_of_ne_nil Conflict, FirstFit.rounds_nil,
    gweiPayment, payment]

theorem harmless_gweiPayments : Executor.Harmless gweiContext gweiPayments :=
  harmless_of_singletons schedule_gweiPayments (by decide) (by decide) (by decide)

theorem payments_truthful : ∃ log run,
    Executor.ideal.LogBlock gweiContext gweiPayments gweiSpenders log run ∧
      Executor.ReceiptsTruthful .ideal gweiContext gweiPayments log run := by
  obtain ⟨log, run, hlog⟩ := Executor.exists_logBlock .ideal gweiContext gweiPayments gweiSpenders
  obtain ⟨htruthful, -⟩ := Executor.receipts_truthful_iff .ideal gweiContext gweiSpenders gweiPayments
  exact ⟨log, run, hlog, htruthful (by decide) log run hlog⟩

theorem repeated_receipt_overwritten : (∃ log run, Executor.ideal.LogBlock gweiContext repeated gweiSpender log run) ∧
    ∀ log run, Executor.ideal.LogBlock gweiContext repeated gweiSpender log run →
      run.blockGasUsed = 21000 ∧ ¬Executor.ReceiptsTruthful .ideal gweiContext repeated log run := by
  refine ⟨Executor.exists_logBlock .ideal gweiContext repeated gweiSpender, fun log run h => ?_⟩
  obtain rfl := logBlock_repeated h
  have hcounted : (Executor.ideal.runInOrder gweiContext repeated (Executor.startBlock gweiSpender repeated)
      repeated).blockGasUsed = 21000 := by decide +kernel
  have hreported : ((Executor.ideal.closeBlock gweiContext repeated (Executor.ideal.runInOrder gweiContext
      repeated (Executor.startBlock gweiSpender repeated) repeated)).receipts.map fun r => r.gasUsed.toNat).sum = 0 := by
    decide +kernel
  refine ⟨hcounted, fun ht => ?_⟩
  have hgas := ht.counted
  rw [hcounted, ← ht.gas, hreported] at hgas
  exact absurd hgas (by decide)

end Sample

end Zephyria
