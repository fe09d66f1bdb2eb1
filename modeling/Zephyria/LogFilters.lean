import Zephyria.Lib.Loops
import Zephyria.TransactionIndex

namespace Zephyria

def earliestBlockNumber : Int64 := -5

def latestBlockNumber : Int64 := -2

def pendingBlockNumber : Int64 := -1

structure FilterCriteria where
  blockHash : Option Hash
  fromBlock : Option Int64
  toBlock : Option Int64
  addresses : List Address
  topics : List (List Hash)

/-- `panic` is a missing current block. -/
inductive LogsAnswer where
  | panic
  | error (text : String)
  | null
  | logs (l : List Log)

def matchTopics : List (List Hash) → List Hash → Bool
  | [], _ => true
  | _ :: _, [] => false
  | sub :: topics, topic :: logTopics => (sub.isEmpty || sub.contains topic) && matchTopics topics logTopics

def filterLog (log : Log) (addresses : List Address) (topics : List (List Hash)) : Bool :=
  (addresses.isEmpty || addresses.contains log.address) && matchTopics topics log.topics

section Queries

variable (db : Database)

def labelLog (number : UInt64) (hash : Hash) (txIndex logIndex : ℕ) (log : Log) : Log :=
  let log := { log with blockNumber := number, blockHash := hash }
  match (db.readBlock hash).bind fun block => block.transactions[txIndex]? with
  | none => log
  | some tx => { log with txHash := tx.hash, txIndex := UInt64.ofNat txIndex, index := UInt64.ofNat logIndex }

variable (c : FilterCriteria)

def receiptsLogs (number : UInt64) (hash : Hash) (receipts : List Receipt) : List Log :=
  receipts.zipIdx.flatMap fun (receipt, txIndex) =>
    (receipt.logs.zipIdx.filter fun (log, _) => filterLog log c.addresses c.topics).map fun (log, logIndex) =>
      labelLog db number hash txIndex logIndex log

def blockLogs (i : Int64) : List Log :=
  let hash := db.readCanonicalHash i.toUInt64
  if hash = 0 then []
  else
    match db.readReceipts hash with
    | none => []
    | some receipts => receiptsLogs db c i.toUInt64 hash receipts

def tooManyResults : String := "query returned more than 2000 results"

def queryRange (headNum first last : Int64) (fuel : ℕ) : Option LogsAnswer :=
  if first > headNum then some (.logs [])
  else
    let last := if last > headNum then headNum else last
    if first > last then some (.logs [])
    else if last - first > 2000 then some (.error tooManyResults)
    else (forLoop (· ≤ last) (· + 1) (fun logs i => logs ++ blockLogs db c i) fuel first []).map .logs

end Queries

def Block.int64Number (b : Block) : Int64 := (UInt64.ofNat b.header.number).toInt64

def resolveBlockNumber (headNum : Int64) : Option Int64 → Int64
  | none => headNum
  | some n =>
    if n = latestBlockNumber ∨ n = pendingBlockNumber then headNum
    else if n = earliestBlockNumber then 0
    else n

def getLogs (bc : Blockchain) (c : FilterCriteria) (fuel : ℕ) : Option LogsAnswer :=
  match c.blockHash with
  | some hash =>
    match bc.db.readBlock hash, bc.currentBlock with
    | none, _ => some .null
    | some _, none => some .panic
    | some block, some head => queryRange bc.db c head.int64Number block.int64Number block.int64Number fuel
  | none =>
    match bc.currentBlock with
    | none => some .panic
    | some head =>
      queryRange bc.db c head.int64Number (resolveBlockNumber head.int64Number c.fromBlock)
        (resolveBlockNumber head.int64Number c.toBlock) fuel

def Answers (bc : Blockchain) (c : FilterCriteria) (answer : LogsAnswer) : Prop :=
  ∀ res, (∃ fuel, getLogs bc c fuel = some res) ↔ res = answer

def Alternatives (topics : List (List Hash)) (logTopics : List Hash) : Prop :=
  ∀ (i : ℕ) sub topic, topics[i]? = some sub → logTopics[i]? = some topic → sub = [] ∨ topic ∈ sub

structure Satisfies (addresses : List Address) (topics : List (List Hash)) (log : Log) : Prop where
  address : addresses = [] ∨ log.address ∈ addresses
  positions : topics.length ≤ log.topics.length
  alternatives : Alternatives topics log.topics

structure LogEntry where
  number : ℕ
  txIndex : ℕ
  logIndex : ℕ
  log : Log

namespace LogEntry

def Before (a b : LogEntry) : Prop :=
  a.number < b.number ∨ a.number = b.number ∧
    (a.txIndex < b.txIndex ∨ a.txIndex = b.txIndex ∧ a.logIndex < b.logIndex)

def In (receipts : List Receipt) (e : LogEntry) : Prop :=
  ∃ receipt, receipts[e.txIndex]? = some receipt ∧ receipt.logs[e.logIndex]? = some e.log

def StoredUnder (db : Database) (hash : Hash) (e : LogEntry) : Prop :=
  ∃ receipts, db.readReceipts hash = some receipts ∧ e.In receipts

def Canonical (db : Database) (e : LogEntry) : Prop :=
  db.readCanonicalHash (UInt64.ofNat e.number) ≠ 0 ∧
    e.StoredUnder db (db.readCanonicalHash (UInt64.ofNat e.number))

def returned (db : Database) (hash : Hash) (e : LogEntry) : Log :=
  labelLog db (UInt64.ofNat e.number) hash e.txIndex e.logIndex e.log

def canonicalReturned (db : Database) (e : LogEntry) : Log :=
  e.returned db (db.readCanonicalHash (UInt64.ofNat e.number))

end LogEntry

section Filter

variable {addresses : List Address} {topics : List (List Hash)} {log : Log}

theorem alternatives_cons {sub : List Hash} {topic : Hash} {logTopics : List Hash} :
    Alternatives (sub :: topics) (topic :: logTopics) ↔ (sub = [] ∨ topic ∈ sub) ∧ Alternatives topics logTopics := by
  constructor
  · intro h
    exact ⟨h 0 sub topic rfl rfl, fun i => h (i + 1)⟩
  · rintro ⟨hfirst, hrest⟩ (_ | i) sub' topic' hsub htopic
    · obtain rfl : sub = sub' := Option.some.inj hsub
      obtain rfl : topic = topic' := Option.some.inj htopic
      exact hfirst
    · exact hrest i sub' topic' hsub htopic

theorem matchTopics_iff {logTopics : List Hash} : matchTopics topics logTopics = true ↔
    topics.length ≤ logTopics.length ∧ Alternatives topics logTopics := by
  induction topics generalizing logTopics with
  | nil => simp [matchTopics, Alternatives]
  | cons sub topics ih =>
    cases logTopics with
    | nil => simp [matchTopics]
    | cons topic logTopics =>
      simp only [matchTopics, Bool.and_eq_true, Bool.or_eq_true, List.isEmpty_iff, List.contains_iff_mem, ih,
        List.length_cons, Nat.add_le_add_iff_right, alternatives_cons]
      tauto

theorem filterLog_iff : filterLog log addresses topics = true ↔ Satisfies addresses topics log := by
  simp only [filterLog, Bool.and_eq_true, Bool.or_eq_true, List.isEmpty_iff, List.contains_iff_mem, matchTopics_iff]
  constructor
  · rintro ⟨haddress, hpositions, htopics⟩
    exact ⟨haddress, hpositions, htopics⟩
  · rintro ⟨haddress, hpositions, htopics⟩
    exact ⟨haddress, hpositions, htopics⟩

end Filter

section Entries

variable (db : Database) (c : FilterCriteria)

def receiptsEntries (number : ℕ) (receipts : List Receipt) : List LogEntry :=
  receipts.zipIdx.flatMap fun (receipt, txIndex) =>
    (receipt.logs.zipIdx.filter fun (log, _) => filterLog log c.addresses c.topics).map fun (log, logIndex) =>
      ⟨number, txIndex, logIndex, log⟩

theorem enumerates_receiptsEntries (number : ℕ) (receipts : List Receipt) :
    Enumerates LogEntry.Before
      (fun e => e.number = number ∧ e.In receipts ∧ Satisfies c.addresses c.topics e.log)
      (receiptsEntries c number receipts) := by
  have hlogs (receipt : Receipt) (txIndex : ℕ) : Enumerates LogEntry.Before
      (fun e => e.number = number ∧ e.txIndex = txIndex ∧ receipt.logs[e.logIndex]? = some e.log ∧
        Satisfies c.addresses c.topics e.log)
      ((receipt.logs.zipIdx.filter fun (log, _) => filterLog log c.addresses c.topics).map fun (log, logIndex) =>
        ⟨number, txIndex, logIndex, log⟩) := by
    refine (((enumerates_zipIdx receipt.logs).filter _).map (s := LogEntry.Before) ?_).congr ?_
    · rintro ⟨log, i⟩ ⟨log', j⟩ hij
      exact .inr ⟨rfl, .inr ⟨rfl, hij⟩⟩
    · intro e
      constructor
      · rintro ⟨⟨log, i⟩, ⟨hlog, hfilter⟩, rfl⟩
        exact ⟨rfl, rfl, hlog, filterLog_iff.mp hfilter⟩
      · rintro ⟨rfl, rfl, hlog, hsat⟩
        exact ⟨⟨e.log, e.logIndex⟩, ⟨hlog, filterLog_iff.mpr hsat⟩, rfl⟩
  refine ((enumerates_zipIdx receipts).flatMap (fun a _ => hlogs a.1 a.2) ?_).congr ?_
  · rintro ⟨receipt, i⟩ ⟨receipt', j⟩ x y hij ⟨hx, hxi, -⟩ ⟨hy, hyj, -⟩
    refine .inr ⟨hx.trans hy.symm, .inl ?_⟩
    rw [hxi, hyj]
    exact hij
  · intro e
    constructor
    · rintro ⟨⟨receipt, i⟩, hreceipt, hnumber, rfl, hlog, hsat⟩
      exact ⟨hnumber, ⟨receipt, hreceipt, hlog⟩, hsat⟩
    · rintro ⟨hnumber, ⟨receipt, hreceipt, hlog⟩, hsat⟩
      exact ⟨⟨receipt, e.txIndex⟩, hreceipt, hnumber, rfl, hlog, hsat⟩

theorem receiptsLogs_eq (number : ℕ) (hash : Hash) (receipts : List Receipt) :
    receiptsLogs db c (UInt64.ofNat number) hash receipts =
      (receiptsEntries c number receipts).map (LogEntry.returned db hash) := by
  simp [receiptsLogs, receiptsEntries, List.map_flatMap, Function.comp_def, LogEntry.returned]

def canonicalEntries (number : ℕ) : List LogEntry :=
  let hash := db.readCanonicalHash (UInt64.ofNat number)
  if hash = 0 then [] else ((db.readReceipts hash).map (receiptsEntries c number)).getD []

theorem enumerates_canonicalEntries (number : ℕ) :
    Enumerates LogEntry.Before
      (fun e => e.number = number ∧ e.Canonical db ∧ Satisfies c.addresses c.topics e.log)
      (canonicalEntries db c number) := by
  unfold canonicalEntries
  dsimp only
  by_cases hzero : db.readCanonicalHash (UInt64.ofNat number) = 0
  · rw [if_pos hzero]
    refine ⟨.nil, fun e => ⟨nofun, ?_⟩⟩
    rintro ⟨rfl, ⟨hne, -⟩, -⟩
    exact absurd hzero hne
  · rw [if_neg hzero]
    cases hreceipts : db.readReceipts (db.readCanonicalHash (UInt64.ofNat number)) with
    | none =>
      refine ⟨.nil, fun e => ⟨nofun, ?_⟩⟩
      rintro ⟨rfl, ⟨-, receipts, hsome, -⟩, -⟩
      rw [hreceipts] at hsome
      cases hsome
    | some receipts =>
      refine (enumerates_receiptsEntries c number receipts).congr fun e => ?_
      constructor
      · rintro ⟨rfl, hin, hsat⟩
        exact ⟨rfl, ⟨hzero, receipts, hreceipts, hin⟩, hsat⟩
      · rintro ⟨rfl, ⟨-, receipts', hsome, hin⟩, hsat⟩
        rw [hreceipts] at hsome
        obtain rfl := Option.some.inj hsome
        exact ⟨rfl, hin, hsat⟩

theorem blockLogs_eq {i : Int64} {number : ℕ} (h : i.toUInt64 = UInt64.ofNat number) :
    blockLogs db c i = (canonicalEntries db c number).map (LogEntry.canonicalReturned db) := by
  have hlabel : (canonicalEntries db c number).map (LogEntry.canonicalReturned db) =
      (canonicalEntries db c number).map
        (LogEntry.returned db (db.readCanonicalHash (UInt64.ofNat number))) := by
    apply List.map_congr_left
    intro e he
    obtain ⟨rfl, -⟩ := ((enumerates_canonicalEntries db c number).mem_iff e).mp he
    rfl
  rw [hlabel]
  unfold blockLogs canonicalEntries
  dsimp only
  rw [h]
  by_cases hzero : db.readCanonicalHash (UInt64.ofNat number) = 0
  · rw [if_pos hzero, if_pos hzero]
    rfl
  · rw [if_neg hzero, if_neg hzero]
    cases db.readReceipts (db.readCanonicalHash (UInt64.ofNat number)) with
    | none => rfl
    | some receipts => exact receiptsLogs_eq db c number _ receipts

def rangeEntries (first count : ℕ) : List LogEntry :=
  (List.range' first count).flatMap (canonicalEntries db c)

theorem enumerates_rangeEntries (first count : ℕ) :
    Enumerates LogEntry.Before
      (fun e => first ≤ e.number ∧ e.number < first + count ∧ e.Canonical db ∧
        Satisfies c.addresses c.topics e.log)
      (rangeEntries db c first count) := by
  refine ((enumerates_range' first count).flatMap (fun n _ => enumerates_canonicalEntries db c n) ?_).congr ?_
  · rintro n m x y hnm ⟨rfl, -⟩ ⟨rfl, -⟩
    exact .inl hnm
  · intro e
    constructor
    · rintro ⟨n, ⟨hle, hlt⟩, rfl, hrest⟩
      exact ⟨hle, hlt, hrest⟩
    · rintro ⟨hle, hlt, hrest⟩
      exact ⟨e.number, ⟨hle, hlt⟩, rfl, hrest⟩

end Entries

section Int64

theorem toUInt64_of_toInt {i : Int64} {n : ℕ} (h : i.toInt = n) : i.toUInt64 = UInt64.ofNat n := by
  rw [← Int64.ofInt_toInt i, h]
  rfl

theorem toInt_int64Number {b : Block} (h : b.header.number < 2 ^ 63) : b.int64Number.toInt = b.header.number :=
  Int64.toInt_ofNat_of_lt h

def clip (headNum last : Int64) : Int64 := if last > headNum then headNum else last

theorem toInt_clip (headNum last : Int64) : (clip headNum last).toInt = min last.toInt headNum.toInt := by
  unfold clip
  split
  next h =>
    have hlt := Int64.lt_iff_toInt_lt.mp h
    omega
  next h =>
    have hle := Int64.le_iff_toInt_le.mp (Int64.not_lt.mp h)
    omega

end Int64

section Ranges

variable {db : Database} {c : FilterCriteria} {headNum first last : Int64}

theorem queryRange_empty (h : (clip headNum last).toInt < first.toInt) (fuel : ℕ) :
    queryRange db c headNum first last fuel = some (.logs []) := by
  unfold queryRange
  split
  · rfl
  · exact if_pos (Int64.lt_iff_toInt_lt.mpr h)

theorem queryRange_loop (h : first.toInt ≤ (clip headNum last).toInt)
    (hspan : (clip headNum last).toInt - first.toInt ≤ 2000) (fuel : ℕ) :
    queryRange db c headNum first last fuel = (forLoop (· ≤ clip headNum last) (· + 1)
      (fun logs i => logs ++ blockLogs db c i) fuel first []).map .logs := by
  have hclip := toInt_clip headNum last
  have hhead : ¬first > headNum := by
    rw [gt_iff_lt, Int64.lt_iff_toInt_lt]
    omega
  have hempty : ¬first > clip headNum last := by
    rw [gt_iff_lt, Int64.lt_iff_toInt_lt]
    omega
  have hmany : ¬clip headNum last - first > 2000 := by
    rw [gt_iff_lt, Int64.lt_iff_toInt_lt, Int64.toInt_sub, Int.bmod_eq_of_le (by omega) (by omega)]
    exact not_lt.mpr hspan
  unfold queryRange
  rw [if_neg hhead]
  exact (if_neg hempty).trans (if_neg hmany)

theorem forLoop_blockLogs {n : ℕ} (hfirst : first.toUInt64 = UInt64.ofNat n) (hle : first ≤ last)
    (hlast : last.toInt < 2 ^ 63 - 1) :
    forLoop (· ≤ last) (· + 1) (fun logs i => logs ++ blockLogs db c i) ((last.toInt - first.toInt).toNat + 2)
      first [] = some ((rangeEntries db c n ((last.toInt - first.toInt).toNat + 1)).map
        (LogEntry.canonicalReturned db)) := by
  have hcounter (k : ℕ) : ((· + 1)^[k] first).toUInt64 = UInt64.ofNat (n + k) := by
    induction k with
    | zero => exact hfirst
    | succ k ih =>
      rw [Function.iterate_succ_apply', Int64.toUInt64_add, ih, ← Nat.add_assoc, UInt64.ofNat_add (n + k)]
      rfl
  rw [forLoop_counter hle hlast, ← List.flatMap_eq_foldl, rangeEntries, List.range'_eq_map_range, List.flatMap_map,
    List.flatMap_map, List.map_flatMap]
  congr 2
  funext k
  exact blockLogs_eq db c (hcounter k)

end Ranges

section Answers

variable {bc : Blockchain} {c : FilterCriteria}

theorem answers_const {answer : LogsAnswer} (h : ∀ fuel, getLogs bc c fuel = some answer) :
    Answers bc c answer := by
  intro res
  simp only [h, exists_const, Option.some.injEq]
  exact eq_comm

theorem not_answers {answer : LogsAnswer} (h : ∀ fuel, getLogs bc c fuel = none) : ¬Answers bc c answer := by
  intro ha
  obtain ⟨fuel, hfuel⟩ := (ha answer).mpr rfl
  rw [h] at hfuel
  cases hfuel

theorem answers_loop {cond : Int64 → Bool} {next : Int64 → Int64} {body : List Log → Int64 → List Log} {i : Int64}
    {l acc : List Log} {n : ℕ}
    (h : ∀ fuel, getLogs bc c fuel = (forLoop cond next body fuel i acc).map .logs)
    (hloop : forLoop cond next body n i acc = some l) : Answers bc c (.logs l) := by
  intro res
  constructor
  · rintro ⟨fuel, hres⟩
    rw [h] at hres
    obtain ⟨l', hl', rfl⟩ := Option.map_eq_some_iff.mp hres
    rw [forLoop_unique hl' hloop]
  · rintro rfl
    refine ⟨n, ?_⟩
    rw [h, hloop]
    rfl

end Answers

section Exact

variable {bc : Blockchain} {c : FilterCriteria} {head : Block} {first last : Int64}

structure ExplicitRange (c : FilterCriteria) (first last : Int64) : Prop where
  blockHash : c.blockHash = none
  fromBlock : c.fromBlock = some first
  toBlock : c.toBlock = some last
  first_nonneg : 0 ≤ first.toInt
  last_nonneg : 0 ≤ last.toInt

def RangeLogsExact (bc : Blockchain) (c : FilterCriteria) (head : Block) (first last : Int64) : Prop :=
  ∃ entries, Enumerates LogEntry.Before
      (fun e => first.toInt ≤ e.number ∧ (e.number : ℤ) ≤ min last.toInt head.header.number ∧
        e.Canonical bc.db ∧ Satisfies c.addresses c.topics e.log) entries ∧
    Answers bc c (.logs (entries.map (LogEntry.canonicalReturned bc.db)))

theorem resolveBlockNumber_nonneg {n : Int64} (headNum : Int64) (h : 0 ≤ n.toInt) :
    resolveBlockNumber headNum (some n) = n := by
  have hne {m : Int64} (hm : m.toInt < 0) : n ≠ m := by
    rintro rfl
    omega
  rw [resolveBlockNumber, if_neg, if_neg]
  · exact hne (by decide)
  · rintro (h | h)
    · exact hne (by decide) h
    · exact hne (by decide) h

theorem getLogs_explicit (hc : ExplicitRange c first last) (hhead : bc.currentBlock = some head) (fuel : ℕ) :
    getLogs bc c fuel = queryRange bc.db c head.int64Number first last fuel := by
  unfold getLogs
  rw [hc.blockHash, hhead, hc.fromBlock, hc.toBlock]
  dsimp only
  rw [resolveBlockNumber_nonneg _ hc.first_nonneg, resolveBlockNumber_nonneg _ hc.last_nonneg]

theorem range_logs_exact_iff (bc : Blockchain) (c : FilterCriteria) (head : Block) (first last : Int64)
    (hhead : bc.currentBlock = some head) (hnumber : head.header.number < 2 ^ 63)
    (hc : ExplicitRange c first last) (hspan : min last.toInt head.header.number - first.toInt ≤ 2000) :
    RangeLogsExact bc c head first last ↔ min last.toInt head.header.number < 2 ^ 63 - 1 ∨
      min last.toInt head.header.number < first.toInt := by
  have hget := getLogs_explicit hc hhead
  have hfirst := hc.first_nonneg
  have hclip := toInt_clip head.int64Number last
  rw [toInt_int64Number hnumber] at hclip
  by_cases hempty : min last.toInt head.header.number < first.toInt
  · refine iff_of_true ⟨[], ⟨.nil, fun e => ⟨nofun, ?_⟩⟩, ?_⟩ (.inr hempty)
    · rintro ⟨hle, hle', -⟩
      omega
    · apply answers_const
      intro fuel
      rw [hget, queryRange_empty (by omega)]
      rfl
  · have hloop (fuel : ℕ) := (hget fuel).trans (queryRange_loop (by omega) (by omega) fuel)
    by_cases hmax : min last.toInt head.header.number < 2 ^ 63 - 1
    · refine iff_of_true ?_ (.inl hmax)
      refine ⟨rangeEntries bc.db c first.toInt.toNat
        (((clip head.int64Number last).toInt - first.toInt).toNat + 1), ?_, ?_⟩
      · apply (enumerates_rangeEntries bc.db c _ _).congr
        intro e
        rw [hclip]
        constructor
        · rintro ⟨hle, hlt, hrest⟩
          exact ⟨by omega, by omega, hrest⟩
        · rintro ⟨hle, hlt, hrest⟩
          exact ⟨by omega, by omega, hrest⟩
      · refine answers_loop hloop (forLoop_blockLogs ?_ ?_ (by omega))
        · exact toUInt64_of_toInt (by omega)
        · rw [Int64.le_iff_toInt_le]
          omega
    · refine iff_of_false ?_ (by tauto)
      rintro ⟨entries, -, hanswer⟩
      refine not_answers (fun fuel => ?_) hanswer
      have hlt := last.toInt_lt
      rw [hloop, forLoop_counter_endless (by omega)]
      rfl

end Exact

section BlockHash

variable {S : Sealing} {bc bc' : Blockchain} {c : FilterCriteria} {head b : Block} {hash : Hash}

def MatchUnder (db : Database) (c : FilterCriteria) (hash : Hash) : Prop :=
  ∃ e : LogEntry, e.StoredUnder db hash ∧ Satisfies c.addresses c.topics e.log

def BlockLogsExact (bc : Blockchain) (c : FilterCriteria) (b : Block) (hash : Hash) : Prop :=
  ∃ logs, Answers bc c (.logs logs) ∧
    (∀ log ∈ logs, log.blockHash = hash ∧ ∃ e : LogEntry, e.number = b.header.number ∧
      e.StoredUnder bc.db hash ∧ Satisfies c.addresses c.topics e.log ∧ log = e.returned bc.db hash) ∧
    ∀ e : LogEntry, e.number = b.header.number → e.StoredUnder bc.db hash →
      Satisfies c.addresses c.topics e.log → e.returned bc.db hash ∈ logs

/-- The block is the canonical one and its number can be looped over, or there is nothing to return
under either hash. A number above the head's as `int64` is not looked up at all. -/
def AnswersForBlock (bc : Blockchain) (c : FilterCriteria) (head b : Block) (hash : Hash) : Prop :=
  if head.int64Number < b.int64Number then ¬MatchUnder bc.db c hash
  else b.int64Number ≠ Int64.maxValue ∧
    (bc.db.readCanonicalHash (UInt64.ofNat b.header.number) = hash ∨
      ¬MatchUnder bc.db c hash ∧
        ¬MatchUnder bc.db c (bc.db.readCanonicalHash (UInt64.ofNat b.header.number)))

theorem blockHash_returned (db : Database) (hash : Hash) (e : LogEntry) : (e.returned db hash).blockHash = hash := by
  unfold LogEntry.returned labelLog
  dsimp only
  split
  · rfl
  · rfl

theorem not_matchUnder_iff_forall {db : Database} {n : ℕ} : ¬MatchUnder db c hash ↔
    ∀ e : LogEntry, e.number = n → e.StoredUnder db hash → ¬Satisfies c.addresses c.topics e.log := by
  constructor
  · intro h e _ hstored hsat
    exact h ⟨e, hstored, hsat⟩
  · rintro h ⟨e, hstored, hsat⟩
    exact h { e with number := n } rfl hstored hsat

theorem getLogs_blockHash (hc : c.blockHash = some hash) (hstored : bc.db.readBlock hash = some b)
    (hhead : bc.currentBlock = some head) (fuel : ℕ) :
    getLogs bc c fuel = queryRange bc.db c head.int64Number b.int64Number b.int64Number fuel := by
  unfold getLogs
  rw [hc]
  dsimp only
  rw [hstored, hhead]

theorem blockLogsExact_nil (hanswer : Answers bc c (.logs [])) :
    BlockLogsExact bc c b hash ↔ ¬MatchUnder bc.db c hash := by
  rw [not_matchUnder_iff_forall (n := b.header.number)]
  constructor
  · rintro ⟨logs, hlogs, -, hall⟩ e hnumber hstored hsat
    obtain rfl : [] = logs := LogsAnswer.logs.inj ((hlogs _).mp ((hanswer _).mpr rfl))
    exact absurd (hall e hnumber hstored hsat) List.not_mem_nil
  · intro h
    exact ⟨[], hanswer, nofun, fun e hnumber hstored hsat => absurd hsat (h e hnumber hstored)⟩

theorem blockLogsExact_canonical (hne : bc.db.readCanonicalHash (UInt64.ofNat b.header.number) ≠ 0)
    (hanswer : Answers bc c (.logs ((canonicalEntries bc.db c b.header.number).map
      (LogEntry.canonicalReturned bc.db)))) :
    BlockLogsExact bc c b hash ↔ bc.db.readCanonicalHash (UInt64.ofNat b.header.number) = hash ∨
      ¬MatchUnder bc.db c hash ∧
        ¬MatchUnder bc.db c (bc.db.readCanonicalHash (UInt64.ofNat b.header.number)) := by
  have hmem := (enumerates_canonicalEntries bc.db c b.header.number).mem_iff
  by_cases hcanonical : bc.db.readCanonicalHash (UInt64.ofNat b.header.number) = hash
  · refine iff_of_true ⟨_, hanswer, ?_, ?_⟩ (.inl hcanonical)
    · intro log hlog
      obtain ⟨e, he, rfl⟩ := List.mem_map.mp hlog
      obtain ⟨hnumber, ⟨-, hstored⟩, hsat⟩ := (hmem e).mp he
      rw [hnumber, hcanonical] at hstored
      rw [LogEntry.canonicalReturned, hnumber, hcanonical]
      exact ⟨blockHash_returned _ _ _, e, hnumber, hstored, hsat, rfl⟩
    · intro e hnumber hstored hsat
      refine List.mem_map.mpr ⟨e, (hmem e).mpr ⟨hnumber, ?_, hsat⟩, ?_⟩
      · rw [LogEntry.Canonical, hnumber]
        exact ⟨hne, hcanonical ▸ hstored⟩
      · rw [LogEntry.canonicalReturned, hnumber, hcanonical]
  · rw [or_iff_right hcanonical]
    by_cases hother : MatchUnder bc.db c (bc.db.readCanonicalHash (UInt64.ofNat b.header.number))
    · -- A log of the other block is returned under its hash.
      refine iff_of_false ?_ (fun h => h.2 hother)
      rintro ⟨logs, hlogs, hfrom, -⟩
      obtain rfl := LogsAnswer.logs.inj ((hlogs _).mp ((hanswer _).mpr rfl))
      obtain ⟨e, hstored, hsat⟩ := hother
      have he : { e with number := b.header.number } ∈ canonicalEntries bc.db c b.header.number :=
        (hmem _).mpr ⟨rfl, ⟨hne, hstored⟩, hsat⟩
      obtain ⟨hlabel, -⟩ := hfrom _ (List.mem_map_of_mem he)
      rw [LogEntry.canonicalReturned, blockHash_returned] at hlabel
      exact hcanonical hlabel
    · have hnil : canonicalEntries bc.db c b.header.number = [] := by
        apply List.eq_nil_iff_forall_not_mem.mpr
        intro e he
        obtain ⟨hnumber, ⟨-, hstored⟩, hsat⟩ := (hmem e).mp he
        rw [hnumber] at hstored
        exact hother ⟨e, hstored, hsat⟩
      rw [hnil] at hanswer
      rw [blockLogsExact_nil hanswer, and_iff_left hother]

theorem blockLogsExact_iff (hc : c.blockHash = some hash) (hstored : bc.db.readBlock hash = some b)
    (hhead : bc.currentBlock = some head)
    (hne : bc.db.readCanonicalHash (UInt64.ofNat b.header.number) ≠ 0) :
    BlockLogsExact bc c b hash ↔ AnswersForBlock bc c head b hash := by
  have hget := getLogs_blockHash hc hstored hhead
  have hclip := toInt_clip head.int64Number b.int64Number
  rw [AnswersForBlock]
  by_cases hlt : head.int64Number < b.int64Number
  · rw [if_pos hlt]
    rw [Int64.lt_iff_toInt_lt] at hlt
    apply blockLogsExact_nil
    apply answers_const
    intro fuel
    rw [hget, queryRange_empty (by omega)]
  · rw [if_neg hlt]
    rw [Int64.lt_iff_toInt_lt] at hlt
    have hsame : clip head.int64Number b.int64Number = b.int64Number := by
      rw [← Int64.toInt_inj]
      omega
    have hloop (fuel : ℕ) := (hget fuel).trans (queryRange_loop (by omega) (by omega) fuel)
    rw [hsame] at hloop
    by_cases hmax : b.int64Number = Int64.maxValue
    · refine iff_of_false ?_ (fun h => h.1 hmax)
      rintro ⟨logs, hanswer, -⟩
      refine not_answers (fun fuel => ?_) hanswer
      rw [hloop, forLoop_counter_endless (by rw [hmax, Int64.toInt_maxValue])]
      rfl
    · rw [and_iff_right hmax]
      have hlast : b.int64Number.toInt < 2 ^ 63 - 1 := by
        have hle := b.int64Number.toInt_lt
        rw [← Int64.toInt_inj, Int64.toInt_maxValue] at hmax
        omega
      apply blockLogsExact_canonical hne
      have hanswer := answers_loop hloop
        (forLoop_blockLogs (UInt64.toUInt64_toInt64 _) (Int64.le_refl _) hlast)
      simpa [rangeEntries] using hanswer

def Numbered (bc : Blockchain) : Prop :=
  ∀ hash b, bc.db.readBlock hash = some b →
    bc.currentBlock.isSome ∧ bc.db.readCanonicalHash (UInt64.ofNat b.header.number) ≠ 0

theorem numbered_addBlock (hzero : ∀ header, S.headerHash header ≠ 0) {receipts : Option (List Receipt)}
    (hbc : Numbered bc) (hadd : bc.addBlock S b receipts = .ok bc') : Numbered bc' := by
  have hadded := Blockchain.added_of_addBlock hadd
  intro hash b' hstored
  constructor
  · rw [hadded.current]
    by_cases hnewer : bc.isNewer b
    · rw [if_pos hnewer]
      rfl
    · rw [if_neg hnewer]
      obtain ⟨current, hcurrent, -⟩ := not_isNewer_iff.mp hnewer
      rw [hcurrent]
      rfl
  · rw [readCanonicalHash_addBlock hadd]
    split
    next => exact hzero _
    next hother =>
      rw [hadded.block] at hstored
      split at hstored
      next =>
        obtain ⟨rfl, -⟩ := Block.unmarshal_eq_some.mp hstored
        exact absurd (.inl rfl) hother
      next => exact (hbc hash b' hstored).2

theorem numbered_commit (hbc : Numbered bc) (s : StateDB) : Numbered { bc with db := bc.db.write s.commit.2 } := by
  have hsame := sameLookups_persistState s bc
  intro hash b hstored
  obtain ⟨hcurrent, hcanonical⟩ := hbc hash b ((hsame.block hash).symm.trans hstored)
  exact ⟨hcurrent, fun h => hcanonical ((hsame.canonical _).symm.trans h)⟩

theorem block_logs_exact_iff (S : Sealing) (hzero : ∀ header, S.headerHash header ≠ 0) (writes : List ChainWrite)
    (bc : Blockchain) (hrun : writes.foldlM (ChainWrite.apply S) ⟨.empty, none⟩ = some bc) (c : FilterCriteria)
    (hash : Hash) (hc : c.blockHash = some hash) (b : Block) (hstored : bc.db.readBlock hash = some b) :
    ∃ head, bc.currentBlock = some head ∧
      (BlockLogsExact bc c b hash ↔ AnswersForBlock bc c head b hash) := by
  have hnumbered : Numbered bc := by
    refine ChainWrite.run_invariant ?_ ?_ ?_ hrun
    · intro bc bc' b receipts _ hbc hadd
      exact numbered_addBlock hzero hbc hadd
    · intro bc s hbc
      exact numbered_commit hbc s
    · intro hash b h
      cases h
  obtain ⟨hcurrent, hne⟩ := hnumbered hash b hstored
  obtain ⟨head, hhead⟩ := Option.isSome_iff_exists.mp hcurrent
  exact ⟨head, hhead, blockLogsExact_iff hc hstored hhead hne⟩

end BlockHash

section Sample

def anyLogs (blockHash : Option Hash) (first last : Int64) : FilterCriteria where
  blockHash := blockHash
  fromBlock := some first
  toBlock := some last
  addresses := []
  topics := []

def transferLog : Log where
  address := 0xa1
  topics := [1]
  data := []
  blockNumber := 0
  txHash := 0
  txIndex := 0
  blockHash := 0
  blockTimestamp := 0
  index := 0
  removed := false

def loggedReceipt : Receipt := ⟨1, 1, 21000, 21000, 0, [transferLog]⟩

def clockHash (b : Block) : Hash := clockSealing.headerHash b.header

theorem range_logs_exact_two_blocks : ∃ bc,
    [ChainWrite.addBlock (clockBlock 1 1) (some [loggedReceipt]),
        .addBlock (clockBlock 2 2) (some [loggedReceipt, loggedReceipt])].foldlM (ChainWrite.apply clockSealing)
      ⟨.empty, none⟩ = some bc ∧
      RangeLogsExact bc (anyLogs none 1 9) (clockBlock 2 2) 1 9 :=
  ⟨_, rfl, (range_logs_exact_iff _ _ (clockBlock 2 2) 1 9 rfl (by decide)
    ⟨rfl, rfl, rfl, by decide, by decide⟩ (by decide)).mpr (.inl (by decide))⟩

theorem endless_at_greatest_number : ∃ bc,
    Blockchain.addBlock clockSealing ⟨.empty, none⟩ (clockBlock (2 ^ 63 - 1) 1) none = .ok bc ∧
      ¬RangeLogsExact bc (anyLogs none Int64.maxValue Int64.maxValue) (clockBlock (2 ^ 63 - 1) 1) Int64.maxValue Int64.maxValue := by
  refine ⟨_, rfl, ?_⟩
  rintro ⟨entries, -, hanswer⟩
  refine not_answers (fun fuel => ?_) hanswer
  rw [getLogs_explicit ⟨rfl, rfl, rfl, by decide, by decide⟩ rfl, queryRange_loop (by decide) (by decide),
    forLoop_counter_endless (by decide)]
  rfl

theorem block_logs_exact_sibling : ∃ bc,
    [ChainWrite.addBlock (clockBlock 1 1) (some []), .addBlock (clockBlock 1 2) (some [loggedReceipt])].foldlM
        (ChainWrite.apply clockSealing) ⟨.empty, none⟩ = some bc ∧
      BlockLogsExact bc (anyLogs (some (clockHash (clockBlock 1 2))) 0 0) (clockBlock 1 2)
        (clockHash (clockBlock 1 2)) := by
  refine ⟨_, rfl, ?_⟩
  obtain ⟨head, hhead, hiff⟩ := block_logs_exact_iff clockSealing clockSealing_ne_zero
    [.addBlock (clockBlock 1 1) (some []), .addBlock (clockBlock 1 2) (some [loggedReceipt])] _ rfl
    (anyLogs (some (clockHash (clockBlock 1 2))) 0 0) (clockHash (clockBlock 1 2)) rfl (clockBlock 1 2) rfl
  obtain rfl : clockBlock 1 1 = head := Option.some.inj hhead
  refine hiff.mpr ?_
  rw [AnswersForBlock, if_neg (by decide)]
  exact ⟨by decide, .inl rfl⟩

theorem sibling_logs_lost : ∃ bc,
    [ChainWrite.addBlock (clockBlock 1 1) (some [loggedReceipt]), .addBlock (clockBlock 1 2) (some [])].foldlM
        (ChainWrite.apply clockSealing) ⟨.empty, none⟩ = some bc ∧
      bc.db.readBlock (clockHash (clockBlock 1 1)) = some (clockBlock 1 1) ∧
      ¬BlockLogsExact bc (anyLogs (some (clockHash (clockBlock 1 1))) 0 0) (clockBlock 1 1)
        (clockHash (clockBlock 1 1)) := by
  refine ⟨_, rfl, rfl, ?_⟩
  rw [blockLogsExact_iff rfl rfl (show _ = some (clockBlock 1 1) from rfl) (by decide), AnswersForBlock,
    if_neg (by decide)]
  rintro ⟨-, hcanonical | ⟨hnone, -⟩⟩
  · exact absurd hcanonical (by decide)
  · exact hnone ⟨⟨1, 0, 0, transferLog⟩, ⟨_, rfl, _, rfl, rfl⟩, ⟨.inl rfl, by decide, nofun⟩⟩

end Sample

end Zephyria
