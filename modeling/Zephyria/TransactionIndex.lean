import Zephyria.CanonicalIndex
import Zephyria.KeySpaces
import Zephyria.Receipts

namespace Zephyria

structure RpcTransaction where
  hash : Hash
  nonce : UInt64
  blockHash : Hash
  blockNumber : UInt64
  transactionIndex : UInt64
  fromAddr : Address
  toAddr : Option Address
  value : ℕ
  gas : UInt64
  gasPrice : ℕ
  input : Bytes

structure RpcReceipt where
  transactionHash : Hash
  transactionIndex : UInt64
  blockHash : Hash
  blockNumber : UInt64
  fromAddr : Address
  toAddr : Option Address
  cumulativeGasUsed : UInt64
  gasUsed : UInt64
  effectiveGasPrice : ℕ
  contractAddress : Option Address
  logs : List Log
  status : UInt64

inductive RpcAnswer (α : Type) where
  | null
  | found (a : α)
  | panic

def receiptGasPrice (baseFee : Option ℕ) (tx : Transaction) : ℕ :=
  match baseFee with
  | none => tx.gasPrice
  | some fee => if fee + tx.gasTipCap < tx.gasPrice then fee + tx.gasTipCap else tx.gasPrice

def rpcTransaction (entry : TxLookupEntry) (tx : Transaction) : RpcTransaction where
  hash := tx.hash
  nonce := tx.nonce
  blockHash := entry.blockHash
  blockNumber := entry.blockIndex
  transactionIndex := entry.txIndex
  fromAddr := tx.sender.getD 0
  toAddr := tx.toAddr
  value := tx.value
  gas := tx.gas
  gasPrice := tx.gasPrice
  input := tx.data

def rpcReceipt (hash : Hash) (entry : TxLookupEntry) (block : Block) (tx : Transaction) (receipt : Receipt) :
    RpcReceipt where
  transactionHash := hash
  transactionIndex := entry.txIndex
  blockHash := entry.blockHash
  blockNumber := entry.blockIndex
  fromAddr := tx.sender.getD 0
  toAddr := tx.toAddr
  cumulativeGasUsed := receipt.cumulativeGasUsed
  gasUsed := receipt.gasUsed
  effectiveGasPrice := receiptGasPrice block.header.baseFee tx
  contractAddress := if receipt.contractAddress = 0 then none else some receipt.contractAddress
  logs := receipt.logs.zipIdx.map fun (log, i) =>
    { log with
      blockNumber := entry.blockIndex
      blockHash := entry.blockHash
      txHash := hash
      txIndex := entry.txIndex
      index := UInt64.ofNat i
      removed := false }
  status := receipt.status

section Queries

variable (db : Database) (hash : Hash)

def getTransactionByHash : RpcAnswer RpcTransaction :=
  match db.readTxLookupEntry hash with
  | none => .null
  | some entry =>
    match db.readBlock entry.blockHash with
    | none => .null
    | some block =>
      match block.transactions[entry.txIndex.toNat]? with
      | none => .null
      | some tx => .found (rpcTransaction entry tx)

/-- The index is checked against the receipts but not against the transactions. -/
def getTransactionReceipt : RpcAnswer RpcReceipt :=
  match db.readTxLookupEntry hash with
  | none => .null
  | some entry =>
    match db.readBlock entry.blockHash with
    | none => .null
    | some block =>
      match db.readReceipts entry.blockHash with
      | none => .null
      | some receipts =>
        match receipts[entry.txIndex.toNat]? with
        | none => .null
        | some receipt =>
          match block.transactions[entry.txIndex.toNat]? with
          | none => .panic
          | some tx => .found (rpcReceipt hash entry block tx receipt)

end Queries

structure Located (db : Database) (hash : Hash) (entry : TxLookupEntry) (block : Block) (tx : Transaction)
    (receipt : Receipt) : Prop where
  stored : db.readBlock entry.blockHash = some block
  number : UInt64.ofNat block.header.number = entry.blockIndex
  transaction : block.transactions[entry.txIndex.toNat]? = some tx
  transaction_hash : tx.hash = hash
  receipts : ∃ rs, db.readReceipts entry.blockHash = some rs ∧ rs[entry.txIndex.toNat]? = some receipt
  receipt_hash : receipt.txHash = hash

structure IndexSound (db : Database) (hash : Hash) : Prop where
  located : ∀ entry, db.readTxLookupEntry hash = some entry → ∃ block tx receipt,
    Located db hash entry block tx receipt ∧
      getTransactionByHash db hash = .found (rpcTransaction entry tx) ∧
      getTransactionReceipt db hash = .found (rpcReceipt hash entry block tx receipt)
  absent : db.readTxLookupEntry hash = none →
    getTransactionByHash db hash = .null ∧ getTransactionReceipt db hash = .null

inductive ChainWrite where
  | addBlock (b : Block) (receipts : Option (List Receipt))
  | commit (s : StateDB)

def ChainWrite.apply (S : Sealing) (bc : Blockchain) : ChainWrite → Option Blockchain
  | .addBlock b receipts => (bc.addBlock S b receipts).toOption
  | .commit s => some { bc with db := bc.db.write s.commit.2 }

theorem ChainWrite.run_invariant {S : Sealing} {I : Blockchain → Prop} {writes : List ChainWrite}
    {start bc : Blockchain}
    (hadd : ∀ bc bc' b receipts, ChainWrite.addBlock b receipts ∈ writes → I bc →
      bc.addBlock S b receipts = .ok bc' → I bc')
    (hcommit : ∀ (bc : Blockchain) (s : StateDB), I bc → I { bc with db := bc.db.write s.commit.2 }) (hstart : I start)
    (hrun : writes.foldlM (ChainWrite.apply S) start = some bc) : I bc := by
  refine foldlM_invariant ?_ hstart hrun
  intro bc bc' w hw hbc happly
  cases w with
  | addBlock b receipts =>
    cases h : bc.addBlock S b receipts with
    | error err =>
      rw [ChainWrite.apply, h] at happly
      cases happly
    | ok added =>
      rw [ChainWrite.apply, h] at happly
      obtain rfl := Option.some.inj happly
      exact hadd bc added b receipts hw hbc h
  | commit s =>
    obtain rfl := Option.some.inj happly
    exact hcommit bc s hbc

def Applied (e : Executor) (b : Block) (receipts : Option (List Receipt)) : Prop :=
  ∃ ctx s res, e.ApplyBlock ctx s b.transactions res ∧ receipts = some res.receipts

section Located

variable {db : Database} {hash : Hash} {entry : TxLookupEntry} {block : Block} {tx : Transaction} {receipt : Receipt}

theorem Located.getTransactionByHash_eq (h : Located db hash entry block tx receipt)
    (hentry : db.readTxLookupEntry hash = some entry) :
    getTransactionByHash db hash = .found (rpcTransaction entry tx) := by
  simp only [getTransactionByHash, hentry, h.stored, h.transaction]

theorem Located.getTransactionReceipt_eq (h : Located db hash entry block tx receipt)
    (hentry : db.readTxLookupEntry hash = some entry) :
    getTransactionReceipt db hash = .found (rpcReceipt hash entry block tx receipt) := by
  obtain ⟨rs, hrs, hreceipt⟩ := h.receipts
  simp only [getTransactionReceipt, hentry, h.stored, hrs, hreceipt, h.transaction]

end Located

def addBlockCalls (S : Sealing) (bc : Blockchain) (b : Block) (receipts : Option (List Receipt)) : List DbCall :=
  .writeBlock b :: (receipts.map (DbCall.writeReceipts b)).toList ++ [.writeTxLookupEntries b] ++
    (if bc.isNewer b then [.writeHeadBlockHash (S.headerHash b.header)] else []) ++
    [.writeCanonicalHash (UInt64.ofNat b.header.number) (S.headerHash b.header)]

section AddBlock

variable {S : Sealing} {bc bc' : Blockchain} {b : Block} {receipts : Option (List Receipt)}

theorem addBlock_calls (h : bc.addBlock S b receipts = .ok bc') :
    bc'.db = (addBlockCalls S bc b receipts).foldl (dbCall S) bc.db := by
  rw [(Blockchain.addBlock_inv h).2.2]
  cases receipts <;> by_cases hnewer : bc.isNewer b <;> simp [addBlockCalls, hnewer] <;> rfl

theorem readReceipts_addBlock (h : bc.addBlock S b receipts = .ok bc') (hash : Hash) :
    bc'.db.readReceipts hash =
      if hash = S.headerHash b.header then receipts.or (bc.db.readReceipts hash) else bc.db.readReceipts hash := by
  rw [addBlock_calls h, observe_foldl_or (fun db => db.readReceipts hash)
    (fun db c => readReceipts_dbCall S db c hash)]
  cases receipts <;> by_cases hnewer : bc.isNewer b <;> by_cases hh : hash = S.headerHash b.header <;>
    simp [addBlockCalls, lastSet, List.findSome?_cons, DbCall.receipts, hnewer, hh]

theorem readTxLookupEntry_addBlock (h : bc.addBlock S b receipts = .ok bc') (hash : Hash) :
    bc'.db.readTxLookupEntry hash =
      ((DbCall.writeTxLookupEntries b).lookup S hash).or (bc.db.readTxLookupEntry hash) := by
  rw [addBlock_calls h, observe_foldl_or (fun db => db.readTxLookupEntry hash)
    (fun db c => readTxLookupEntry_dbCall S db c hash)]
  congr 1
  -- Of all the calls only this one sets the entry.
  have hblock : (DbCall.writeBlock b).lookup S hash = none := rfl
  have hreceipts (rs : List Receipt) : (DbCall.writeReceipts b rs).lookup S hash = none := rfl
  have hhead (h : Hash) : (DbCall.writeHeadBlockHash h).lookup S hash = none := rfl
  have hcanonical (n : UInt64) (h : Hash) : (DbCall.writeCanonicalHash n h).lookup S hash = none := rfl
  generalize hentry : (DbCall.writeTxLookupEntries b).lookup S hash = entry
  cases receipts <;> by_cases hnewer : bc.isNewer b <;> cases entry <;>
    simp [addBlockCalls, lastSet, hblock, hreceipts, hhead, hcanonical, hentry, hnewer]

theorem lookup_eq_some {hash : Hash} {entry : TxLookupEntry}
    (h : (DbCall.writeTxLookupEntries b).lookup S hash = some entry) :
    ∃ i tx, b.transactions[i]? = some tx ∧ tx.hash = hash ∧ entry = lookupEntry S b i := by
  obtain ⟨⟨tx, i⟩, hmem, hset⟩ := List.exists_of_findSome?_eq_some h
  rw [List.mem_reverse, List.mem_zipIdx_iff_getElem?] at hmem
  dsimp only at hset hmem
  split at hset
  next heq => exact ⟨i, tx, hmem, heq.symm, (Option.some.inj hset).symm⟩
  next => cases hset

end AddBlock

section Index

variable {e : Executor} {S : Sealing} {bc bc' : Blockchain} {b : Block} {receipts : Option (List Receipt)}

def AllLocated (db : Database) : Prop :=
  ∀ hash entry, db.readTxLookupEntry hash = some entry →
    ∃ block tx receipt, Located db hash entry block tx receipt

theorem indexSound_of_allLocated {db : Database} (h : AllLocated db) (hash : Hash) : IndexSound db hash := by
  constructor
  · intro entry hentry
    obtain ⟨block, tx, receipt, hlocated⟩ := h hash entry hentry
    exact ⟨block, tx, receipt, hlocated, hlocated.getTransactionByHash_eq hentry,
      hlocated.getTransactionReceipt_eq hentry⟩
  · intro hentry
    simp [getTransactionByHash, getTransactionReceipt, hentry]

theorem aligned_getElem? {txs : List Transaction} {rs : List Receipt} (h : ReceiptsAligned txs rs) {i : ℕ}
    {tx : Transaction} (htx : txs[i]? = some tx) : ∃ r, rs[i]? = some r ∧ r.txHash = tx.hash := by
  have hmap := congrArg (fun l => l[i]?) h.hashes
  rw [List.getElem?_map, List.getElem?_map, htx] at hmap
  obtain ⟨r, hr, hhash⟩ := Option.map_eq_some_iff.mp hmap
  exact ⟨r, hr, hhash⟩

theorem applied_aligned (h : Applied e b receipts) :
    ∃ rs, receipts = some rs ∧ ReceiptsAligned b.transactions rs := by
  obtain ⟨ctx, s, res, ⟨run, hrun, -, rfl⟩, hreceipts⟩ := h
  obtain ⟨log, hlog⟩ := Executor.runWaves_iff_logBlock.mp hrun
  exact ⟨_, hreceipts, hlog.aligned⟩

theorem allLocated_addBlock (hlocated : AllLocated bc.db) (hadd : bc.addBlock S b receipts = .ok bc')
    (happlied : Applied e b receipts) (hb : b.unmarshals) (hlen : b.transactions.length < 2 ^ 64) :
    AllLocated bc'.db := by
  have hadded := Blockchain.added_of_addBlock hadd
  intro hash entry hentry
  rw [readTxLookupEntry_addBlock hadd] at hentry
  cases hlookup : (DbCall.writeTxLookupEntries b).lookup S hash with
  | some new =>
    obtain ⟨i, tx, htx, hhash, rfl⟩ := lookup_eq_some hlookup
    rw [hlookup] at hentry
    obtain rfl : lookupEntry S b i = entry := Option.some.inj hentry
    obtain ⟨rs, rfl, haligned⟩ := applied_aligned happlied
    obtain ⟨r, hr, hrhash⟩ := aligned_getElem? haligned htx
    have hi : (lookupEntry S b i).txIndex.toNat = i := by
      have hlt := (List.getElem?_eq_some_iff.mp htx).1
      exact Nat.mod_eq_of_lt (by omega)
    refine ⟨b, tx, r, ?_, rfl, by rw [hi, htx], hhash, ⟨rs, ?_, by rw [hi, hr]⟩, hrhash.trans hhash⟩
    · exact hadded.readBlock_new hb
    · rw [readReceipts_addBlock hadd]
      exact if_pos rfl
  | none =>
    rw [hlookup, Option.none_or] at hentry
    obtain ⟨block, tx, r, hold⟩ := hlocated hash entry hentry
    -- A stored block is never replaced, so its receipts are not either.
    have hne : entry.blockHash ≠ S.headerHash b.header := by
      intro heq
      have hstored := hold.stored
      rw [heq, hadded.new] at hstored
      cases hstored
    refine ⟨block, tx, r, { hold with stored := ?_, receipts := ?_ }⟩
    · rw [hadded.block, if_neg hne, hold.stored]
    · rw [readReceipts_addBlock hadd, if_neg hne]
      exact hold.receipts

theorem allLocated_commit {db : Database} (h : AllLocated db) (s : StateDB) : AllLocated (db.write s.commit.2) := by
  intro hash entry hentry
  have hblock (hash : Hash) : (db.write s.commit.2).readBlock hash = db.readBlock hash :=
    Database.readBlock_congr (Database.write_commit_ne db s (by decide) (by decide) _)
  have hreceipts (hash : Hash) : (db.write s.commit.2).readReceipts hash = db.readReceipts hash := by
    rw [Database.readReceipts, Database.readReceipts, Database.write_commit_ne db s (by decide) (by decide)]
  rw [Database.readTxLookupEntry, Database.write_commit_ne db s (by decide) (by decide)] at hentry
  obtain ⟨block, tx, receipt, hlocated⟩ := h hash entry hentry
  refine ⟨block, tx, receipt, { hlocated with stored := ?_, receipts := ?_ }⟩
  · rw [hblock, hlocated.stored]
  · rw [hreceipts]
    exact hlocated.receipts

/-- A block that does not decode would let another one take its place under the same hash. -/
theorem transaction_index_sound (e : Executor) (S : Sealing) (start : Blockchain)
    (hstart : ∀ hash, start.db.readTxLookupEntry hash = none) (writes : List ChainWrite)
    (happlied : ∀ b receipts, ChainWrite.addBlock b receipts ∈ writes →
      Applied e b receipts ∧ b.unmarshals ∧ b.transactions.length < 2 ^ 64)
    (bc : Blockchain) (hrun : writes.foldlM (ChainWrite.apply S) start = some bc) (hash : Hash) :
    IndexSound bc.db hash := by
  have hlocated : AllLocated bc.db := by
    refine ChainWrite.run_invariant (I := fun bc => AllLocated bc.db) ?_ ?_ ?_ hrun
    · intro bc bc' b receipts hmem hbc hadd
      obtain ⟨happ, hb, hlen⟩ := happlied b receipts hmem
      exact allLocated_addBlock hbc hadd happ hb hlen
    · intro bc s hbc
      exact allLocated_commit hbc s
    · intro hash entry hentry
      rw [hstart] at hentry
      cases hentry
  exact indexSound_of_allLocated hlocated hash

end Index

section Sample

def gweiBlock (time : UInt64) (txs : List Transaction) : Block := { clockBlock 1 time with transactions := txs }

theorem applied_gweiBlock {txs : List Transaction} (h : Executor.Harmless gweiContext txs) (s : StateDB)
    (time : UInt64) : ∃ receipts, Applied .ideal (gweiBlock time txs) (some receipts) := by
  obtain ⟨res, hres⟩ := (h.returns .ideal s).result
  exact ⟨_, gweiContext, s, res, hres, rfl⟩

theorem harmless_gweiPayment : Executor.Harmless gweiContext [gweiPayment] :=
  ⟨by decide, by decide, by decide, by simp [schedule_singleton]⟩

theorem transaction_index_sound_fork : ∃ receipts receipts' bc,
    [ChainWrite.addBlock (gweiBlock 1 gweiPayments) (some receipts),
        ChainWrite.addBlock (gweiBlock 2 [gweiPayment]) (some receipts')].foldlM (ChainWrite.apply clockSealing)
      ⟨.empty, none⟩ = some bc ∧
    bc.db.readTxLookupEntry gweiPayment.hash = some (lookupEntry clockSealing (gweiBlock 2 [gweiPayment]) 0) ∧
    bc.db.readTxLookupEntry (addressKey 0xa2) = some (lookupEntry clockSealing (gweiBlock 1 gweiPayments) 1) ∧
    ∀ hash, IndexSound bc.db hash := by
  obtain ⟨receipts, happlied⟩ := applied_gweiBlock harmless_gweiPayments gweiSpenders 1
  obtain ⟨receipts', happlied'⟩ := applied_gweiBlock harmless_gweiPayment gweiSpenders 2
  refine ⟨receipts, receipts', _, rfl, by rfl, by rfl, ?_⟩
  refine transaction_index_sound .ideal clockSealing ⟨.empty, none⟩ (fun _ => rfl)
    [.addBlock (gweiBlock 1 gweiPayments) (some receipts), .addBlock (gweiBlock 2 [gweiPayment]) (some receipts')] ?_ _ rfl
  intro b rs hmem
  simp only [List.mem_cons, List.not_mem_nil, or_false, ChainWrite.addBlock.injEq] at hmem
  obtain ⟨rfl, rfl⟩ | ⟨rfl, rfl⟩ := hmem
  · exact ⟨happlied, by decide +kernel, by decide⟩
  · exact ⟨happlied', by decide +kernel, by decide⟩

end Sample

end Zephyria
