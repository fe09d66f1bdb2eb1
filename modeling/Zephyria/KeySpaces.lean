import Zephyria.CanonicalIndex
import Zephyria.Codes

namespace Zephyria

namespace Database

variable (db : Database)

def readReceipts (hash : Hash) : Option (List Receipt) :=
  match db (blockReceiptsPrefix :: hashBytes hash) with
  | some (.receipts receipts) => some receipts
  | _ => none

def readTxLookupEntry (txHash : Hash) : Option TxLookupEntry :=
  match db (txLookupPrefix :: hashBytes txHash) with
  | some (.lookup entry) => some entry
  | _ => none

end Database

inductive DbCall where
  | writeBlock (b : Block)
  | writeReceipts (b : Block) (receipts : List Receipt)
  | writeTxLookupEntries (b : Block)
  | writeHeadBlockHash (hash : Hash)
  | writeCanonicalHash (number : UInt64) (hash : Hash)
  | commit (s : StateDB)

def dbCall (S : Sealing) (db : Database) : DbCall → Database
  | .writeBlock b => db.writeBlock (S.headerHash b.header) b
  | .writeReceipts b receipts => db.writeReceipts (S.headerHash b.header) receipts
  | .writeTxLookupEntries b => db.writeTxLookupEntries (S.headerHash b.header) b
  | .writeHeadBlockHash hash => db.writeHeadBlockHash hash
  | .writeCanonicalHash number hash => db.writeCanonicalHash number hash
  | .commit s => db.write s.commit.2

def lookupEntry (S : Sealing) (b : Block) (index : ℕ) : TxLookupEntry :=
  ⟨S.headerHash b.header, UInt64.ofNat b.header.number, UInt64.ofNat index⟩

/- What a call writes for one reader: nothing, if it is of another kind or about another key. -/
namespace DbCall

def block (S : Sealing) (hash : Hash) : DbCall → Option Block
  | .writeBlock b => if hash = S.headerHash b.header then some b else none
  | _ => none

def receipts (S : Sealing) (hash : Hash) : DbCall → Option (List Receipt)
  | .writeReceipts b receipts => if hash = S.headerHash b.header then some receipts else none
  | _ => none

def lookup (S : Sealing) (txHash : Hash) : DbCall → Option TxLookupEntry
  | .writeTxLookupEntries b =>
    lastSet (fun t => if txHash = t.1.hash then some (lookupEntry S b t.2) else none) b.transactions.zipIdx
  | _ => none

def head : DbCall → Option Hash
  | .writeHeadBlockHash hash => some hash
  | _ => none

def canonical (n : UInt64) : DbCall → Option Hash
  | .writeCanonicalHash number hash => if n = number then some hash else none
  | _ => none

def leaf (key : Bytes) : DbCall → Option Bytes
  | .commit s => s.own.dirty.lookup key
  | _ => none

def code (hash : Hash) : DbCall → Option Bytes
  | .commit s => s.own.code.lookup hash
  | _ => none

def marks : DbCall → List UInt8
  | .writeBlock _ => [blockBodyPrefix]
  | .writeReceipts _ _ => [blockReceiptsPrefix]
  | .writeTxLookupEntries _ => [txLookupPrefix]
  | .writeHeadBlockHash _ => [canonicalPrefix]
  | .writeCanonicalHash _ _ => [canonicalPrefix]
  | .commit _ => [StateDB.leafPrefix, StateDB.codePrefix]

end DbCall

structure KeySpacesApart (S : Sealing) (db : Database) (calls : List DbCall) : Prop where
  block : ∀ hash, (calls.foldl (dbCall S) db).readBlock hash =
    (lastSet (DbCall.block S hash) calls).or (db.readBlock hash)
  receipts : ∀ hash, (calls.foldl (dbCall S) db).readReceipts hash =
    (lastSet (DbCall.receipts S hash) calls).or (db.readReceipts hash)
  lookup : ∀ txHash, (calls.foldl (dbCall S) db).readTxLookupEntry txHash =
    (lastSet (DbCall.lookup S txHash) calls).or (db.readTxLookupEntry txHash)
  head : (calls.foldl (dbCall S) db).readHeadBlockHash = (lastSet DbCall.head calls).getD db.readHeadBlockHash
  canonical : ∀ n, (calls.foldl (dbCall S) db).readCanonicalHash n =
    (lastSet (DbCall.canonical n) calls).getD (db.readCanonicalHash n)
  leaf : ∀ key, (StateDB.new (calls.foldl (dbCall S) db)).getVerkleValue key =
    (lastSet (DbCall.leaf key) calls).getD ((StateDB.new db).getVerkleValue key)
  code : ∀ hash, (calls.foldl (dbCall S) db).code hash = (lastSet (DbCall.code hash) calls).or (db.code hash)

section Readers

variable (S : Sealing) (db : Database) (c : DbCall)

theorem dbCall_ne {p : UInt8} (hp : p ∉ c.marks) (rest : Bytes) : dbCall S db c (p :: rest) = db (p :: rest) := by
  cases c with
  | writeBlock | writeReceipts | writeHeadBlockHash | writeCanonicalHash =>
    exact Database.put_ne db (fun hk => hp (List.mem_singleton.mpr (List.cons.inj hk).1)) _
  | writeTxLookupEntries b =>
    exact Database.writeTxLookupEntries_ne db _ b (fun hk => hp (List.mem_singleton.mpr hk)) rest
  | commit s =>
    apply Database.write_commit_ne
    · exact fun hk => hp (hk ▸ List.mem_cons_self)
    · exact fun hk => hp (hk ▸ List.mem_cons_of_mem _ List.mem_cons_self)

theorem Database.put_hash (p : UInt8) (hash : Hash) (r : Record) (h : Hash) :
    db.put (p :: hashBytes hash) r (p :: hashBytes h) = if h = hash then some r else db (p :: hashBytes h) := by
  by_cases hh : h = hash
  · rw [if_pos hh, hh, put_self]
  · rw [if_neg hh, put_ne]
    intro hk
    exact hh (hashBytes_injective (List.cons.inj hk).2)

theorem readBlock_dbCall (hash : Hash) :
    (dbCall S db c).readBlock hash = ((c.block S hash).map Block.unmarshal).getD (db.readBlock hash) := by
  cases c with
  | writeBlock b =>
    rw [dbCall, Database.readBlock, Database.writeBlock, Database.put_hash, DbCall.block]
    by_cases hh : hash = S.headerHash b.header
    · rw [if_pos hh, if_pos hh]
      rfl
    · rw [if_neg hh, if_neg hh]
      rfl
  | _ =>
    simp only [DbCall.block, Option.map_none, Option.getD_none]
    apply Database.readBlock_congr
    apply dbCall_ne
    simp only [DbCall.marks]
    decide

theorem readReceipts_dbCall (hash : Hash) :
    (dbCall S db c).readReceipts hash = (c.receipts S hash).or (db.readReceipts hash) := by
  cases c with
  | writeReceipts b receipts =>
    rw [dbCall, Database.readReceipts, Database.writeReceipts, Database.put_hash, DbCall.receipts]
    by_cases hh : hash = S.headerHash b.header
    · rw [if_pos hh, if_pos hh]
      rfl
    · rw [if_neg hh, if_neg hh]
      rfl
  | _ =>
    simp only [DbCall.receipts, Option.none_or]
    rw [Database.readReceipts, Database.readReceipts, dbCall_ne]
    simp only [DbCall.marks]
    decide

theorem readTxLookupEntry_dbCall (txHash : Hash) :
    (dbCall S db c).readTxLookupEntry txHash = (c.lookup S txHash).or (db.readTxLookupEntry txHash) := by
  cases c with
  | writeTxLookupEntries b =>
    apply observe_foldl_or fun db => Database.readTxLookupEntry db txHash
    intro db t
    rw [Database.readTxLookupEntry, Database.put_hash]
    by_cases hh : txHash = t.1.hash
    · rw [if_pos hh, if_pos hh]
      rfl
    · rw [if_neg hh, if_neg hh]
      rfl
  | _ =>
    simp only [DbCall.lookup, Option.none_or]
    rw [Database.readTxLookupEntry, Database.readTxLookupEntry, dbCall_ne]
    simp only [DbCall.marks]
    decide

theorem leaf_dbCall (key : Bytes) : (dbCall S db c).leaf key = (c.leaf key).or (db.leaf key) := by
  cases c with
  | commit s => exact Database.leaf_write_commit db s key
  | _ =>
    simp only [DbCall.leaf, Option.none_or]
    rw [Database.leaf, Database.leaf, Database.getRaw, Database.getRaw, dbCall_ne]
    simp only [DbCall.marks]
    decide

theorem code_dbCall (hash : Hash) : (dbCall S db c).code hash = (c.code hash).or (db.code hash) := by
  cases c with
  | commit s => exact Database.code_write_commit db s hash
  | _ =>
    simp only [DbCall.code, Option.none_or]
    rw [Database.code, Database.code, Database.getRaw, Database.getRaw, dbCall_ne]
    simp only [DbCall.marks]
    decide

theorem readCanonicalHash_dbCall (n : UInt64) : (dbCall S db c).readCanonicalHash n =
    ((c.canonical n).or (if n = headNumber then c.head else none)).getD (db.readCanonicalHash n) := by
  cases c with
  | writeHeadBlockHash hash =>
    by_cases hn : n = headNumber
    · rw [hn, dbCall, Database.readCanonicalHash_headNumber, if_pos rfl]
      rfl
    · rw [dbCall, Database.readCanonicalHash_writeHeadBlockHash db hash hn, if_neg hn]
      rfl
  | writeCanonicalHash number hash =>
    rw [dbCall, Database.readCanonicalHash_writeCanonicalHash]
    simp only [DbCall.canonical, DbCall.head, ite_self, Option.or_none]
    by_cases hn : n = number
    · rw [if_pos hn, if_pos hn]
      rfl
    · rw [if_neg hn, if_neg hn]
      rfl
  | _ =>
    simp only [DbCall.canonical, DbCall.head, ite_self, Option.or_none, Option.getD_none]
    apply Database.readCanonicalHash_congr
    apply dbCall_ne
    simp only [DbCall.marks]
    decide

end Readers

section Apart

variable (S : Sealing) (db : Database) (calls : List DbCall)

theorem readCanonicalHash_dbCalls {n : UInt64} (hn : n ≠ headNumber) :
    (calls.foldl (dbCall S) db).readCanonicalHash n =
      (lastSet (DbCall.canonical n) calls).getD (db.readCanonicalHash n) := by
  apply observe_foldl fun db => Database.readCanonicalHash db n
  intro db c
  rw [readCanonicalHash_dbCall, if_neg hn, Option.or_none]

theorem readCanonicalHash_headNumber_dbCalls : (calls.foldl (dbCall S) db).readCanonicalHash headNumber =
    (lastSet (fun c => (c.canonical headNumber).or c.head) calls).getD (db.readCanonicalHash headNumber) := by
  apply observe_foldl fun db => Database.readCanonicalHash db headNumber
  intro db c
  rw [readCanonicalHash_dbCall, if_pos rfl]

theorem readHeadBlockHash_eq (db : Database) : db.readHeadBlockHash = db.readCanonicalHash headNumber := by
  rw [Database.readHeadBlockHash, Database.readCanonicalHash, canonicalKey_headNumber]

theorem readBlock_dbCalls (hash : Hash) : (calls.foldl (dbCall S) db).readBlock hash =
    ((lastSet (DbCall.block S hash) calls).map Block.unmarshal).getD (db.readBlock hash) := by
  rw [← lastSet_map]
  exact observe_foldl (fun db => Database.readBlock db hash) (fun db c => readBlock_dbCall S db c hash) db calls

theorem getD_unmarshal_eq_or_iff {last old : Option Block} :
    (last.map Block.unmarshal).getD old = last.or old ↔ ∀ b, last = some b → b.unmarshals := by
  cases last with
  | none => simp
  | some b => simp [Block.unmarshal_eq_some]

/-- The spaces are apart but for one key: the head's hash and the canonical hash of `headNumber` are
stored in the same place, which is right only for as long as the two agree. -/
theorem key_spaces_apart_iff : KeySpacesApart S db calls ↔
    (∀ hash b, lastSet (DbCall.block S hash) calls = some b → b.unmarshals) ∧
      (lastSet DbCall.head calls).getD db.readHeadBlockHash =
        (lastSet (DbCall.canonical headNumber) calls).getD db.readHeadBlockHash := by
  have hshared := readCanonicalHash_headNumber_dbCalls S db calls
  rw [readHeadBlockHash_eq]
  constructor
  · intro h
    have hhead := h.head
    rw [readHeadBlockHash_eq, readHeadBlockHash_eq] at hhead
    refine ⟨fun hash => ?_, by rw [← hhead, ← h.canonical headNumber]⟩
    exact getD_unmarshal_eq_or_iff.mp ((readBlock_dbCalls S db calls hash).symm.trans (h.block hash))
  · rintro ⟨hread, heq⟩
    have hcell : (calls.foldl (dbCall S) db).readCanonicalHash headNumber =
        (lastSet DbCall.head calls).getD (db.readCanonicalHash headNumber) := by
      rw [hshared]
      rcases lastSet_or (DbCall.canonical headNumber) DbCall.head calls with h | h
      · rw [h, heq]
      · rw [h]
    exact
      { block := fun hash => (readBlock_dbCalls S db calls hash).trans
          (getD_unmarshal_eq_or_iff.mpr (hread hash))
        receipts := fun hash => observe_foldl_or (fun db => Database.readReceipts db hash)
          (fun db c => readReceipts_dbCall S db c hash) db calls
        lookup := fun txHash => observe_foldl_or (fun db => Database.readTxLookupEntry db txHash)
          (fun db c => readTxLookupEntry_dbCall S db c txHash) db calls
        head := by rw [readHeadBlockHash_eq, readHeadBlockHash_eq, hcell]
        canonical := fun n => by
          by_cases hn : n = headNumber
          · rw [hn, hcell, heq]
          · exact readCanonicalHash_dbCalls S db calls hn
        leaf := fun key => by
          have hleaf := observe_foldl_or (fun db => Database.leaf db key)
            (fun db c => leaf_dbCall S db c key) db calls
          change ((calls.foldl (dbCall S) db).leaf key).getD [] = _
          rw [hleaf]
          cases lastSet (DbCall.leaf key) calls <;> rfl
        code := fun hash => observe_foldl_or (fun db => Database.code db hash)
          (fun db c => code_dbCall S db c hash) db calls }

theorem head_shares_canonical_key :
    ¬KeySpacesApart clockSealing .empty [.writeHeadBlockHash 1] ∧
      (Database.empty.writeHeadBlockHash 1).readCanonicalHash headNumber = 1 ∧
      ((Database.empty.writeHeadBlockHash 1).writeCanonicalHash headNumber 2).readHeadBlockHash = 2 := by
  refine ⟨fun h => ?_, by decide +kernel, by decide +kernel⟩
  exact absurd (h.canonical headNumber) (by decide +kernel)

end Apart

end Zephyria
