import Zephyria.Executor
import Zephyria.Zelius

namespace Zephyria

def blockBodyPrefix : UInt8 := 98 -- "b"

def blockReceiptsPrefix : UInt8 := 114 -- "r"

def txLookupPrefix : UInt8 := 108 -- "l"

def canonicalPrefix : UInt8 := 72 -- "H"

def headBlockKey : Bytes := [72, 101, 97, 100, 66, 108, 111, 99, 107] -- "HeadBlock"

def canonicalKey (number : UInt64) : Bytes := canonicalPrefix :: BigEndian.fixed 8 number.toNat

namespace Database

variable (db : Database)

def readBlock (hash : Hash) : Option Block :=
  match db (blockBodyPrefix :: hashBytes hash) with
  | some (.block b) => b.unmarshal
  | _ => none

def writeBlock (hash : Hash) (b : Block) : Database := db.put (blockBodyPrefix :: hashBytes hash) (.block b)

def writeReceipts (hash : Hash) (receipts : List Receipt) : Database :=
  db.put (blockReceiptsPrefix :: hashBytes hash) (.receipts receipts)

def writeTxLookupEntries (hash : Hash) (b : Block) : Database :=
  b.transactions.zipIdx.foldl (fun db t => db.put (txLookupPrefix :: hashBytes t.1.hash)
    (.lookup ⟨hash, UInt64.ofNat b.header.number, UInt64.ofNat t.2⟩)) db

def storeBlock (hash : Hash) (b : Block) (receipts : Option (List Receipt)) : Database :=
  let db := db.writeBlock hash b
  let db :=
    match receipts with
    | some receipts => db.writeReceipts hash receipts
    | none => db
  db.writeTxLookupEntries hash b

def readHeadBlockHash : Hash := ((db.getRaw headBlockKey).map bytesToHash).getD 0

def writeHeadBlockHash (hash : Hash) : Database := db.put headBlockKey (.raw (hashBytes hash))

def readCanonicalHash (number : UInt64) : Hash := ((db.getRaw (canonicalKey number)).map bytesToHash).getD 0

def writeCanonicalHash (number : UInt64) (hash : Hash) : Database :=
  db.put (canonicalKey number) (.raw (hashBytes hash))

end Database

structure Blockchain where
  db : Database
  currentBlock : Option Block

inductive ChainError where
  | blockKnown
deriving DecidableEq

namespace Blockchain

variable (S : Sealing) (bc : Blockchain)

def isNewer (b : Block) : Bool :=
  match bc.currentBlock with
  | none => true
  | some current => b.header.number > current.header.number

def addBlock (b : Block) (receipts : Option (List Receipt)) : Except ChainError Blockchain :=
  let hash := S.headerHash b.header
  if (bc.db.readBlock hash).isSome then .error .blockKnown
  else
    let db := bc.db.storeBlock hash b receipts
    let bc : Blockchain :=
      if bc.isNewer b then ⟨db.writeHeadBlockHash hash, some b⟩ else { bc with db := db }
    .ok { bc with db := bc.db.writeCanonicalHash (UInt64.ofNat b.header.number) hash }

def getBlockByHash (hash : Hash) : Option Block := bc.db.readBlock hash

def getBlockByNumber (number : UInt64) : Option Block :=
  let hash := bc.db.readCanonicalHash number
  if hash = 0 then none else bc.db.readBlock hash

def getHash (number : ℕ) (n : UInt64) : Hash :=
  if UInt64.ofNat number > n ∧ UInt64.ofNat number - n ≤ 256 then
    ((bc.getBlockByNumber n).map fun b => S.headerHash b.header).getD 0
  else 0

def blockContext (header : Header) : BlockContext where
  coinbase := header.coinbase
  blockNumber := header.number
  time := header.time
  difficulty := header.difficulty
  gasLimit := header.gasLimit
  baseFee := header.baseFee
  getHash := bc.getHash S header.number
  codes hash := bc.db.getRaw (StateDB.codePrefix :: hashBytes hash)

end Blockchain

def persistState (s : StateDB) (db : Database) : StateDB × Database := (s.commit.1, db.write s.commit.2)

section Genesis

variable (e : Executor) (S : Sealing) (cfg : NetworkConfig) (db : Database)

def creditedState : StateDB :=
  (genesisAlloc cfg).foldl (fun s g => (StateDB.exec (addBalance e.keccak g.1 g.2) s).2) (StateDB.new db)

def genesisOver : Block :=
  { generateGenesisBlock cfg with
    header := { (generateGenesisBlock cfg).header with
      verkleRoot := e.intermediateRoot (creditedState e cfg db).commit.1 } }

def creditedChain : Blockchain := ⟨(persistState (creditedState e cfg db) db).2, none⟩

def initializeGenesis : Blockchain :=
  let genesis := genesisOver e cfg db
  let bc := creditedChain e cfg db
  match bc.addBlock S genesis none with
  | .ok bc => ⟨bc.db.writeHeadBlockHash (S.headerHash genesis.header), some genesis⟩
  | .error _ => ⟨bc.db, some genesis⟩

end Genesis

/-- No result where the head cannot be read: the source prints its number at once. -/
def newBlockchain (e : Executor) (S : Sealing) (cfg : NetworkConfig) (db : Database) : Option Blockchain :=
  let headHash := db.readHeadBlockHash
  if headHash = 0 then some (initializeGenesis e S cfg db)
  else (db.readBlock headHash).map fun head => ⟨db, some head⟩

/-- The number whose canonical key is `"HeadBlock"`. -/
def headNumber : UInt64 := 0x656164426c6f636b

theorem canonicalKey_headNumber : canonicalKey headNumber = headBlockKey := by decide

theorem canonicalKey_injective {m n : UInt64} (h : canonicalKey m = canonicalKey n) : m = n := by
  have hm := m.toNat_lt
  have hn := n.toNat_lt
  exact UInt64.toNat_inj.mp (BigEndian.fixed_injective 8 (by omega) (by omega) (List.cons.inj h).2)

namespace Database

variable (db : Database)

@[simp]
theorem put_self (key : Bytes) (r : Record) : db.put key r key = some r := Function.update_self _ _ _

theorem put_ne {key k : Bytes} (h : k ≠ key) (r : Record) : db.put key r k = db k :=
  Function.update_of_ne h _ _

theorem foldl_put_ne {α : Type} (l : List α) (key : α → Bytes) (r : α → Record) {k : Bytes}
    (h : ∀ x ∈ l, k ≠ key x) : l.foldl (fun db x => db.put (key x) (r x)) db k = db k := by
  induction l generalizing db with
  | nil => rfl
  | cons x l ih =>
    obtain ⟨hx, hl⟩ := List.forall_mem_cons.mp h
    rw [List.foldl_cons, ih _ hl, put_ne db hx]

theorem writeTxLookupEntries_ne (hash : Hash) (b : Block) {p : UInt8} (hp : p ≠ txLookupPrefix)
    (rest : Bytes) : db.writeTxLookupEntries hash b (p :: rest) = db (p :: rest) :=
  foldl_put_ne db _ _ _ fun _ _ h => hp (List.cons.inj h).1

theorem write_commit_ne (s : StateDB) {p : UInt8} (hleaf : p ≠ StateDB.leafPrefix)
    (hcode : p ≠ StateDB.codePrefix) (rest : Bytes) : db.write s.commit.2 (p :: rest) = db (p :: rest) := by
  apply foldl_put_ne db _ _ _
  intro entry hentry h
  rcases List.mem_append.mp hentry with hm | hm
  · obtain ⟨x, -, rfl⟩ := List.mem_map.mp hm
    exact hleaf (List.cons.inj h).1
  · obtain ⟨x, -, rfl⟩ := List.mem_map.mp hm
    exact hcode (List.cons.inj h).1

theorem readBlock_congr {db db' : Database} {hash : Hash}
    (h : db' (blockBodyPrefix :: hashBytes hash) = db (blockBodyPrefix :: hashBytes hash)) :
    db'.readBlock hash = db.readBlock hash := by
  rw [readBlock, readBlock, h]

theorem readCanonicalHash_congr {db db' : Database} {n : UInt64}
    (h : db' (canonicalKey n) = db (canonicalKey n)) : db'.readCanonicalHash n = db.readCanonicalHash n := by
  rw [readCanonicalHash, readCanonicalHash, getRaw, getRaw, h]

theorem storeBlock_ne (hash : Hash) (b : Block) (receipts : Option (List Receipt)) {p : UInt8}
    (hlookup : p ≠ txLookupPrefix) (hreceipts : p ≠ blockReceiptsPrefix) (rest : Bytes)
    (hbody : p :: rest ≠ blockBodyPrefix :: hashBytes hash) :
    db.storeBlock hash b receipts (p :: rest) = db (p :: rest) := by
  unfold storeBlock
  rw [writeTxLookupEntries_ne _ _ _ hlookup]
  cases receipts with
  | none => exact put_ne db hbody _
  | some receipts =>
    exact (put_ne _ (fun h => hreceipts (List.cons.inj h).1) _).trans (put_ne db hbody _)

theorem storeBlock_body (hash : Hash) (b : Block) (receipts : Option (List Receipt)) :
    db.storeBlock hash b receipts (blockBodyPrefix :: hashBytes hash) = some (.block b) := by
  unfold storeBlock
  rw [writeTxLookupEntries_ne _ _ _ (by decide)]
  cases receipts with
  | none => exact put_self _ _ _
  | some receipts =>
    exact (put_ne _ (fun h => absurd (List.cons.inj h).1 (by decide)) _).trans (put_self _ _ _)

theorem readBlock_storeBlock (hash : Hash) (b : Block) (receipts : Option (List Receipt)) (h : Hash) :
    (db.storeBlock hash b receipts).readBlock h = if h = hash then b.unmarshal else db.readBlock h := by
  by_cases hh : h = hash
  · rw [if_pos hh, hh, readBlock, storeBlock_body]
  · rw [if_neg hh]
    exact readBlock_congr (storeBlock_ne db hash b receipts (by decide) (by decide) _
      fun hk => hh (hashBytes_injective (List.cons.inj hk).2))

theorem readBlock_writeHeadBlockHash (hash h : Hash) :
    (db.writeHeadBlockHash hash).readBlock h = db.readBlock h :=
  readBlock_congr (put_ne db (fun hk => absurd (List.cons.inj hk).1 (by decide)) _)

theorem readBlock_writeCanonicalHash (n : UInt64) (hash h : Hash) :
    (db.writeCanonicalHash n hash).readBlock h = db.readBlock h :=
  readBlock_congr (put_ne db (fun hk => absurd (List.cons.inj hk).1 (by decide)) _)

theorem readCanonicalHash_storeBlock (hash : Hash) (b : Block) (receipts : Option (List Receipt))
    (n : UInt64) : (db.storeBlock hash b receipts).readCanonicalHash n = db.readCanonicalHash n :=
  readCanonicalHash_congr (storeBlock_ne db hash b receipts (by decide) (by decide) _
    fun hk => absurd (List.cons.inj hk).1 (by decide))

theorem readCanonicalHash_writeHeadBlockHash (hash : Hash) {n : UInt64} (h : n ≠ headNumber) :
    (db.writeHeadBlockHash hash).readCanonicalHash n = db.readCanonicalHash n :=
  readCanonicalHash_congr (put_ne db (fun hk => h (canonicalKey_injective
    (hk.trans canonicalKey_headNumber.symm))) _)

theorem readCanonicalHash_writeCanonicalHash (m n : UInt64) (hash : Hash) :
    (db.writeCanonicalHash m hash).readCanonicalHash n =
      if n = m then hash else db.readCanonicalHash n := by
  by_cases h : n = m
  · subst h
    rw [if_pos rfl, readCanonicalHash, getRaw, writeCanonicalHash, put_self]
    exact bytesToHash_hashBytes hash
  · rw [if_neg h]
    exact readCanonicalHash_congr (put_ne db (fun hk => h (canonicalKey_injective hk)) _)

end Database

structure Added (S : Sealing) (bc : Blockchain) (b : Block) (bc' : Blockchain) : Prop where
  new : bc.db.readBlock (S.headerHash b.header) = none
  current : bc'.currentBlock = if bc.isNewer b then some b else bc.currentBlock
  block : ∀ hash, bc'.db.readBlock hash =
    if hash = S.headerHash b.header then b.unmarshal else bc.db.readBlock hash
  canonical : bc'.db.readCanonicalHash (UInt64.ofNat b.header.number) = S.headerHash b.header
  other : ∀ n, n ≠ UInt64.ofNat b.header.number → n ≠ headNumber →
    bc'.db.readCanonicalHash n = bc.db.readCanonicalHash n

namespace Blockchain

theorem addBlock_known {S : Sealing} {bc : Blockchain} {b : Block} {receipts : Option (List Receipt)}
    {err : ChainError} (h : bc.addBlock S b receipts = .error err) :
    (bc.db.readBlock (S.headerHash b.header)).isSome := by
  by_contra hn
  simp [addBlock, hn] at h

theorem exists_addBlock {S : Sealing} {bc : Blockchain} {b : Block} (receipts : Option (List Receipt))
    (h : bc.db.readBlock (S.headerHash b.header) = none) : ∃ bc', bc.addBlock S b receipts = .ok bc' := by
  cases hadd : bc.addBlock S b receipts with
  | error err =>
    have hknown := addBlock_known hadd
    rw [h] at hknown
    cases hknown
  | ok bc' => exact ⟨bc', rfl⟩

theorem addBlock_inv {S : Sealing} {bc bc' : Blockchain} {b : Block} {receipts : Option (List Receipt)}
    (h : bc.addBlock S b receipts = .ok bc') :
    bc.db.readBlock (S.headerHash b.header) = none ∧
      bc'.currentBlock = (if bc.isNewer b then some b else bc.currentBlock) ∧
      bc'.db = Database.writeCanonicalHash
        (if bc.isNewer b then
          (bc.db.storeBlock (S.headerHash b.header) b receipts).writeHeadBlockHash (S.headerHash b.header)
        else bc.db.storeBlock (S.headerHash b.header) b receipts)
        (UInt64.ofNat b.header.number) (S.headerHash b.header) := by
  unfold addBlock at h
  dsimp only at h
  split at h
  next => cases h
  next hknown =>
    obtain rfl := Except.ok.inj h
    refine ⟨by simpa using hknown, ?_, ?_⟩
    · dsimp only
      split <;> rfl
    · dsimp only
      split <;> rfl

theorem addBlock_body {S : Sealing} {bc bc' : Blockchain} {b : Block} {receipts : Option (List Receipt)}
    (h : bc.addBlock S b receipts = .ok bc') :
    bc'.db (blockBodyPrefix :: hashBytes (S.headerHash b.header)) = some (.block b) := by
  have hapart (rest rest' : Bytes) : blockBodyPrefix :: rest ≠ canonicalPrefix :: rest' :=
    fun hk => absurd (List.cons.inj hk).1 (by decide)
  rw [(addBlock_inv h).2.2]
  refine (Database.put_ne _ (hapart _ _) _).trans ?_
  split
  · exact (Database.put_ne _ (hapart _ _) _).trans (Database.storeBlock_body _ _ _ _)
  · exact Database.storeBlock_body _ _ _ _

theorem added_of_addBlock {S : Sealing} {bc bc' : Blockchain} {b : Block}
    {receipts : Option (List Receipt)} (h : bc.addBlock S b receipts = .ok bc') : Added S bc b bc' := by
  obtain ⟨hnew, hcurrent, hdb⟩ := addBlock_inv h
  refine ⟨hnew, hcurrent, fun hash => ?_, ?_, fun n hn hhead => ?_⟩
  · rw [hdb, Database.readBlock_writeCanonicalHash, ← Database.readBlock_storeBlock]
    split
    · exact Database.readBlock_writeHeadBlockHash _ _ _
    · rfl
  · rw [hdb, Database.readCanonicalHash_writeCanonicalHash, if_pos rfl]
  · rw [hdb, Database.readCanonicalHash_writeCanonicalHash, if_neg hn]
    split
    · exact (Database.readCanonicalHash_writeHeadBlockHash _ _ hhead).trans
        (Database.readCanonicalHash_storeBlock _ _ _ _ _)
    · exact Database.readCanonicalHash_storeBlock _ _ _ _ _

end Blockchain

section Lookups

variable {S : Sealing}

structure SameLookups (bc bc' : Blockchain) : Prop where
  current : bc'.currentBlock = bc.currentBlock
  block : ∀ hash, bc'.db.readBlock hash = bc.db.readBlock hash
  canonical : ∀ n, bc'.db.readCanonicalHash n = bc.db.readCanonicalHash n

theorem SameLookups.getBlockByNumber {bc bc' : Blockchain} (h : SameLookups bc bc') (n : UInt64) :
    bc'.getBlockByNumber n = bc.getBlockByNumber n := by
  rw [Blockchain.getBlockByNumber, Blockchain.getBlockByNumber, h.canonical, h.block]

theorem sameLookups_persistState (s : StateDB) (bc : Blockchain) :
    SameLookups bc { bc with db := (persistState s bc.db).2 } where
  current := rfl
  block _ := Database.readBlock_congr (Database.write_commit_ne _ s (by decide) (by decide) _)
  canonical _ := Database.readCanonicalHash_congr (Database.write_commit_ne _ s (by decide) (by decide) _)

theorem Added.of_sameLookups {bc bc₁ bc' : Blockchain} {b : Block} (h : SameLookups bc bc₁)
    (ha : Added S bc₁ b bc') : Added S bc b bc' where
  new := by rw [← h.block, ha.new]
  current := by rw [ha.current, Blockchain.isNewer, h.current, Blockchain.isNewer]
  block hash := by rw [ha.block, h.block]
  canonical := ha.canonical
  other n hn hhead := by rw [ha.other n hn hhead, h.canonical]

theorem Added.readBlock_old {bc bc' : Blockchain} {b x : Block} (ha : Added S bc b bc') {hash : Hash}
    (hx : bc.db.readBlock hash = some x) : bc'.db.readBlock hash = some x := by
  rw [ha.block, if_neg, hx]
  intro heq
  rw [heq, ha.new] at hx
  cases hx

theorem Added.getBlockByNumber_old {bc bc' : Blockchain} {b : Block} (ha : Added S bc b bc') {n : UInt64}
    {x : Block} (hn : n ≠ UInt64.ofNat b.header.number) (hhead : n ≠ headNumber)
    (hx : bc.getBlockByNumber n = some x) : bc'.getBlockByNumber n = some x := by
  unfold Blockchain.getBlockByNumber at hx ⊢
  dsimp only at hx ⊢
  rw [ha.other n hn hhead]
  split at hx
  next => cases hx
  next hzero =>
    rw [if_neg hzero]
    exact ha.readBlock_old hx

theorem ofNat_ne {m n : ℕ} (hm : m < 2 ^ 64) (hn : n < 2 ^ 64) (h : m ≠ n) :
    UInt64.ofNat m ≠ UInt64.ofNat n := by
  intro he
  have hnat := congrArg UInt64.toNat he
  rw [UInt64.toNat_ofNat', UInt64.toNat_ofNat'] at hnat
  omega

theorem Added.getBlockByNumber_below {bc bc' : Blockchain} {b x : Block} {k : ℕ} (ha : Added S bc b bc')
    (hbound : b.header.number ≤ headNumber.toNat) (hk : k < b.header.number)
    (hx : bc.getBlockByNumber (UInt64.ofNat k) = some x) : bc'.getBlockByNumber (UInt64.ofNat k) = some x := by
  have hhead : headNumber.toNat < 2 ^ 64 := headNumber.toNat_lt
  refine ha.getBlockByNumber_old (ofNat_ne (by omega) (by omega) (by omega)) ?_ hx
  rw [← UInt64.ofNat_toNat (x := headNumber)]
  exact ofNat_ne (by omega) (by omega) (by omega)

theorem Added.currentBlock_of_newer {bc bc' : Blockchain} {b current : Block} (ha : Added S bc b bc')
    (hcur : bc.currentBlock = some current) (h : b.header.number > current.header.number) :
    bc'.currentBlock = some b := by
  rw [ha.current, if_pos]
  simpa [Blockchain.isNewer, hcur] using h

theorem Added.readBlock_new {bc bc' : Blockchain} {b : Block} (ha : Added S bc b bc') (hb : b.unmarshals) :
    bc'.db.readBlock (S.headerHash b.header) = some b := by
  rw [ha.block, if_pos rfl, Block.unmarshal_of_unmarshals hb]

theorem Added.getBlockByNumber_new {bc bc' : Blockchain} {b : Block} (ha : Added S bc b bc')
    (hzero : S.headerHash b.header ≠ 0) (hb : b.unmarshals) :
    bc'.getBlockByNumber (UInt64.ofNat b.header.number) = some b := by
  unfold Blockchain.getBlockByNumber
  dsimp only
  rw [ha.canonical, if_neg hzero, ha.readBlock_new hb]

end Lookups

structure OnlyGenesis (S : Sealing) (bc : Blockchain) (genesis : Block) : Prop where
  number : genesis.header.number = 0
  current : bc.currentBlock = some genesis
  block : ∀ hash, bc.db.readBlock hash = if hash = S.headerHash genesis.header then some genesis else none
  canonical : bc.db.readCanonicalHash 0 = S.headerHash genesis.header
  unset : ∀ n, n ≠ 0 → n ≠ headNumber → bc.db.readCanonicalHash n = 0

theorem OnlyGenesis.getBlockByNumber {S : Sealing} {bc : Blockchain} {genesis : Block}
    (hg : OnlyGenesis S bc genesis) (hzero : S.headerHash genesis.header ≠ 0) :
    bc.getBlockByNumber 0 = some genesis := by
  unfold Blockchain.getBlockByNumber
  dsimp only
  rw [hg.canonical, if_neg hzero, hg.block, if_pos rfl]

theorem OnlyGenesis.of_sameLookups {S : Sealing} {bc bc' : Blockchain} {genesis : Block}
    (h : SameLookups bc bc') (hg : OnlyGenesis S bc genesis) : OnlyGenesis S bc' genesis where
  number := hg.number
  current := by rw [h.current, hg.current]
  block hash := by rw [h.block, hg.block]
  canonical := by rw [h.canonical, hg.canonical]
  unset n hn hhead := by rw [h.canonical, hg.unset n hn hhead]

section FirstStart

variable (e : Executor) (S : Sealing) (cfg : NetworkConfig)

theorem newBlockchain_empty : newBlockchain e S cfg .empty = some (initializeGenesis e S cfg .empty) :=
  rfl

theorem initializeGenesis_empty :
    ∃ bc, (creditedChain e cfg .empty).addBlock S (genesisOver e cfg .empty) none = .ok bc ∧
      initializeGenesis e S cfg .empty =
        ⟨bc.db.writeHeadBlockHash (S.headerHash (genesisOver e cfg .empty).header),
          some (genesisOver e cfg .empty)⟩ := by
  have hsame : SameLookups ⟨.empty, none⟩ (creditedChain e cfg .empty) :=
    sameLookups_persistState (creditedState e cfg .empty) ⟨.empty, none⟩
  obtain ⟨bc, hadd⟩ := Blockchain.exists_addBlock none
    (hsame.block (S.headerHash (genesisOver e cfg .empty).header))
  refine ⟨bc, hadd, ?_⟩
  unfold initializeGenesis
  dsimp only
  rw [hadd]

theorem onlyGenesis_initializeGenesis :
    OnlyGenesis S (initializeGenesis e S cfg .empty) (genesisOver e cfg .empty) := by
  obtain ⟨bc, hadd, hnew⟩ := initializeGenesis_empty e S cfg
  have hadded : Added S ⟨.empty, none⟩ (genesisOver e cfg .empty) bc :=
    (Blockchain.added_of_addBlock hadd).of_sameLookups
      (sameLookups_persistState (creditedState e cfg .empty) ⟨.empty, none⟩)
  rw [hnew]
  refine ⟨rfl, rfl, fun hash => ?_, ?_, fun n hn hhead => ?_⟩
  · rw [Database.readBlock_writeHeadBlockHash, hadded.block, Block.unmarshal_of_unmarshals rfl]
    rfl
  · rw [Database.readCanonicalHash_writeHeadBlockHash _ _ (by decide)]
    exact hadded.canonical
  · rw [Database.readCanonicalHash_writeHeadBlockHash _ _ hhead, hadded.other n hn hhead]
    rfl

theorem readHeadBlockHash_initializeGenesis : (initializeGenesis e S cfg .empty).db.readHeadBlockHash =
    S.headerHash (genesisOver e cfg .empty).header := by
  obtain ⟨bc, -, hnew⟩ := initializeGenesis_empty e S cfg
  rw [hnew]
  dsimp only
  rw [Database.readHeadBlockHash, Database.getRaw, Database.writeHeadBlockHash, Database.put_self]
  exact bytesToHash_hashBytes _

end FirstStart

theorem newBlockchain_of_head {e : Executor} {S : Sealing} {cfg : NetworkConfig} {db : Database} {head : Block}
    (hzero : S.headerHash head.header ≠ 0) (hhash : db.readHeadBlockHash = S.headerHash head.header)
    (hblock : db.readBlock (S.headerHash head.header) = some head) :
    newBlockchain e S cfg db = some ⟨db, some head⟩ := by
  unfold newBlockchain
  dsimp only
  rw [hhash, if_neg hzero, hblock]
  rfl

end Zephyria
