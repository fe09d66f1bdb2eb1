import Zephyria.ChainState
import Zephyria.Durability
import Zephyria.HeaderAgreement

namespace Zephyria

open Relation

/-- One write to LevelDB, which a crash leaves done or not done. -/
inductive DbWrite where
  | batch (entries : List (Bytes × Bytes))
  | put (key : Bytes) (r : Record)

def Database.apply (db : Database) : DbWrite → Database
  | .batch entries => db.write entries
  | .put key r => db.put key r

def Database.applyAll (db : Database) (ws : List DbWrite) : Database := ws.foldl Database.apply db

section Writes

variable (S : Sealing)

def addBlockWrites (bc : Blockchain) (b : Block) (receipts : Option (List Receipt)) : List DbWrite :=
  let hash := S.headerHash b.header
  if (bc.db.readBlock hash).isSome then []
  else
    [DbWrite.put (blockBodyPrefix :: hashBytes hash) (.block b)] ++
      (receipts.map fun receipts => DbWrite.put (blockReceiptsPrefix :: hashBytes hash) (.receipts receipts)).toList ++
      b.transactions.zipIdx.map (fun t => DbWrite.put (txLookupPrefix :: hashBytes t.1.hash)
        (.lookup ⟨hash, UInt64.ofNat b.header.number, UInt64.ofNat t.2⟩)) ++
      (if bc.isNewer b then [DbWrite.put headBlockKey (.raw (hashBytes hash))] else []) ++
      [DbWrite.put (canonicalKey (UInt64.ofNat b.header.number)) (.raw (hashBytes hash))]

def persistWrites (n : Node) (b : Block) (receipts : List Receipt) : List DbWrite :=
  .batch n.state.commit.2 ::
    addBlockWrites S { n.bc with db := n.bc.db.write n.state.commit.2 } b (some receipts)

theorem applyAll_addBlockWrites (bc : Blockchain) (b : Block) (receipts : Option (List Receipt)) :
    bc.db.applyAll (addBlockWrites S bc b receipts) =
      match bc.addBlock S b receipts with
      | .ok bc => bc.db
      | .error _ => bc.db := by
  unfold addBlockWrites Blockchain.addBlock
  dsimp only
  split
  · rfl
  · rw [Database.applyAll, List.foldl_append, List.foldl_append, List.foldl_append, List.foldl_append,
      List.foldl_map]
    cases receipts <;> split <;> rfl

theorem applyAll_persistWrites (n : Node) (b : Block) (receipts : List Receipt) :
    n.bc.db.applyAll (persistWrites S n b receipts) = (Node.persistBlock S n b receipts).bc.db := by
  have h := applyAll_addBlockWrites S { n.bc with db := n.bc.db.write n.state.commit.2 } b (some receipts)
  unfold Node.persistBlock persistState
  dsimp only
  split
  next bc hadd =>
    rw [hadd] at h
    exact h
  next err hadd =>
    rw [hadd] at h
    exact h

end Writes

theorem Database.SameState.trans {db db' db'' : Database} (h : db.SameState db') (h' : db'.SameState db'') :
    db.SameState db'' :=
  ⟨h'.leaf.trans h.leaf, h'.code.trans h.code⟩

section AddBlock

variable {S : Sealing} {bc bc' : Blockchain} {b : Block} {receipts : Option (List Receipt)}

theorem addBlock_eq (h : bc.addBlock S b receipts = .ok bc') (hnewer : bc.isNewer b) :
    bc'.db = ((bc.db.storeBlock (S.headerHash b.header) b receipts).writeHeadBlockHash
      (S.headerHash b.header)).writeCanonicalHash (UInt64.ofNat b.header.number) (S.headerHash b.header) := by
  rw [(Blockchain.addBlock_inv h).2.2, if_pos hnewer]

theorem readHeadBlockHash_addBlock (h : bc.addBlock S b receipts = .ok bc') (hnewer : bc.isNewer b) :
    bc'.db.readHeadBlockHash = S.headerHash b.header := by
  rw [addBlock_eq h hnewer, Database.readHeadBlockHash, Database.writeCanonicalHash, Database.getRaw_put,
    Database.writeHeadBlockHash, Database.getRaw_put, if_pos rfl]
  -- Number `headNumber` has the key of the head itself, which then gets the same hash twice.
  split <;> exact bytesToHash_hashBytes _

theorem sameState_addBlock (h : bc.addBlock S b receipts = .ok bc') (hnewer : bc.isNewer b) :
    bc.db.SameState bc'.db := by
  rw [addBlock_eq h hnewer]
  apply (Database.sameState_storeBlock bc.db _ b receipts).trans
  apply (Database.sameState_writeHeadBlockHash _ _).trans
  exact Database.sameState_writeCanonicalHash _ _ _

end AddBlock

theorem Newer.isNewer {bc : Blockchain} {b : Block} (h : Newer bc b) : bc.isNewer b := by
  obtain ⟨current, hcur, hnumber, -⟩ := h
  simpa [Blockchain.isNewer, hcur] using hnumber

structure Tied (stored : Bytes → Bytes) (s : StateDB) : Prop where
  coherent : Coherent s
  clean : ∀ key, s.own.dirty.lookup key = none → s.getVerkleValue key = stored key

def NoStaleZero (s : StateDB) : Prop :=
  ∀ key, s.own.dirty.lookup key = some [] → s.commit.1.getVerkleValue key = []

section Tied

variable {stored : Bytes → Bytes} {s : StateDB} {db db' : Database}

theorem Tied.setVerkleValue (h : Tied stored s) (key value : Bytes) : Tied stored (s.setVerkleValue key value) := by
  refine ⟨coherent_setVerkleValue h.coherent key value, fun k hk => ?_⟩
  rw [own_setVerkleValue, lookup_insert_ite] at hk
  split at hk
  next => cases hk
  next hne =>
    rw [StateDB.getVerkleValue_setVerkleValue, Function.update_of_ne hne]
    exact h.clean k hk

theorem Tied.addCode (h : Tied stored s) (entries : List (Σ _ : Hash, Bytes)) : Tied stored (s.addCode entries) := by
  refine ⟨coherent_addCode h.coherent entries, fun key hk => ?_⟩
  rw [own_addCode] at hk
  rw [StateDB.getVerkleValue_addCode]
  exact h.clean key hk

theorem Tied.applyBlock {e : Executor} {ctx : BlockContext} {txs : List Transaction} {res : AppliedBlock}
    (h : Tied stored s) (happly : e.ApplyBlock ctx s txs res) : Tied stored res.statedb :=
  e.applyBlock_invariant ctx (fun _ key value hs => hs.setVerkleValue key value)
    (fun _ entries hs => hs.addCode entries) h happly

theorem getVerkleValue_of_dirty {key v : Bytes} (h : s.own.dirty.lookup key = some v) :
    s.getVerkleValue key = v := by
  cases s with
  | base tree own =>
    change (own.dirty.lookup key).getD _ = v
    rw [show own.dirty.lookup key = some v from h]
    rfl
  | overlay parent own =>
    change (own.dirty.lookup key).getD _ = v
    rw [show own.dirty.lookup key = some v from h]
    rfl

theorem Tied.reload (h : Tied (StateDB.new db).getVerkleValue s)
    (hs : (db.write s.commit.2).SameState db') : (StateDB.new db').getVerkleValue = s.getVerkleValue := by
  funext key
  change (db'.leaf key).getD [] = s.getVerkleValue key
  rw [hs.leaf, Database.leaf_write_commit]
  cases hd : s.own.dirty.lookup key with
  | none => exact (h.clean key hd).symm
  | some v => exact (getVerkleValue_of_dirty hd).symm

theorem Tied.commit (h : Tied (StateDB.new db).getVerkleValue s) (hz : NoStaleZero s)
    (hs : (db.write s.commit.2).SameState db') : Tied (StateDB.new db').getVerkleValue s.commit.1 := by
  refine ⟨coherent_commit h.coherent, fun key _ => ?_⟩
  rw [h.reload hs]
  by_cases hd : s.own.dirty.lookup key = some []
  · rw [hz key hd, getVerkleValue_of_dirty hd]
  · exact getVerkleValue_commit h.coherent hd

theorem Tied.book_reload (K : Keccak256) (h : Tied (StateDB.new db).getVerkleValue s)
    (hs : (db.write s.commit.2).SameState db') : Store.book K (.reload db') = Store.book K ⟨s, db⟩ := by
  have hread := h.reload hs
  have hcode (a : Address) : ((StateDB.new db').getCode K db' a).1 = (s.getCode K db a).1 := by
    rw [getCode_fst, getCode_fst, hread, hs.code]
    change (if _ then [] else ((db.write s.commit.2).code _).getD []) = _
    rw [Database.code_write_commit]
  change Book.mk (accounts K (StateDB.new db').getVerkleValue) _ = Book.mk (accounts K s.getVerkleValue) _
  rw [hread]
  exact congrArg (Book.mk _) (funext hcode)

theorem tied_new (db : Database) : Tied (StateDB.new db).getVerkleValue (StateDB.new db) :=
  ⟨fun _ _ hk => (nomatch hk), fun _ _ => rfl⟩

theorem Tied.book_commit (K : Keccak256) (h : Tied (StateDB.new db).getVerkleValue s) (hz : NoStaleZero s) :
    Store.book K (.reload (db.write s.commit.2)) = Store.book K ⟨s.commit.1, db.write s.commit.2⟩ := by
  have hs : (db.write s.commit.2).SameState (db.write s.commit.2) := ⟨rfl, rfl⟩
  have hread : (StateDB.new (db.write s.commit.2)).getVerkleValue = s.commit.1.getVerkleValue := by
    funext key
    exact ((h.commit hz hs).clean key (by rw [own_commit]; rfl)).symm
  have hcode (a : Address) : ((StateDB.new (db.write s.commit.2)).getCode K (db.write s.commit.2) a).1 =
      (s.commit.1.getCode K (db.write s.commit.2) a).1 := by
    have hor (x y : Option Bytes) : x.or y = x.or (x.or y) := by cases x <;> rfl
    rw [getCode_fst, getCode_fst, hread, own_commit]
    change (if _ then [] else ((db.write s.commit.2).code _).getD []) = _
    rw [Database.code_write_commit, ← hor]
  change Book.mk (accounts K (StateDB.new (db.write s.commit.2)).getVerkleValue) _ = Book.mk _ _
  rw [hread]
  exact congrArg (Book.mk _) (funext hcode)

end Tied

section Allocation

variable (e : Executor) (S : Sealing) (cfg : NetworkConfig)

def allocated (db : Database) : StateDB :=
  (genesisAlloc cfg).foldl (fun s g => (StateDB.exec (setBalance e.keccak g.1 g.2) s).2) (StateDB.new db)

theorem genesisAlloc_ne_zero : ∀ g ∈ genesisAlloc cfg, g.2 ≠ 0 := by
  simp [genesisAlloc]

theorem minimal_ne_nil {v : U256} (h : v ≠ 0) : BigEndian.minimal 32 v.toNat ≠ [] := by
  intro hnil
  have hv := decodeBalance_minimal v
  rw [hnil] at hv
  exact h hv.symm

theorem allocated_tied (db : Database) : Tied (StateDB.new db).getVerkleValue (allocated e cfg db) ∧
    NoStaleZero (allocated e cfg db) := by
  have hall (gs : List (Address × U256)) (hgs : ∀ g ∈ gs, g.2 ≠ 0) (s : StateDB)
      (hs : Tied (StateDB.new db).getVerkleValue s ∧ ∀ key, s.own.dirty.lookup key ≠ some []) :
      Tied (StateDB.new db).getVerkleValue
          (gs.foldl (fun s g => (StateDB.exec (setBalance e.keccak g.1 g.2) s).2) s) ∧
        ∀ key, (gs.foldl (fun s g => (StateDB.exec (setBalance e.keccak g.1 g.2) s).2) s).own.dirty.lookup
          key ≠ some [] := by
    induction gs generalizing s with
    | nil => exact hs
    | cons g gs ih =>
      obtain ⟨hg, hgs⟩ := List.forall_mem_cons.mp hgs
      apply ih hgs
      refine ⟨hs.1.setVerkleValue _ _, fun key hk => ?_⟩
      change (s.setVerkleValue (balanceKey e.keccak g.1) (BigEndian.minimal 32 g.2.toNat)).own.dirty.lookup
        key = some [] at hk
      rw [own_setVerkleValue, lookup_insert_ite] at hk
      split at hk
      next => exact minimal_ne_nil hg (Option.some.inj hk)
      next => exact hs.2 key hk
  obtain ⟨htied, hfilled⟩ := hall (genesisAlloc cfg) (genesisAlloc_ne_zero cfg) (StateDB.new db)
    ⟨tied_new db, fun _ hk => (nomatch hk)⟩
  exact ⟨htied, fun key hk => absurd hk (hfilled key)⟩

variable {e S cfg} in
theorem start_allocated {n : Node} (h : Node.start e S cfg .empty = some n) :
    n.bc.db = (initializeGenesis e S cfg .empty).db.write
        (allocated e cfg (initializeGenesis e S cfg .empty).db).commit.2 ∧
      n.state = (allocated e cfg (initializeGenesis e S cfg .empty).db).commit.1 := by
  have hheight : ((initializeGenesis e S cfg .empty).currentBlock.map
      fun head => UInt64.ofNat head.header.number).getD 0 = 0 := by
    rw [(onlyGenesis_initializeGenesis e S cfg).current]
    rfl
  obtain rfl := Node.start_empty_inv h
  unfold Node.serve
  dsimp only
  rw [if_pos hheight]
  exact ⟨rfl, rfl⟩

theorem readHeadBlockHash_write_commit (db : Database) (s : StateDB) :
    (db.write s.commit.2).readHeadBlockHash = db.readHeadBlockHash := by
  have hkey : db.write s.commit.2 headBlockKey = db headBlockKey :=
    Database.write_commit_ne db s (by decide) (by decide) _
  rw [Database.readHeadBlockHash, Database.readHeadBlockHash, Database.getRaw, Database.getRaw, hkey]

end Allocation

/-- A running node with all it has written since its start. `history` has each block it has executed
and the state, seen over the database of that moment, that this led to. -/
structure Logged where
  node : Node
  writes : List DbWrite
  history : List (Block × Book)

namespace Logged

inductive Event where
  | silent (event : Node.Event)
  | imported (d : Delivery) (res : AppliedBlock)
  | executed (txs : List Transaction) (time : UInt64)
  | persisted

def start (K : Keccak256) (n : Node) : Logged where
  node := n
  writes := []
  history := n.bc.currentBlock.toList.map fun genesis => (genesis, Store.book K ⟨n.state, n.bc.db⟩)

variable (e : Executor) (S : Sealing) (cfg : NetworkConfig)

inductive Step : Logged → Event → Logged → Prop
  | silent {l : Logged} {event : Node.Event} {node : Node} (h : Node.Step e S cfg l.node event node)
      (hbc : node.bc = l.node.bc) (hstate : node.state = l.node.state)
      (hpending : node.pending = l.node.pending) : Step l (.silent event) { l with node := node }
  | imported {l : Logged} {d : Delivery} {res : AppliedBlock} {node : Node} (hlock : l.node.pending = none)
      (h : Node.Imports e S l.node d res node) :
      Step l (.imported d res)
        { node := node
          writes := l.writes ++ persistWrites S { l.node with state := res.statedb }
            { d.block with header := { d.block.header with verkleRoot := res.root } } res.receipts
          history := l.history ++ [({ d.block with header := { d.block.header with verkleRoot := res.root } },
            Store.book e.keccak ⟨res.statedb, l.node.bc.db⟩)] }
  | executed {l : Logged} {parent : Block} {txs : List Transaction} {time : UInt64} {fee : ℕ}
      {res : AppliedBlock} (hlock : l.node.pending = none) (hparent : l.node.parent = some parent)
      (hfee : calcBaseFee parent.header = some fee)
      (happly : e.ApplyBlock (l.node.bc.blockContext S (Node.newHeader S cfg parent time fee)) l.node.state
        txs res) :
      Step l (.executed txs time)
        { node := { l.node with
            state := res.statedb
            parent := none
            pending := some (Node.produceBlock S (Node.newHeader S cfg parent time fee) txs res, res.receipts) }
          writes := l.writes
          history := l.history ++ [(Node.produceBlock S (Node.newHeader S cfg parent time fee) txs res,
            Store.book e.keccak ⟨res.statedb, l.node.bc.db⟩)] }
  | persisted {l : Logged} {b : Block} {receipts : List Receipt} (h : l.node.pending = some (b, receipts)) :
      Step l .persisted
        { l with
          node := Node.persistBlock S { l.node with pending := none } b receipts
          writes := l.writes ++ persistWrites S { l.node with pending := none } b receipts }

def Recovers (db : Database) (history : List (Block × Book)) : Prop :=
  ∃ bc head book, newBlockchain e S cfg db = some bc ∧ bc.currentBlock = some head ∧ (head, book) ∈ history ∧
    Store.book e.keccak (.reload bc.db) = book ∧
    bc.getBlockByNumber (UInt64.ofNat head.header.number) = some head

def Settles (l : Logged) : Event → Prop
  | .imported d res => Newer l.node.bc d.block ∧ NoStaleZero res.statedb
  | .persisted => ∀ b receipts, l.node.pending = some (b, receipts) →
      Newer l.node.bc b ∧ NoStaleZero l.node.state
  | _ => True

def Readable (l : Logged) : Event → Prop
  | .imported d _ => d.block.unmarshals
  | .persisted => ∀ b receipts, l.node.pending = some (b, receipts) → b.unmarshals
  | _ => True

variable {e S cfg} {l l' : Logged}

theorem Step.node {event : Event} (h : Step e S cfg l event l') :
    ∃ event', Node.Step e S cfg l.node event' l'.node := by
  cases h with
  | silent h => exact ⟨_, h⟩
  | imported hlock h =>
    obtain ⟨hpasses, happly, engine, hverify, rfl⟩ := h
    exact ⟨_, .deliver hlock (.imported hpasses.1 hverify happly)⟩
  | executed hlock hparent hfee happly => exact ⟨_, .execute hlock hparent hfee happly⟩
  | persisted h => exact ⟨_, .persist h⟩

theorem exists_step {event : Node.Event} {node : Node} (h : Node.Step e S cfg l.node event node) :
    ∃ event' l', Step e S cfg l event' l' ∧ l'.node = node := by
  have hwhole := h
  cases h with
  | deliver hlock hdeliver =>
    cases hdeliver with
    | skipped => exact ⟨_, _, .silent hwhole rfl rfl rfl, rfl⟩
    | rejected => exact ⟨_, _, .silent hwhole rfl rfl rfl, rfl⟩
    | @imported engine res hskip hverify happly =>
      exact ⟨_, _, .imported hlock ⟨⟨hskip, engine, hverify⟩, happly, engine, hverify, rfl⟩, rfl⟩
  | updateValidators engine => exact ⟨_, _, .silent hwhole rfl rfl rfl, rfl⟩
  | readParent hparent => exact ⟨_, _, .silent hwhole rfl rfl rfl, rfl⟩
  | execute hlock hparent hfee happly => exact ⟨_, _, .executed hlock hparent hfee happly, rfl⟩
  | persist hp => exact ⟨_, _, .persisted hp, rfl⟩

structure Heads (K : Keccak256) (S : Sealing) (bc : Blockchain) (head : Block) (book : Book) : Prop where
  current : bc.currentBlock = some head
  hash : bc.db.readHeadBlockHash = S.headerHash head.header
  book : Store.book K (.reload bc.db) = book

def HeadFound (S : Sealing) (bc : Blockchain) : Prop :=
  ∀ head, bc.currentBlock = some head → bc.db.readBlock (S.headerHash head.header) = some head ∧
    bc.getBlockByNumber (UInt64.ofNat head.header.number) = some head

theorem Heads.recovers (hS : CollisionFree S) {bc : Blockchain} {head : Block} {book : Book}
    {history : List (Block × Book)} (h : Heads e.keccak S bc head book) (hfound : HeadFound S bc)
    (hmem : (head, book) ∈ history) : Recovers e S cfg bc.db history := by
  obtain ⟨hblock, hnumber⟩ := hfound head h.current
  exact ⟨⟨bc.db, some head⟩, head, book, newBlockchain_of_head (hS.ne_zero _) h.hash hblock, rfl, hmem, h.book,
    hnumber⟩

theorem headFound_persistBlock (hS : CollisionFree S) {n : Node} (hw : WellStored S n.bc) {b : Block}
    (hb : Newer n.bc b) (hread : b.unmarshals) (receipts : List Receipt) :
    HeadFound S (Node.persistBlock S n b receipts).bc := by
  have hadded := Node.added_persistBlock hS hw hb receipts
  intro head hhead
  obtain rfl := Option.some.inj ((hb.current hadded).symm.trans hhead)
  exact ⟨hadded.readBlock_new hread, hadded.getBlockByNumber_new (hS.ne_zero _) hread⟩

theorem HeadFound.step (hS : CollisionFree S) (hw : WellStored S l.node.bc) (h : HeadFound S l.node.bc)
    {event : Event} (hsettles : l.Settles event) (hreads : l.Readable event) (hstep : Step e S cfg l event l') :
    HeadFound S l'.node.bc := by
  cases hstep with
  | silent _ hbc => rwa [hbc]
  | @imported d res node hlock himports =>
    obtain ⟨-, -, engine, -, rfl⟩ := himports
    have hb : Newer l.node.bc { d.block with header := { d.block.header with verkleRoot := res.root } } :=
      hsettles.1
    exact headFound_persistBlock (n := { l.node with engine := engine, state := res.statedb }) hS hw hb hreads
      res.receipts
  | executed => exact h
  | @persisted b receipts hp =>
    exact headFound_persistBlock (n := { l.node with pending := none }) hS hw (hsettles b receipts hp).1
      (hreads b receipts hp) receipts

theorem persistBlock_sameState (hS : CollisionFree S) {n : Node} (hw : WellStored S n.bc) {b : Block}
    (hb : Newer n.bc b) (receipts : List Receipt) :
    (n.bc.db.write n.state.commit.2).SameState (Node.persistBlock S n b receipts).bc.db :=
  sameState_addBlock (Node.addBlock_persistBlock hS hw hb receipts) hb.isNewer

theorem persistBlock_heads (K : Keccak256) (hS : CollisionFree S) {n : Node} (hw : WellStored S n.bc)
    (htied : Tied (StateDB.new n.bc.db).getVerkleValue n.state) {b : Block} (hb : Newer n.bc b)
    (hz : NoStaleZero n.state) (receipts : List Receipt) :
    WellStored S (Node.persistBlock S n b receipts).bc ∧
      Tied (StateDB.new (Node.persistBlock S n b receipts).bc.db).getVerkleValue
        (Node.persistBlock S n b receipts).state ∧
      Heads K S (Node.persistBlock S n b receipts).bc b (Store.book K ⟨n.state, n.bc.db⟩) := by
  have hadd := Node.addBlock_persistBlock hS hw hb receipts
  have hadded := Node.added_persistBlock hS hw hb receipts
  have hstate := persistBlock_sameState hS hw hb receipts
  refine ⟨hw.added hb hadded, htied.commit hz hstate, ?_⟩
  exact ⟨hb.current hadded, readHeadBlockHash_addBlock hadd hb.isNewer, htied.book_reload K hstate⟩

/-- The invariant between blocks: everything is on disk but the dirty leaves of a pending block. -/
structure OnDisk (e : Executor) (S : Sealing) (db : Database) (l : Logged) : Prop where
  db : l.node.bc.db = db.applyAll l.writes
  stored : WellStored S l.node.bc
  tied : Tied (StateDB.new l.node.bc.db).getVerkleValue l.node.state
  head : ∃ head book, Heads e.keccak S l.node.bc head book ∧ (head, book) ∈ l.history
  pending : ∀ b receipts, l.node.pending = some (b, receipts) →
    (b, Store.book e.keccak ⟨l.node.state, l.node.bc.db⟩) ∈ l.history

variable {db : Database}

theorem applyAll_append (db : Database) (ws ws' : List DbWrite) :
    db.applyAll (ws ++ ws') = (db.applyAll ws).applyAll ws' := by
  rw [Database.applyAll, List.foldl_append]
  rfl

theorem OnDisk.silent (h : OnDisk e S db l) {node : Node} (hbc : node.bc = l.node.bc)
    (hstate : node.state = l.node.state) (hpending : node.pending = l.node.pending) :
    OnDisk e S db { l with node := node } := by
  obtain ⟨hdb, hstored, htied, hhead, hpend⟩ := h
  rw [← hbc] at hdb hstored htied hhead hpend
  rw [← hstate] at htied hpend
  rw [← hpending] at hpend
  exact ⟨hdb, hstored, htied, hhead, hpend⟩

theorem OnDisk.imported (hS : CollisionFree S) (h : OnDisk e S db l) {d : Delivery} {res : AppliedBlock}
    {node : Node} (hlock : l.node.pending = none) (himports : Node.Imports e S l.node d res node)
    (hnewer : Newer l.node.bc d.block) (hz : NoStaleZero res.statedb) :
    OnDisk e S db
      { node := node
        writes := l.writes ++ persistWrites S { l.node with state := res.statedb }
          { d.block with header := { d.block.header with verkleRoot := res.root } } res.receipts
        history := l.history ++ [({ d.block with header := { d.block.header with verkleRoot := res.root } },
          Store.book e.keccak ⟨res.statedb, l.node.bc.db⟩)] } := by
  obtain ⟨-, happly, engine, -, rfl⟩ := himports
  let b : Block := { d.block with header := { d.block.header with verkleRoot := res.root } }
  have hb : Newer l.node.bc b := hnewer
  obtain ⟨hstored, htied, hheads⟩ := persistBlock_heads e.keccak hS
    (n := { l.node with engine := engine, state := res.statedb }) h.stored (h.tied.applyBlock happly) hb hz
    res.receipts
  refine ⟨?_, hstored, htied, ⟨b, _, hheads, List.mem_append_right _ List.mem_cons_self⟩, ?_⟩
  · rw [applyAll_append, ← h.db]
    exact (applyAll_persistWrites S { l.node with engine := engine, state := res.statedb } b res.receipts).symm
  · exact fun _ _ hp => (nomatch hlock.symm.trans hp)

theorem OnDisk.persisted (hS : CollisionFree S) (h : OnDisk e S db l) {b : Block} {receipts : List Receipt}
    (hp : l.node.pending = some (b, receipts)) (hnewer : Newer l.node.bc b) (hz : NoStaleZero l.node.state) :
    OnDisk e S db
      { l with
        node := Node.persistBlock S { l.node with pending := none } b receipts
        writes := l.writes ++ persistWrites S { l.node with pending := none } b receipts } := by
  obtain ⟨hstored, htied, hheads⟩ := persistBlock_heads e.keccak hS (n := { l.node with pending := none })
    h.stored h.tied hnewer hz receipts
  refine ⟨?_, hstored, htied, ⟨b, _, hheads, h.pending b receipts hp⟩, fun _ _ hp => (nomatch hp)⟩
  rw [applyAll_append, ← h.db]
  exact (applyAll_persistWrites S { l.node with pending := none } b receipts).symm

theorem OnDisk.step (hS : CollisionFree S) (h : OnDisk e S db l) {event : Event}
    (hsettles : l.Settles event) (hstep : Step e S cfg l event l') : OnDisk e S db l' := by
  cases hstep with
  | silent _ hbc hstate hpending => exact h.silent hbc hstate hpending
  | imported hlock himports => exact h.imported hS hlock himports hsettles.1 hsettles.2
  | executed hlock hparent hfee happly =>
    obtain ⟨head, book, hheads, hmem⟩ := h.head
    refine ⟨h.db, h.stored, h.tied.applyBlock happly, ⟨head, book, hheads, List.mem_append_left _ hmem⟩, ?_⟩
    intro b receipts hp
    obtain ⟨rfl, -⟩ := Prod.mk.inj (Option.some.inj hp)
    exact List.mem_append_right _ List.mem_cons_self
  | @persisted b receipts hp =>
    obtain ⟨hnewer, hz⟩ := hsettles b receipts hp
    exact h.persisted hS hp hnewer hz

theorem heads_start {n : Node} (hstart : Node.start e S cfg .empty = some n) :
    Heads e.keccak S n.bc (genesisOver e cfg .empty) (Store.book e.keccak ⟨n.state, n.bc.db⟩) := by
  obtain ⟨htied, hz⟩ := allocated_tied e cfg (initializeGenesis e S cfg .empty).db
  obtain ⟨hdb, hstate⟩ := start_allocated hstart
  refine ⟨(Node.start_empty hstart).current, ?_, ?_⟩
  · rw [hdb, readHeadBlockHash_write_commit, readHeadBlockHash_initializeGenesis]
  · rw [hdb, hstate]
    exact htied.book_commit e.keccak hz

theorem headFound_start (hS : CollisionFree S) {n : Node} (hstart : Node.start e S cfg .empty = some n) :
    HeadFound S n.bc := by
  have hg := Node.start_empty hstart
  intro head hhead
  obtain rfl := Option.some.inj (hg.current.symm.trans hhead)
  exact ⟨by rw [hg.block, if_pos rfl], hg.getBlockByNumber (hS.ne_zero _)⟩

theorem onDisk_start {n : Node} (hstart : Node.start e S cfg .empty = some n) :
    OnDisk e S n.bc.db (start e.keccak n) := by
  have hg := Node.start_empty hstart
  refine ⟨rfl, .of_onlyGenesis hg, ?_, ⟨_, _, heads_start hstart, ?_⟩, fun b receipts hp => ?_⟩
  · obtain ⟨htied, hz⟩ := allocated_tied e cfg (initializeGenesis e S cfg .empty).db
    obtain ⟨hdb, hstate⟩ := start_allocated hstart
    rw [start, hdb, hstate]
    exact htied.commit hz ⟨rfl, rfl⟩
  · rw [start, hg.current]
    exact List.mem_cons_self
  · rw [show (start e.keccak n).node.pending = none from (Node.start_idle hstart).2.2] at hp
    cases hp

theorem Step.grows {event : Event} (h : Step e S cfg l event l') :
    l.writes <+: l'.writes ∧ l.history <+: l'.history := by
  cases h with
  | silent => exact ⟨List.prefix_rfl, List.prefix_rfl⟩
  | imported => exact ⟨List.prefix_append _ _, List.prefix_append _ _⟩
  | executed => exact ⟨List.prefix_rfl, List.prefix_append _ _⟩
  | persisted => exact ⟨List.prefix_append _ _, List.prefix_rfl⟩

theorem recovers_between_blocks (hS : CollisionFree S) {n₀ : Node}
    (hstart : Node.start e S cfg .empty = some n₀)
    (h : ReflTransGen (fun l l' => ∃ event, (l.Settles event ∧ l.Readable event) ∧ Step e S cfg l event l')
      (start e.keccak n₀) l)
    (h' : ReflTransGen (fun l l' => ∃ event, (l.Settles event ∧ l.Readable event) ∧ Step e S cfg l event l') l l') :
    l.writes <+: l'.writes ∧ Recovers e S cfg (n₀.bc.db.applyAll l.writes) l'.history := by
  have hl : OnDisk e S n₀.bc.db l ∧ HeadFound S l.node.bc :=
    guarded_invariant (I := fun l => OnDisk e S n₀.bc.db l ∧ HeadFound S l.node.bc)
      (fun hl hguard hstep => ⟨hl.1.step hS hguard.1 hstep, hl.2.step hS hl.1.stored hguard.1 hguard.2 hstep⟩)
      ⟨onDisk_start hstart, headFound_start hS hstart⟩ h
  have hgrows : l.writes <+: l'.writes ∧ l.history <+: l'.history := by
    apply guarded_invariant (I := fun l' => l.writes <+: l'.writes ∧ l.history <+: l'.history) _
      ⟨List.prefix_rfl, List.prefix_rfl⟩ h'
    intro l₁ event l₂ hgrown _ hstep
    exact ⟨hgrown.1.trans hstep.grows.1, hgrown.2.trans hstep.grows.2⟩
  obtain ⟨head, book, hheads, hmem⟩ := hl.1.head
  refine ⟨hgrows.1, ?_⟩
  rw [← hl.1.db]
  exact hheads.recovers hS hl.2 (hgrows.2.subset hmem)

end Logged

section Sample

def sampleLog : Logged := .start .ideal sampleNode

def firstBlock : Block := sampleBlock 1 0 genesisHash

def importedLog (engine : ZeliusEngine) : Logged :=
  let res := appliedEmpty firstBlock
  let b : Block := { firstBlock with header := { firstBlock.header with verkleRoot := res.root } }
  { node := Node.importBlock sampleSealing { sampleNode with engine := engine } firstBlock res
    writes := sampleLog.writes ++ persistWrites sampleSealing { sampleNode with state := res.statedb } b res.receipts
    history := sampleLog.history ++ [(b, Store.book .ideal ⟨res.statedb, sampleNode.bc.db⟩)] }

theorem step_importedLog {engine : ZeliusEngine} (hverify : sampleNode.engine.verify Executor.ideal.keccak
      sampleSealing firstBlock = some (.ok (), engine)) :
    Logged.Step .ideal sampleSealing sampleConfig sampleLog (.imported (.syncBlock firstBlock) (appliedEmpty firstBlock))
      (importedLog engine) :=
  .imported rfl ⟨⟨rfl, engine, hverify⟩, (Executor.ideal.applyBlock_nil _ _ _).mpr rfl, engine, hverify, rfl⟩

theorem sampleNode_unpaid : decodeBalance (sampleNode.state.getVerkleValue (balanceKey .ideal 0xc0)) = 0 := by
  obtain ⟨tree, code, hstate, hbalance⟩ := sampleNode_state
  rw [hstate]
  change decodeBalance (tree.get (balanceKey .ideal 0xc0)) = 0
  rw [hbalance]
  rfl

theorem statedb_appliedEmpty (b : Block) (hb : b.header.coinbase = 0xc0) : (appliedEmpty b).statedb =
    sampleNode.state.setVerkleValue (balanceKey .ideal 0xc0)
      (BigEndian.minimal 32 (BitVec.ofNat 256 blockReward).toNat) := by
  change (StateDB.exec (addBalance .ideal b.header.coinbase (BitVec.ofNat 256 (blockReward + 0)))
    sampleNode.state).2 = _
  rw [hb]
  change sampleNode.state.setVerkleValue _ (BigEndian.minimal 32
    (decodeBalance (sampleNode.state.getVerkleValue (balanceKey .ideal 0xc0)) + _).toNat) = _
  rw [sampleNode_unpaid, zero_add, Nat.add_zero]

theorem noStaleZero_appliedEmpty : NoStaleZero (appliedEmpty firstBlock).statedb := by
  obtain ⟨tree, code, hstate, -⟩ := sampleNode_state
  intro key hk
  rw [statedb_appliedEmpty _ rfl, own_setVerkleValue, lookup_insert_ite] at hk
  split at hk
  next => exact absurd (Option.some.inj hk) (minimal_ne_nil (by decide +kernel))
  next =>
    rw [hstate] at hk
    cases hk

theorem settles_importedLog : sampleLog.Settles (.imported (.syncBlock firstBlock) (appliedEmpty firstBlock)) :=
  ⟨⟨sampleGenesis, sampleNode_onlyGenesis.current, Nat.zero_lt_one, by decide⟩, noStaleZero_appliedEmpty⟩

theorem first_block_recovers : ∃ engine, Node.start .ideal sampleSealing sampleConfig .empty = some sampleNode ∧
    Logged.Recovers .ideal sampleSealing sampleConfig (sampleNode.bc.db.applyAll (importedLog engine).writes)
      (importedLog engine).history := by
  obtain ⟨engine, hverify⟩ := sampleNode_verify 1 0 genesisHash
  exact ⟨engine, start_sampleNode, (Logged.recovers_between_blocks sampleSealing_collisionFree start_sampleNode
    (.single ⟨_, ⟨settles_importedLog, rfl⟩, step_importedLog hverify⟩) .refl).2⟩

theorem sampleLog_history :
    sampleLog.history = [(sampleGenesis, Store.book .ideal ⟨sampleNode.state, sampleNode.bc.db⟩)] := by
  rw [sampleLog, Logged.start, sampleNode_onlyGenesis.current]
  rfl

theorem book_of_genesis {engine : ZeliusEngine} {book : Book}
    (h : (sampleGenesis, book) ∈ (importedLog engine).history) :
    book = Store.book .ideal ⟨sampleNode.state, sampleNode.bc.db⟩ := by
  obtain hmem | hmem := List.mem_append.mp h
  · rw [sampleLog_history] at hmem
    exact (Prod.mk.inj (List.mem_singleton.mp hmem)).2
  · have hnumber := congrArg (fun p => p.1.header.number) (List.mem_singleton.mp hmem)
    cases hnumber

def cutDatabase : Database := sampleNode.bc.db.write (appliedEmpty firstBlock).statedb.commit.2

theorem book_appliedEmpty : Store.book .ideal ⟨(appliedEmpty firstBlock).statedb, sampleNode.bc.db⟩ ≠
    Store.book .ideal ⟨sampleNode.state, sampleNode.bc.db⟩ := by
  intro hbook
  have hbalance := congrArg (fun book => book.balance 0xc0) hbook
  change decodeBalance ((appliedEmpty firstBlock).statedb.getVerkleValue (balanceKey .ideal 0xc0)) =
    decodeBalance (sampleNode.state.getVerkleValue (balanceKey .ideal 0xc0)) at hbalance
  rw [sampleNode_unpaid, statedb_appliedEmpty _ rfl, StateDB.getVerkleValue_setVerkleValue,
    Function.update_self, decodeBalance_minimal] at hbalance
  exact absurd hbalance (by decide +kernel)

theorem book_cutDatabase : Store.book .ideal (.reload cutDatabase) ≠
    Store.book .ideal ⟨sampleNode.state, sampleNode.bc.db⟩ := by
  have htied : Tied (StateDB.new sampleNode.bc.db).getVerkleValue (appliedEmpty firstBlock).statedb := by
    rw [statedb_appliedEmpty _ rfl]
    exact (Logged.onDisk_start start_sampleNode).tied.setVerkleValue _ _
  rw [cutDatabase, htied.book_reload .ideal ⟨rfl, rfl⟩]
  exact book_appliedEmpty

theorem newBlockchain_cutDatabase : newBlockchain .ideal sampleSealing sampleConfig cutDatabase =
    some ⟨cutDatabase, some sampleGenesis⟩ := by
  have hsame := sameLookups_persistState (appliedEmpty firstBlock).statedb sampleNode.bc
  apply newBlockchain_of_head (sampleSealing_ne_zero _)
  · rw [cutDatabase, readHeadBlockHash_write_commit, (Logged.heads_start start_sampleNode).hash]
    rfl
  · refine (hsame.block _).trans ?_
    rw [sampleNode_onlyGenesis.block, if_pos rfl]

theorem cut_after_state_batch : ∃ (n₀ : Node) (l : Logged) (ws : List DbWrite),
    Node.start .ideal sampleSealing sampleConfig .empty = some n₀ ∧
    ReflTransGen (fun l l' => ∃ event, Logged.Step .ideal sampleSealing sampleConfig l event l')
      (.start .ideal n₀) l ∧
    ws <+: l.writes ∧ ¬Logged.Recovers .ideal sampleSealing sampleConfig (n₀.bc.db.applyAll ws) l.history := by
  obtain ⟨engine, hverify⟩ := sampleNode_verify 1 0 genesisHash
  refine ⟨sampleNode, importedLog engine, [.batch (appliedEmpty firstBlock).statedb.commit.2], start_sampleNode,
    .single ⟨_, step_importedLog hverify⟩, ⟨_, rfl⟩, ?_⟩
  change ¬Logged.Recovers .ideal sampleSealing sampleConfig cutDatabase _
  rintro ⟨bc, head, book, hnew, hcurrent, hmem, hbook, -⟩
  obtain rfl := Option.some.inj (newBlockchain_cutDatabase.symm.trans hnew)
  obtain rfl := Option.some.inj hcurrent
  exact book_cutDatabase (hbook.trans (book_of_genesis hmem))

end Sample

end Zephyria
