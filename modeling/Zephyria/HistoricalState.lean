import Zephyria.Crash

namespace Zephyria

open Relation

/-- `StateAt` hands its root to `state.New`, which ignores it. -/
def Blockchain.stateAt (bc : Blockchain) (_root : Hash) : StateDB := StateDB.new bc.db

def Logged.committed (l : Logged) : List (Block × Book) :=
  if l.node.pending.isSome then l.history.dropLast else l.history

structure Restored (e : Executor) (bc : Blockchain) (b : Block) (book : Book) : Prop where
  book : Store.book e.keccak ⟨bc.stateAt b.header.verkleRoot, bc.db⟩ = book
  root : e.intermediateRoot (bc.stateAt b.header.verkleRoot) = b.header.verkleRoot

section Roots

variable (e : Executor) {s : StateDB} {db db' : Database}

theorem intermediateRoot_commit (s : StateDB) : e.intermediateRoot s.commit.1 = e.intermediateRoot s := by
  cases s <;> rfl

def Stemmed (stored : Set Bytes) : StateDB → Prop
  | .base tree own => tree.stems = stored ∪ {stem | ∃ key, own.dirty.lookup key ≠ none ∧ key.take 31 = stem}
  | .overlay _ _ => False

theorem stemmed_new (db : Database) : Stemmed (StateDB.storedStems db) (StateDB.new db) := by
  refine (Set.union_eq_left.mpr ?_).symm
  rintro stem ⟨key, hkey, -⟩
  exact absurd rfl hkey

theorem Stemmed.setVerkleValue {stored : Set Bytes} (h : Stemmed stored s) (key value : Bytes) :
    Stemmed stored (s.setVerkleValue key value) := by
  cases s with
  | overlay parent own => exact h
  | base tree own =>
    change insert (key.take 31) tree.stems = _ ∪ {stem | ∃ k, (own.dirty.insert key value).lookup k ≠ none ∧ _}
    rw [show tree.stems = _ from h]
    ext stem
    simp only [Set.mem_insert_iff, Set.mem_union, Set.mem_ofPred_eq, lookup_insert_ite]
    constructor
    · rintro (rfl | hstored | ⟨k, hk, rfl⟩)
      · exact Or.inr ⟨key, by simp, rfl⟩
      · exact Or.inl hstored
      · refine Or.inr ⟨k, ?_, rfl⟩
        split
        · simp
        · exact hk
    · rintro (hstored | ⟨k, hk, rfl⟩)
      · exact Or.inr (Or.inl hstored)
      · split at hk
        next heq => exact Or.inl (congrArg _ heq)
        next => exact Or.inr (Or.inr ⟨k, hk, rfl⟩)

theorem Stemmed.addCode {stored : Set Bytes} (h : Stemmed stored s) (entries : List (Σ _ : Hash, Bytes)) :
    Stemmed stored (s.addCode entries) := by
  cases s with
  | overlay parent own => exact h
  | base tree own => exact h

theorem Stemmed.applyBlock {e : Executor} {stored : Set Bytes} {ctx : BlockContext} {txs : List Transaction}
    {res : AppliedBlock} (h : Stemmed stored s) (happly : e.ApplyBlock ctx s txs res) :
    Stemmed stored res.statedb :=
  e.applyBlock_invariant ctx (fun _ key value hs => hs.setVerkleValue key value)
    (fun _ entries hs => hs.addCode entries) h happly

theorem storedStems_commit (s : StateDB) (hs : (db.write s.commit.2).SameState db') : StateDB.storedStems db' =
    StateDB.storedStems db ∪ {stem | ∃ key, s.own.dirty.lookup key ≠ none ∧ key.take 31 = stem} := by
  have hleaf (key : Bytes) : db'.leaf key ≠ none ↔ s.own.dirty.lookup key ≠ none ∨ db.leaf key ≠ none := by
    rw [hs.leaf, Database.leaf_write_commit]
    cases s.own.dirty.lookup key <;> simp
  ext stem
  constructor
  · rintro ⟨key, rfl, hkey⟩
    obtain hdirty | hstored := (hleaf key).mp hkey
    · exact Or.inr ⟨key, hdirty, rfl⟩
    · exact Or.inl ⟨key, rfl, hstored⟩
  · rintro (⟨key, rfl, hkey⟩ | ⟨key, hkey, rfl⟩)
    · exact ⟨key, rfl, (hleaf key).mpr (Or.inr hkey)⟩
    · exact ⟨key, rfl, (hleaf key).mpr (Or.inl hkey)⟩

theorem Stemmed.commit (h : Stemmed (StateDB.storedStems db) s) (hs : (db.write s.commit.2).SameState db') :
    Stemmed (StateDB.storedStems db') s.commit.1 := by
  have hstored := storedStems_commit s hs
  cases s with
  | overlay parent own => exact h
  | base tree own =>
    refine (h.trans hstored.symm).trans (Set.union_eq_left.mpr ?_).symm
    rintro stem ⟨key, hkey, -⟩
    exact absurd rfl hkey

theorem Tied.root_reload (h : Tied (StateDB.new db).getVerkleValue s) (hstems : Stemmed (StateDB.storedStems db) s)
    (hz : NoStaleZero s) (hs : (db.write s.commit.2).SameState db') :
    e.intermediateRoot (StateDB.new db') = e.intermediateRoot s := by
  have hcommit := h.commit hz hs
  have hstored := storedStems_commit s hs
  cases s with
  | overlay parent own => exact h.coherent.elim
  | base tree own =>
    have hvalues : tree.values = fun key => (db'.getRaw (StateDB.leafPrefix :: key)).getD [] := by
      funext key
      exact hcommit.clean key rfl
    change e.rootHash ⟨fun key => (db'.getRaw (StateDB.leafPrefix :: key)).getD [], StateDB.storedStems db'⟩ =
      e.rootHash tree
    rw [← hvalues, hstored.trans (show tree.stems = _ from hstems).symm]

theorem applyBlock_root {e : Executor} {ctx : BlockContext} {txs : List Transaction} {res : AppliedBlock}
    (h : e.ApplyBlock ctx s txs res) : res.root = e.intermediateRoot res.statedb := by
  obtain ⟨run, -, -, rfl⟩ := h
  rfl

end Roots

section Genesis

variable (K : Keccak256)

theorem balanceKey_injective {a b : Address} (h : balanceKey K a = balanceKey K b) : a = b :=
  (stem_append_injective K h).1

def credits (s : StateDB) (gs : List (Address × U256)) : StateDB :=
  gs.foldl (fun s g => (StateDB.exec (addBalance K g.1 g.2) s).2) s

def allots (s : StateDB) (gs : List (Address × U256)) : StateDB :=
  gs.foldl (fun s g => (StateDB.exec (setBalance K g.1 g.2) s).2) s

variable {K} {s : StateDB} {gs : List (Address × U256)}

theorem credits_cons (g : Address × U256) : credits K s (g :: gs) =
    credits K (s.setVerkleValue (balanceKey K g.1) (BigEndian.minimal 32
      (decodeBalance (s.getVerkleValue (balanceKey K g.1)) + g.2).toNat)) gs :=
  rfl

theorem allots_cons (g : Address × U256) : allots K s (g :: gs) =
    allots K (s.setVerkleValue (balanceKey K g.1) (BigEndian.minimal 32 g.2.toNat)) gs :=
  rfl

theorem credits_eq_allots (hgs : (gs.map Prod.fst).Nodup)
    (hs : ∀ g ∈ gs, decodeBalance (s.getVerkleValue (balanceKey K g.1)) = 0) : credits K s gs = allots K s gs := by
  induction gs generalizing s with
  | nil => rw [credits, allots, List.foldl_nil, List.foldl_nil]
  | cons g gs ih =>
    obtain ⟨hnew, hgs⟩ := List.nodup_cons.mp hgs
    obtain ⟨hg, hrest⟩ := List.forall_mem_cons.mp hs
    rw [credits_cons, allots_cons, hg, zero_add]
    apply ih hgs
    intro g' hg'
    rw [StateDB.getVerkleValue_setVerkleValue, Function.update_of_ne]
    · exact hrest g' hg'
    · intro hkey
      exact hnew (balanceKey_injective K hkey ▸ List.mem_map_of_mem hg')

theorem allots_of_not_mem {a : Address} (h : a ∉ gs.map Prod.fst) :
    (allots K s gs).getVerkleValue (balanceKey K a) = s.getVerkleValue (balanceKey K a) := by
  induction gs generalizing s with
  | nil => rfl
  | cons g gs ih =>
    rw [List.map_cons, List.mem_cons, not_or] at h
    rw [allots_cons, ih h.2, StateDB.getVerkleValue_setVerkleValue, Function.update_of_ne]
    exact fun hkey => h.1 (balanceKey_injective K hkey)

theorem allots_of_mem (hgs : (gs.map Prod.fst).Nodup) {g : Address × U256} (h : g ∈ gs) :
    (allots K s gs).getVerkleValue (balanceKey K g.1) = BigEndian.minimal 32 g.2.toNat := by
  induction gs generalizing s with
  | nil => cases h
  | cons g' gs ih =>
    obtain ⟨hnew, hgs⟩ := List.nodup_cons.mp hgs
    rw [allots_cons]
    obtain rfl | h := List.mem_cons.mp h
    · rw [allots_of_not_mem hnew, StateDB.getVerkleValue_setVerkleValue, Function.update_self]
    · exact ih hgs h

theorem root_allots (e : Executor) {tree : VerkleTree} {own : Own}
    (hstems : ∀ g ∈ gs, (balanceKey K g.1).take 31 ∈ tree.stems)
    (h : ∀ g ∈ gs, tree.get (balanceKey K g.1) = BigEndian.minimal 32 g.2.toNat) :
    e.intermediateRoot (allots K (.base tree own) gs) = e.rootHash tree := by
  induction gs generalizing own with
  | nil => rfl
  | cons g gs ih =>
    obtain ⟨hg, hrest⟩ := List.forall_mem_cons.mp h
    obtain ⟨hstem, hstems⟩ := List.forall_mem_cons.mp hstems
    have hinsert : tree.insert (balanceKey K g.1) (BigEndian.minimal 32 g.2.toNat) = tree := by
      rw [VerkleTree.insert, ← hg, Set.insert_eq_of_mem hstem]
      split
      · rfl
      · exact congrArg (VerkleTree.mk · tree.stems) (Function.update_eq_self _ _)
    rw [allots_cons, StateDB.setVerkleValue, hinsert]
    exact ih hstems hrest

theorem dirty_allots {s : StateDB} {g : Address × U256} (h : g ∈ gs) :
    (allots K s gs).own.dirty.lookup (balanceKey K g.1) ≠ none := by
  have hkept (s : StateDB) (gs : List (Address × U256)) (h : s.own.dirty.lookup (balanceKey K g.1) ≠ none) :
      (allots K s gs).own.dirty.lookup (balanceKey K g.1) ≠ none := by
    refine foldl_invariant (I := fun s : StateDB => s.own.dirty.lookup (balanceKey K g.1) ≠ none) ?_ h
    intro s g' _ hs
    change (s.setVerkleValue _ _).own.dirty.lookup _ ≠ none
    rw [own_setVerkleValue, lookup_insert_ite]
    split
    · simp
    · exact hs
  induction gs generalizing s with
  | nil => cases h
  | cons g' gs ih =>
    rw [allots_cons]
    obtain rfl | h := List.mem_cons.mp h
    · apply hkept
      rw [own_setVerkleValue, lookup_insert_ite, if_pos rfl]
      simp
    · exact ih h

end Genesis

theorem genesisAlloc_nodup (network : Network) :
    ((genesisAlloc (getNetworkConfig network)).map Prod.fst).Nodup := by
  cases network <;> decide

section Start

variable {e : Executor} {S : Sealing} {network : Network}

theorem creditedState_eq : creditedState e (getNetworkConfig network) .empty =
    allocated e (getNetworkConfig network) .empty :=
  credits_eq_allots (genesisAlloc_nodup network) fun _ _ => rfl

theorem stemmed_allocated (cfg : NetworkConfig) (db : Database) :
    Stemmed (StateDB.storedStems db) (allocated e cfg db) := by
  refine foldl_invariant (I := Stemmed (StateDB.storedStems db)) ?_ (stemmed_new db)
  intro s g _ hs
  exact hs.setVerkleValue _ _

variable (e S network) in
theorem sameState_initializeGenesis :
    (Database.empty.write (allocated e (getNetworkConfig network) .empty).commit.2).SameState
      (initializeGenesis e S (getNetworkConfig network) .empty).db := by
  obtain ⟨bc, hadd, hnew⟩ := initializeGenesis_empty e S (getNetworkConfig network)
  rw [hnew, ← creditedState_eq]
  exact (sameState_addBlock hadd rfl).trans (Database.sameState_writeHeadBlockHash _ _)

theorem root_start {n : Node} (hstart : Node.start e S (getNetworkConfig network) .empty = some n) :
    e.intermediateRoot (StateDB.new n.bc.db) =
      (genesisOver e (getNetworkConfig network) .empty).header.verkleRoot := by
  obtain ⟨hdb, -⟩ := start_allocated hstart
  obtain ⟨htied, hz⟩ := allocated_tied e (getNetworkConfig network) .empty
  have hsame := sameState_initializeGenesis e S network
  have hfirst := htied.root_reload e (stemmed_allocated _ _) hz hsame
  obtain ⟨htied', hz'⟩ := allocated_tied e (getNetworkConfig network)
    (initializeGenesis e S (getNetworkConfig network) .empty).db
  change _ = e.intermediateRoot (creditedState e (getNetworkConfig network) .empty).commit.1
  rw [hdb, htied'.root_reload e (stemmed_allocated _ _) hz' ⟨rfl, rfl⟩, creditedState_eq, intermediateRoot_commit,
    ← hfirst]
  apply root_allots
  · intro g hmem
    change _ ∈ StateDB.storedStems _
    rw [storedStems_commit _ hsame]
    exact Or.inr ⟨_, dirty_allots hmem, rfl⟩
  · intro g hmem
    have hread := congrFun (htied.reload hsame) (balanceKey e.keccak g.1)
    exact hread.trans (allots_of_mem (genesisAlloc_nodup network) hmem)

theorem stemmed_start {n : Node} {cfg : NetworkConfig} (hstart : Node.start e S cfg .empty = some n) :
    Stemmed (StateDB.storedStems n.bc.db) n.state := by
  obtain ⟨hdb, hstate⟩ := start_allocated hstart
  rw [hdb, hstate]
  exact (stemmed_allocated cfg _).commit ⟨rfl, rfl⟩

end Start

namespace Logged

structure Shown (e : Executor) (l : Logged) : Prop where
  head : ∃ head book, l.committed.getLast? = some (head, book) ∧ l.node.bc.currentBlock = some head ∧
    Store.book e.keccak (.reload l.node.bc.db) = book ∧
    e.intermediateRoot (StateDB.new l.node.bc.db) = head.header.verkleRoot
  stems : Stemmed (StateDB.storedStems l.node.bc.db) l.node.state
  pending : ∀ b receipts, l.node.pending = some (b, receipts) →
    l.history.getLast? = some (b, Store.book e.keccak ⟨l.node.state, l.node.bc.db⟩) ∧
      b.header.verkleRoot = e.intermediateRoot l.node.state

variable {e : Executor} {S : Sealing} {cfg : NetworkConfig} {db : Database} {l l' : Logged}

theorem committed_of_idle (h : l.node.pending = none) : l.committed = l.history := by
  rw [committed, h]
  rfl

theorem shown_start {network : Network} {n : Node}
    (hstart : Node.start e S (getNetworkConfig network) .empty = some n) : Shown e (start e.keccak n) := by
  have hg := Node.start_empty hstart
  have hidle : (start e.keccak n).node.pending = none := (Node.start_idle hstart).2.2
  refine ⟨⟨_, _, ?_, hg.current, (heads_start hstart).book, root_start hstart⟩, stemmed_start hstart, ?_⟩
  · rw [committed_of_idle hidle, start, hg.current]
    rfl
  · intro b receipts hp
    cases hidle.symm.trans hp

theorem Shown.persistBlock (hS : CollisionFree S) {n : Node} (hw : WellStored S n.bc)
    (htied : Tied (StateDB.new n.bc.db).getVerkleValue n.state)
    (hstems : Stemmed (StateDB.storedStems n.bc.db) n.state) {b : Block} (hb : Newer n.bc b)
    (hz : NoStaleZero n.state) (hroot : b.header.verkleRoot = e.intermediateRoot n.state)
    (hidle : n.pending = none) (receipts : List Receipt)
    (hnode : l.node = Node.persistBlock S n b receipts)
    (hlast : l.history.getLast? = some (b, Store.book e.keccak ⟨n.state, n.bc.db⟩)) : Shown e l := by
  have hpending : l.node.pending = none := by
    rw [hnode]
    exact hidle
  have hstate := persistBlock_sameState hS hw hb receipts
  obtain ⟨-, -, hheads⟩ := persistBlock_heads e.keccak hS hw htied hb hz receipts
  constructor
  · refine ⟨b, Store.book e.keccak ⟨n.state, n.bc.db⟩, ?_, ?_, ?_, ?_⟩
    · rw [committed_of_idle hpending]
      exact hlast
    · rw [hnode]
      exact hheads.current
    · rw [hnode]
      exact hheads.book
    · rw [hnode, htied.root_reload e hstems hz hstate]
      exact hroot.symm
  · rw [hnode]
    exact hstems.commit hstate
  · intro b receipts hp
    cases hpending.symm.trans hp

theorem Shown.step (hS : CollisionFree S) (hdisk : OnDisk e S db l) (h : Shown e l) {event : Event}
    (hsettles : l.Settles event) (hstep : Step e S cfg l event l') : Shown e l' := by
  cases hstep with
  | silent _ hbc hstate hpending =>
    obtain ⟨hhead, hstems, hpend⟩ := h
    unfold committed at hhead
    rw [← hbc, ← hpending] at hhead
    rw [← hbc, ← hstate] at hstems
    rw [← hbc, ← hpending, ← hstate] at hpend
    exact ⟨hhead, hstems, hpend⟩
  | @imported d res node hlock himports =>
    obtain ⟨-, happly, engine, -, rfl⟩ := himports
    obtain ⟨hnewer, hz⟩ := hsettles
    exact Shown.persistBlock hS (n := { l.node with engine := engine, state := res.statedb })
      (b := { d.block with header := { d.block.header with verkleRoot := res.root } }) hdisk.stored
      (hdisk.tied.applyBlock happly) (h.stems.applyBlock happly) hnewer hz (applyBlock_root happly) hlock
      res.receipts rfl List.getLast?_concat
  | executed hlock hparent hfee happly =>
    obtain ⟨head, book, hlast, hcurrent, hbook, hroot⟩ := h.head
    rw [committed_of_idle hlock] at hlast
    refine ⟨⟨head, book, ?_, hcurrent, hbook, hroot⟩, h.stems.applyBlock happly, ?_⟩
    · unfold committed
      dsimp only
      rw [Option.isSome_some, if_pos rfl, List.dropLast_concat]
      exact hlast
    · intro b receipts hp
      obtain ⟨rfl, -⟩ := Prod.mk.inj (Option.some.inj hp)
      exact ⟨List.getLast?_concat, applyBlock_root happly⟩
  | @persisted b receipts hp =>
    obtain ⟨hnewer, hz⟩ := hsettles b receipts hp
    obtain ⟨hlast, hroot⟩ := h.pending b receipts hp
    exact Shown.persistBlock hS (n := { l.node with pending := none }) hdisk.stored hdisk.tied h.stems hnewer hz
      hroot rfl receipts rfl hlast

theorem shown_run (hS : CollisionFree S) {network : Network} {n₀ : Node}
    (hstart : Node.start e S (getNetworkConfig network) .empty = some n₀)
    (h : ReflTransGen (fun l l' => ∃ event, l.Settles event ∧ Step e S (getNetworkConfig network) l event l')
      (start e.keccak n₀) l) : Shown e l := by
  have hboth : OnDisk e S n₀.bc.db l ∧ Shown e l :=
    guarded_invariant (I := fun l => OnDisk e S n₀.bc.db l ∧ Shown e l)
      (fun hl hsettles hstep => ⟨hl.1.step hS hsettles hstep, hl.2.step hS hl.1 hsettles hstep⟩)
      ⟨onDisk_start hstart, shown_start hstart⟩ h
  exact hboth.2

end Logged

/-- `StateAt` shows the state after the head, whatever block's root it is given: it is right for
exactly the blocks since which nothing has changed. -/
theorem historical_state_iff {e : Executor} {S : Sealing} (hS : CollisionFree S) {network : Network} {n₀ : Node}
    (hstart : Node.start e S (getNetworkConfig network) .empty = some n₀) {l : Logged}
    (h : ReflTransGen (fun l l' => ∃ event, l.Settles event ∧ Logged.Step e S (getNetworkConfig network) l event l')
      (.start e.keccak n₀) l) :
    ∃ head last, l.committed.getLast? = some (head, last) ∧ l.node.bc.currentBlock = some head ∧
      ∀ b book, (b, book) ∈ l.committed →
        (Restored e l.node.bc b book ↔ last = book ∧ head.header.verkleRoot = b.header.verkleRoot) := by
  obtain ⟨head, last, hlast, hcurrent, hbook, hroot⟩ := (Logged.shown_run hS hstart h).head
  refine ⟨head, last, hlast, hcurrent, fun b book _ => ⟨fun hr => ⟨?_, ?_⟩, fun hsame => ⟨?_, ?_⟩⟩⟩
  · exact hbook.symm.trans hr.book
  · exact hroot.symm.trans hr.root
  · exact hbook.trans hsame.1
  · exact hroot.trans hsame.2

section Sample

theorem start_simulation :
    Node.start .ideal sampleSealing (getNetworkConfig .simulation) .empty = some sampleNode :=
  start_sampleNode

theorem committed_importedLog (engine : ZeliusEngine) : (importedLog engine).committed =
    sampleLog.history ++ [({ firstBlock with header := { firstBlock.header with
        verkleRoot := (appliedEmpty firstBlock).root } },
      Store.book .ideal ⟨(appliedEmpty firstBlock).statedb, sampleNode.bc.db⟩)] :=
  Logged.committed_of_idle rfl

theorem head_state_shown : ∃ engine b book, (b, book) ∈ (importedLog engine).committed ∧ b.header.number = 1 ∧
    Restored .ideal (importedLog engine).node.bc b book := by
  obtain ⟨engine, hverify⟩ := sampleNode_verify 1 0 genesisHash
  obtain ⟨head, last, hlast, -, hall⟩ := historical_state_iff sampleSealing_collisionFree
    start_simulation (.single ⟨_, settles_importedLog, step_importedLog hverify⟩)
  have hmem := List.mem_of_getLast? hlast
  refine ⟨engine, head, last, hmem, ?_, (hall head last hmem).mpr ⟨rfl, rfl⟩⟩
  rw [committed_importedLog, List.getLast?_concat] at hlast
  rw [← (Prod.mk.inj (Option.some.inj hlast)).1]
  rfl

theorem genesis_state_overwritten : ∃ (n₀ : Node) (l : Logged) (book : Book),
    Node.start .ideal sampleSealing sampleConfig .empty = some n₀ ∧
    ReflTransGen (fun l l' => ∃ event, Logged.Step .ideal sampleSealing sampleConfig l event l')
      (.start .ideal n₀) l ∧
    (sampleGenesis, book) ∈ l.committed ∧ ¬Restored .ideal l.node.bc sampleGenesis book := by
  obtain ⟨engine, hverify⟩ := sampleNode_verify 1 0 genesisHash
  refine ⟨sampleNode, importedLog engine, Store.book .ideal ⟨sampleNode.state, sampleNode.bc.db⟩, start_sampleNode,
    .single ⟨_, step_importedLog hverify⟩, ?_, fun hrestored => ?_⟩
  · rw [committed_importedLog, sampleLog_history]
    exact List.mem_append_left _ List.mem_cons_self
  · obtain ⟨head, last, hlast, -, hbook, -⟩ := (Logged.shown_run (l := importedLog engine)
      sampleSealing_collisionFree start_simulation
      (.single ⟨_, settles_importedLog, step_importedLog hverify⟩)).head
    rw [committed_importedLog, List.getLast?_concat] at hlast
    obtain ⟨-, rfl⟩ := Prod.mk.inj (Option.some.inj hlast)
    exact book_appliedEmpty (hbook.symm.trans hrestored.book)

end Sample

end Zephyria
