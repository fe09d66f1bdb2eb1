import Zephyria.HistoricalState
import Zephyria.KeySpaces

namespace Zephyria

section Writes

variable (e : Executor) (S : Sealing) (cfg : NetworkConfig) (db : Database)

def newBlockchainWrites : List DbWrite :=
  if db.readHeadBlockHash = 0 then
    let genesis := genesisOver e cfg db
    .batch (creditedState e cfg db).commit.2 :: addBlockWrites S (creditedChain e cfg db) genesis none ++
      match (creditedChain e cfg db).addBlock S genesis none with
      | .ok _ => [.put headBlockKey (.raw (hashBytes (S.headerHash genesis.header)))]
      | .error _ => []
  else []

variable {e S cfg db}

theorem newBlockchain_of_no_head (h : db.readHeadBlockHash = 0) :
    newBlockchain e S cfg db = some (initializeGenesis e S cfg db) := if_pos h

theorem applyAll_newBlockchainWrites {bc : Blockchain} (hnew : newBlockchain e S cfg db = some bc) :
    db.applyAll (newBlockchainWrites e S cfg db) = bc.db := by
  unfold newBlockchainWrites
  split
  next h =>
    have hadd := applyAll_addBlockWrites S (creditedChain e cfg db) (genesisOver e cfg db) none
    obtain rfl := Option.some.inj ((newBlockchain_of_no_head h).symm.trans hnew)
    unfold initializeGenesis
    dsimp only
    rw [List.cons_append, Database.applyAll, List.foldl_cons, List.foldl_append]
    change Database.applyAll ((creditedChain e cfg db).db.applyAll _) _ = _
    rw [hadd]
    generalize Blockchain.addBlock S _ _ _ = added
    cases added <;> rfl
  next h =>
    unfold newBlockchain at hnew
    dsimp only at hnew
    rw [if_neg h] at hnew
    obtain ⟨head, -, rfl⟩ := Option.map_eq_some_iff.mp hnew
    rfl

theorem tied_creditedState : Tied (StateDB.new db).getVerkleValue (creditedState e cfg db) := by
  apply foldl_invariant _ (tied_new db)
  intro s g _ hs
  exact StateDB.exec_invariant (fun _ key value h => h.setVerkleValue key value) _ hs

theorem reload_initializeGenesis : (StateDB.new (initializeGenesis e S cfg db).db).getVerkleValue =
    (creditedState e cfg db).getVerkleValue := by
  apply tied_creditedState.reload
  unfold initializeGenesis
  dsimp only
  split
  next bc hadd => exact (sameState_addBlock hadd rfl).trans (Database.sameState_writeHeadBlockHash _ _)
  next => exact ⟨rfl, rfl⟩

theorem credits_of_not_mem {K : Keccak256} {s : StateDB} {gs : List (Address × U256)} {a : Address}
    (h : a ∉ gs.map Prod.fst) :
    (credits K s gs).getVerkleValue (balanceKey K a) = s.getVerkleValue (balanceKey K a) := by
  induction gs generalizing s with
  | nil => rfl
  | cons g gs ih =>
    rw [List.map_cons, List.mem_cons, not_or] at h
    rw [credits_cons, ih h.2, StateDB.getVerkleValue_setVerkleValue, Function.update_of_ne]
    exact fun hkey => h.1 (balanceKey_injective K hkey)

theorem credits_of_mem {K : Keccak256} {s : StateDB} {gs : List (Address × U256)} (hgs : (gs.map Prod.fst).Nodup)
    {g : Address × U256} (h : g ∈ gs) : decodeBalance ((credits K s gs).getVerkleValue (balanceKey K g.1)) =
      decodeBalance (s.getVerkleValue (balanceKey K g.1)) + g.2 := by
  induction gs generalizing s with
  | nil => cases h
  | cons g' gs ih =>
    obtain ⟨hnew, hgs⟩ := List.nodup_cons.mp hgs
    rw [credits_cons]
    obtain rfl | h := List.mem_cons.mp h
    · rw [credits_of_not_mem hnew, StateDB.getVerkleValue_setVerkleValue, Function.update_self,
        decodeBalance_minimal]
    · have hne : g.1 ≠ g'.1 := fun heq => hnew (heq ▸ List.mem_map_of_mem h)
      rw [ih hgs h, StateDB.getVerkleValue_setVerkleValue, Function.update_of_ne]
      exact fun hkey => hne (balanceKey_injective K hkey)

end Writes

structure SameGenesis (K : Keccak256) (S : Sealing) (bc bc' : Blockchain) : Prop where
  hash : bc'.currentBlock.map (fun b => S.headerHash b.header) = bc.currentBlock.map fun b => S.headerHash b.header
  root : bc'.currentBlock.map (fun b => b.header.verkleRoot) = bc.currentBlock.map fun b => b.header.verkleRoot
  balances : (Store.book K (.reload bc'.db)).balance = (Store.book K (.reload bc.db)).balance

def restarted (e : Executor) (S : Sealing) (cfg : NetworkConfig) (cut : ℕ) : Option Blockchain :=
  newBlockchain e S cfg (Database.empty.applyAll ((newBlockchainWrites e S cfg .empty).take cut))

section Cuts

variable {e : Executor} {S : Sealing} {cfg : NetworkConfig} {db : Database}

theorem balance_initializeGenesis (hdistinct : ((genesisAlloc cfg).map Prod.fst).Nodup) :
    (Store.book e.keccak (.reload (initializeGenesis e S cfg db).db)).balance defaultAccount =
      (Store.book e.keccak (.reload db)).balance defaultAccount + 1000000000000000000000000 := by
  change decodeBalance ((StateDB.new (initializeGenesis e S cfg db).db).getVerkleValue
    (balanceKey e.keccak defaultAccount)) = _
  have hmem : (defaultAccount, (1000000000000000000000000 : U256)) ∈ genesisAlloc cfg := by
    rw [genesisAlloc]
    exact List.mem_cons_self
  have hcredited := credits_of_mem (K := e.keccak) (s := StateDB.new db) hdistinct hmem
  rw [reload_initializeGenesis]
  exact hcredited

theorem reload_of_sameState (hdb : (creditedChain e cfg .empty).db.SameState db) :
    (StateDB.new db).getVerkleValue = (StateDB.new (initializeGenesis e S cfg .empty).db).getVerkleValue := by
  rw [reload_initializeGenesis]
  exact tied_creditedState.reload hdb

/-- A start that finds the allocation but no head adds the allocation again. -/
theorem not_sameGenesis (hdistinct : ((genesisAlloc cfg).map Prod.fst).Nodup) (h : db.readHeadBlockHash = 0)
    (hdb : (creditedChain e cfg .empty).db.SameState db) :
    ¬∃ bc, newBlockchain e S cfg db = some bc ∧
      SameGenesis e.keccak S (initializeGenesis e S cfg .empty) bc := by
  rintro ⟨bc, hnew, hsame⟩
  obtain rfl := Option.some.inj ((newBlockchain_of_no_head h).symm.trans hnew)
  have hbalance := congrFun hsame.balances defaultAccount
  rw [balance_initializeGenesis hdistinct, show (Store.book e.keccak (.reload db)).balance defaultAccount =
      (Store.book e.keccak (.reload (initializeGenesis e S cfg .empty).db)).balance defaultAccount
    from congrArg (fun m => (accounts e.keccak m).balance defaultAccount) (reload_of_sameState hdb),
    add_eq_left] at hbalance
  exact absurd hbalance (by decide)

structure Marked (e : Executor) (S : Sealing) (cfg : NetworkConfig) (genesis : Block) (db : Database) : Prop where
  head : db.readHeadBlockHash = S.headerHash genesis.header
  block : db.readBlock (S.headerHash genesis.header) = some genesis
  state : (creditedChain e cfg .empty).db.SameState db

theorem Marked.sameGenesis {genesis : Block} (h : Marked e S cfg genesis db)
    (hcurrent : (initializeGenesis e S cfg .empty).currentBlock = some genesis)
    (hzero : S.headerHash genesis.header ≠ 0) :
    ∃ bc, newBlockchain e S cfg db = some bc ∧ SameGenesis e.keccak S (initializeGenesis e S cfg .empty) bc := by
  refine ⟨_, newBlockchain_of_head hzero h.head h.block, by rw [hcurrent], by rw [hcurrent], ?_⟩
  exact congrArg (fun m => (accounts e.keccak m).balance) (reload_of_sameState h.state)

theorem Marked.writeCanonicalHash {genesis : Block} (h : Marked e S cfg genesis db) (n : UInt64) :
    Marked e S cfg genesis (db.writeCanonicalHash n (S.headerHash genesis.header)) where
  head := by
    rw [readHeadBlockHash_eq, Database.readCanonicalHash_writeCanonicalHash, ← readHeadBlockHash_eq, h.head, ite_self]
  block := by rw [Database.readBlock_writeCanonicalHash, h.block]
  state := h.state.trans (Database.sameState_writeCanonicalHash _ _ _)

theorem sameState_writeBlock (db : Database) (hash : Hash) (b : Block) : db.SameState (db.writeBlock hash b) :=
  Database.sameState_put db (by decide) (by decide) _ _

theorem readHeadBlockHash_writeBlock (db : Database) (hash : Hash) (b : Block) :
    (db.writeBlock hash b).readHeadBlockHash = db.readHeadBlockHash := by
  have hkey : db.writeBlock hash b headBlockKey = db headBlockKey :=
    Database.put_ne db (fun h => absurd (List.cons.inj h).1 (by decide)) _
  rw [Database.readHeadBlockHash, Database.readHeadBlockHash, Database.getRaw, Database.getRaw, hkey]

theorem marked_writeHeadBlockHash {genesis : Block} (hdb : (creditedChain e cfg .empty).db.SameState db)
    (hblock : db.readBlock (S.headerHash genesis.header) = some genesis) :
    Marked e S cfg genesis (db.writeHeadBlockHash (S.headerHash genesis.header)) where
  head := by
    rw [Database.readHeadBlockHash, Database.getRaw, Database.writeHeadBlockHash, Database.put_self]
    exact bytesToHash_hashBytes _
  block := by rw [Database.readBlock_writeHeadBlockHash, hblock]
  state := hdb.trans (Database.sameState_writeHeadBlockHash _ _)

theorem addBlockWrites_first {bc : Blockchain} {b : Block} (hnew : bc.db.readBlock (S.headerHash b.header) = none)
    (hcurrent : bc.currentBlock = none) (htxs : b.transactions = []) : addBlockWrites S bc b none =
      [.put (blockBodyPrefix :: hashBytes (S.headerHash b.header)) (.block b),
        .put headBlockKey (.raw (hashBytes (S.headerHash b.header))),
        .put (canonicalKey (UInt64.ofNat b.header.number)) (.raw (hashBytes (S.headerHash b.header)))] := by
  simp [addBlockWrites, hnew, htxs, Blockchain.isNewer, hcurrent]

theorem newBlockchainWrites_empty {genesis : Block} (hgenesis : genesis = genesisOver e cfg .empty) :
    newBlockchainWrites e S cfg .empty =
      [.batch (creditedState e cfg .empty).commit.2,
        .put (blockBodyPrefix :: hashBytes (S.headerHash genesis.header)) (.block genesis),
        .put headBlockKey (.raw (hashBytes (S.headerHash genesis.header))),
        .put (canonicalKey 0) (.raw (hashBytes (S.headerHash genesis.header))),
        .put headBlockKey (.raw (hashBytes (S.headerHash genesis.header)))] := by
  subst hgenesis
  have hnew : (creditedChain e cfg .empty).db.readBlock (S.headerHash (genesisOver e cfg .empty).header) = none :=
    Database.readBlock_congr (Database.write_commit_ne _ _ (by decide) (by decide) _)
  obtain ⟨added, hadd⟩ := Blockchain.exists_addBlock none hnew
  unfold newBlockchainWrites
  rw [if_pos (show Database.empty.readHeadBlockHash = 0 from rfl)]
  dsimp only
  rw [hadd, addBlockWrites_first hnew rfl rfl]
  rfl

theorem genesis_survives_iff (e : Executor) (S : Sealing) (hzero : ∀ header, S.headerHash header ≠ 0)
    (cfg : NetworkConfig) (hdistinct : ((genesisAlloc cfg).map Prod.fst).Nodup) (cut : ℕ) :
    ∃ first, newBlockchain e S cfg .empty = some first ∧
      ((∃ bc, restarted e S cfg cut = some bc ∧ SameGenesis e.keccak S first bc) ↔ cut = 0 ∨ 3 ≤ cut) := by
  refine ⟨_, newBlockchain_empty e S cfg, ?_⟩
  obtain ⟨genesis, hgenesis⟩ : ∃ genesis, genesis = genesisOver e cfg .empty := ⟨_, rfl⟩
  have hcurrent : (initializeGenesis e S cfg .empty).currentBlock = some genesis := by
    rw [(onlyGenesis_initializeGenesis e S cfg).current, hgenesis]
  have hbatch : (creditedChain e cfg .empty).db.readHeadBlockHash = 0 :=
    readHeadBlockHash_write_commit _ _
  have hbody := sameState_writeBlock (creditedChain e cfg .empty).db
    (S.headerHash genesis.header) genesis
  have hstored : ((creditedChain e cfg .empty).db.writeBlock (S.headerHash genesis.header)
      genesis).readBlock (S.headerHash genesis.header) = some genesis := by
    rw [Database.readBlock, Database.writeBlock, Database.put_self, hgenesis]
    rfl
  have hmarked := marked_writeHeadBlockHash hbody hstored
  have hcanonical := hmarked.writeCanonicalHash 0
  unfold restarted
  rw [newBlockchainWrites_empty hgenesis]
  rcases cut with _ | _ | _ | _ | _ | cut
  · exact iff_of_true ⟨_, newBlockchain_empty e S cfg, rfl, rfl, rfl⟩ (Or.inl rfl)
  · exact iff_of_false (not_sameGenesis hdistinct hbatch ⟨rfl, rfl⟩) (by omega)
  · apply iff_of_false (not_sameGenesis hdistinct _ hbody) (by omega)
    rw [readHeadBlockHash_writeBlock, hbatch]
  · exact iff_of_true (hmarked.sameGenesis hcurrent (hzero _)) (by omega)
  · exact iff_of_true (hcanonical.sameGenesis hcurrent (hzero _)) (by omega)
  · rw [List.take_of_length_le (by simp)]
    have hlast := marked_writeHeadBlockHash hcanonical.state hcanonical.block
    exact iff_of_true (hlast.sameGenesis hcurrent (hzero _)) (by omega)

theorem genesis_survives_after_head : ∃ first bc,
    newBlockchain .ideal sampleSealing sampleConfig .empty = some first ∧
    restarted .ideal sampleSealing sampleConfig 3 = some bc ∧
    SameGenesis Executor.ideal.keccak sampleSealing first bc := by
  obtain ⟨first, hfirst, hiff⟩ := genesis_survives_iff .ideal sampleSealing sampleSealing_ne_zero sampleConfig
    (genesisAlloc_nodup .simulation) 3
  obtain ⟨bc, hbc, hsame⟩ := hiff.mpr (Or.inr le_rfl)
  exact ⟨first, bc, hfirst, hbc, hsame⟩

theorem genesis_doubles_after_batch : ∃ first, newBlockchain .ideal sampleSealing sampleConfig .empty = some first ∧
    ¬∃ bc, restarted .ideal sampleSealing sampleConfig 1 = some bc ∧
      SameGenesis Executor.ideal.keccak sampleSealing first bc := by
  refine ⟨_, newBlockchain_empty _ _ _, ?_⟩
  unfold restarted
  rw [newBlockchainWrites_empty rfl]
  exact not_sameGenesis (genesisAlloc_nodup .simulation) (readHeadBlockHash_write_commit _ _) ⟨rfl, rfl⟩

end Cuts

end Zephyria
