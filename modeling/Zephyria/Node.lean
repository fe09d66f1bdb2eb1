import Zephyria.Blockchain

namespace Zephyria

/-- The state a node works on. The block producer reads a parent before it takes the state lock, and
keeps the lock while a sealed block is pending. -/
structure Node where
  bc : Blockchain
  state : StateDB
  engine : ZeliusEngine
  parent : Option Block
  pending : Option (Block × List Receipt)

/-- A block on its way to the import handler. `handleNewBlock` has looked it up before the handler
takes the state lock: `known` is what it found then. -/
inductive Delivery where
  | newBlock (b : Block) (known : Bool)
  | syncBlock (b : Block)

def Delivery.block : Delivery → Block
  | .newBlock b _ => b.arrived
  | .syncBlock b => b.arrived

theorem Delivery.baseFee_ne_none (d : Delivery) : d.block.header.baseFee ≠ none := by
  cases d <;> exact Option.some_ne_none _

def Delivery.skips : Delivery → Bool
  | .newBlock _ known => known
  | .syncBlock _ => false

def defaultGasLimit : UInt64 := 60000000

def initialBaseFee : ℕ := 1000000000

/-- No result where the source divides by zero. London is active from genesis and the elasticity is 2. -/
def calcBaseFee (parent : Header) : Option ℕ :=
  match parent.baseFee with
  | none => some initialBaseFee
  | some fee =>
    let parentGasTarget := parent.gasLimit.toNat / 2
    let gasUsed := parent.gasUsed.toNat
    if gasUsed = parentGasTarget then some fee
    else if gasUsed > parentGasTarget then
      if parentGasTarget = 0 then none
      else some (fee + max 1 (fee * (gasUsed - parentGasTarget) / (parentGasTarget * 8)))
    else
      some (max initialBaseFee (fee - fee * (parentGasTarget - gasUsed) / (parentGasTarget * 8)))

def getGasUsed (receipts : List Receipt) : UInt64 := (receipts.getLast?.map Receipt.cumulativeGasUsed).getD 0

namespace Node

variable (e : Executor) (S : Sealing)

def serve (cfg : NetworkConfig) (bc : Blockchain) : Node :=
  let state := StateDB.new bc.db
  let height := (bc.currentBlock.map fun head => UInt64.ofNat head.header.number).getD 0
  let (state, db) :=
    if height = 0 then
      persistState ((genesisAlloc cfg).foldl
        (fun s g => (StateDB.exec (setBalance e.keccak g.1 g.2) s).2) state) bc.db
    else (state, bc.db)
  { bc := { bc with db := db }
    state := state
    engine := newZelius cfg.validators
    parent := none
    pending := none }

/-- No result where `NewBlockchain` dereferences a head it could not read, and where the genesis block
does not have the configured hash. -/
def start (cfg : NetworkConfig) (db : Database) : Option Node :=
  (newBlockchain e S cfg db).bind fun bc =>
    match bc.getBlockByNumber 0 with
    | none => some (serve e cfg bc)
    | some genesis => if S.headerHash genesis.header = cfg.genesisHash then some (serve e cfg bc) else none

def persistBlock (n : Node) (b : Block) (receipts : List Receipt) : Node :=
  let (state, db) := persistState n.state n.bc.db
  let bc : Blockchain := { n.bc with db := db }
  { n with
    state := state
    bc :=
      match bc.addBlock S b (some receipts) with
      | .ok bc => bc
      | .error _ => bc }

def importBlock (n : Node) (b : Block) (res : AppliedBlock) : Node :=
  persistBlock S { n with state := res.statedb } { b with header := { b.header with verkleRoot := res.root } }
    res.receipts

def Passes (n : Node) (d : Delivery) : Prop :=
  d.skips = false ∧ ∃ engine, n.engine.verify e.keccak S d.block = some (.ok (), engine)

inductive Deliver (n : Node) (d : Delivery) : Node → Prop
  | skipped (h : d.skips = true) : Deliver n d n
  | rejected {err : VerifyError} {engine : ZeliusEngine} (h : d.skips = false)
      (hverify : n.engine.verify e.keccak S d.block = some (.error err, engine)) :
      Deliver n d { n with engine := engine }
  | imported {engine : ZeliusEngine} {res : AppliedBlock} (h : d.skips = false)
      (hverify : n.engine.verify e.keccak S d.block = some (.ok (), engine))
      (happly : e.ApplyBlock (n.bc.blockContext S d.block.header) n.state d.block.transactions res) :
      Deliver n d (importBlock S { n with engine := engine } d.block res)

def newHeader (cfg : NetworkConfig) (parent : Block) (time : UInt64) (baseFee : ℕ) : Header where
  parentHash := S.headerHash parent.header
  number := parent.header.number + 1
  time := time
  verkleRoot := 0
  txHash := 0
  coinbase := cfg.coinbase
  extraData := []
  difficulty := cfg.difficulty
  gasLimit := defaultGasLimit
  gasUsed := 0
  baseFee := some baseFee

def produceBlock (header : Header) (txs : List Transaction) (res : AppliedBlock) : Block :=
  sealBlock S ⟨{ header with verkleRoot := res.root, gasUsed := getGasUsed res.receipts }, txs⟩

inductive Event where
  | deliver (d : Delivery)
  | updateValidators (engine : ZeliusEngine)
  | readParent
  | execute (txs : List Transaction) (time : UInt64)
  | persist

inductive Step (cfg : NetworkConfig) : Node → Event → Node → Prop
  | deliver {n n' : Node} {d : Delivery} (hlock : n.pending = none) (h : Deliver e S n d n') :
      Step cfg n (.deliver d) n'
  | updateValidators {n : Node} (engine : ZeliusEngine) :
      Step cfg n (.updateValidators engine) { n with engine := engine }
  | readParent {n : Node} (h : n.parent = none) : Step cfg n .readParent { n with parent := n.bc.currentBlock }
  | execute {n : Node} {parent : Block} {txs : List Transaction} {time : UInt64} {fee : ℕ}
      {res : AppliedBlock} (hlock : n.pending = none) (hparent : n.parent = some parent)
      (hfee : calcBaseFee parent.header = some fee)
      (happly : e.ApplyBlock (n.bc.blockContext S (newHeader S cfg parent time fee)) n.state txs res) :
      Step cfg n (.execute txs time)
        { n with
          state := res.statedb
          parent := none
          pending := some (produceBlock S (newHeader S cfg parent time fee) txs res, res.receipts) }
  | persist {n : Node} {b : Block} {receipts : List Receipt} (h : n.pending = some (b, receipts)) :
      Step cfg n .persist (persistBlock S { n with pending := none } b receipts)

theorem persistBlock_result (n : Node) (b : Block) (receipts : List Receipt) :
    ((n.bc.db.readBlock (S.headerHash b.header)).isSome ∧
        SameLookups n.bc (persistBlock S n b receipts).bc) ∨
      Blockchain.addBlock S { n.bc with db := (persistState n.state n.bc.db).2 } b (some receipts) =
        .ok (persistBlock S n b receipts).bc := by
  have hsame := sameLookups_persistState n.state n.bc
  unfold persistBlock
  dsimp only
  split
  next bc' hadd => exact Or.inr hadd
  next err hadd =>
    refine Or.inl ⟨?_, hsame⟩
    rw [← hsame.block]
    exact Blockchain.addBlock_known hadd

theorem persistBlock_cases (n : Node) (b : Block) (receipts : List Receipt) :
    ((n.bc.db.readBlock (S.headerHash b.header)).isSome ∧
        SameLookups n.bc (persistBlock S n b receipts).bc) ∨
      Added S n.bc b (persistBlock S n b receipts).bc := by
  obtain hknown | hadd := persistBlock_result S n b receipts
  · exact Or.inl hknown
  · exact Or.inr ((Blockchain.added_of_addBlock hadd).of_sameLookups (sameLookups_persistState n.state n.bc))

theorem importBlock_cases (n : Node) (b : Block) (res : AppliedBlock) :
    ((n.bc.db.readBlock (S.headerHash { b.header with verkleRoot := res.root })).isSome ∧
        SameLookups n.bc (importBlock S n b res).bc) ∨
      Added S n.bc { b with header := { b.header with verkleRoot := res.root } } (importBlock S n b res).bc :=
  persistBlock_cases S { n with state := res.statedb }
    { b with header := { b.header with verkleRoot := res.root } } res.receipts

variable {e S} {cfg : NetworkConfig} {n : Node}

theorem start_inv {db : Database} (h : start e S cfg db = some n) :
    ∃ bc, newBlockchain e S cfg db = some bc ∧ n = serve e cfg bc := by
  obtain ⟨bc, hnew, hbc⟩ := Option.bind_eq_some_iff.mp h
  refine ⟨bc, hnew, ?_⟩
  split at hbc
  next => exact (Option.some.inj hbc).symm
  next =>
    split at hbc
    next => exact (Option.some.inj hbc).symm
    next => cases hbc

theorem start_empty_inv (h : start e S cfg .empty = some n) : n = serve e cfg (initializeGenesis e S cfg .empty) := by
  obtain ⟨bc, hnew, rfl⟩ := start_inv h
  obtain rfl := Option.some.inj hnew
  rfl

theorem start_idle {db : Database} (h : start e S cfg db = some n) :
    n.engine = newZelius cfg.validators ∧ n.parent = none ∧ n.pending = none := by
  obtain ⟨bc, -, rfl⟩ := start_inv h
  exact ⟨rfl, rfl, rfl⟩

theorem serve_sameLookups (bc : Blockchain) : SameLookups bc (serve e cfg bc).bc := by
  unfold serve
  dsimp only
  split
  · exact sameLookups_persistState _ _
  · exact ⟨rfl, fun _ => rfl, fun _ => rfl⟩

theorem start_empty (h : start e S cfg .empty = some n) : OnlyGenesis S n.bc (genesisOver e cfg .empty) := by
  obtain rfl := start_empty_inv h
  exact (onlyGenesis_initializeGenesis e S cfg).of_sameLookups (serve_sameLookups _)

theorem start_of_genesisHash (h : S.headerHash (genesisOver e cfg .empty).header = cfg.genesisHash)
    (hzero : cfg.genesisHash ≠ 0) :
    start e S cfg .empty = some (serve e cfg (initializeGenesis e S cfg .empty)) := by
  have hgenesis := (onlyGenesis_initializeGenesis e S cfg).getBlockByNumber (by rwa [h])
  rw [start, newBlockchain_empty, Option.bind_some, hgenesis]
  exact if_pos h

theorem start_refused (h : S.headerHash (genesisOver e cfg .empty).header ≠ cfg.genesisHash)
    (hzero : S.headerHash (genesisOver e cfg .empty).header ≠ 0) : start e S cfg .empty = none := by
  have hgenesis := (onlyGenesis_initializeGenesis e S cfg).getBlockByNumber hzero
  rw [start, newBlockchain_empty, Option.bind_some, hgenesis]
  exact if_neg h

end Node

end Zephyria
