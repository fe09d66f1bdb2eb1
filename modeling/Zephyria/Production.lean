import Zephyria.ChainState
import Zephyria.HeaderAgreement

namespace Zephyria

open Relation

/-- The node with the batch its producer has filtered. `last` is not in the source: it is the block
whose execution produced the node's state. -/
structure Miner where
  node : Node
  batch : Option (List Transaction)
  last : Option Block

/-- Whether the filter keeps a transaction. `FromBig` drops the high bits of the cost. -/
def payable (K : Keccak256) (s : StateDB) (tx : Transaction) : Bool :=
  match tx.sender with
  | none => false
  | some sender =>
    tx.nonce = (StateDB.exec (getNonce K sender) s).1 ∧
      BitVec.ofNat 256 (tx.gasPrice * tx.gas.toNat) ≤ (StateDB.exec (getBalance K sender) s).1

namespace Miner

inductive Event where
  | deliver (d : Delivery)
  | updateValidators (engine : ZeliusEngine)
  | filter (txs : List Transaction)
  | readParent
  | execute (time : UInt64)
  | persist

def start (n : Node) : Miner := ⟨n, none, n.bc.currentBlock⟩

variable (e : Executor) (S : Sealing) (cfg : NetworkConfig)

/-- One critical section of an import, or one step of `processBatch`. The lock is held from the
execution of a batch until its block is persisted. -/
inductive Step : Miner → Event → Miner → Prop
  | dropped {m : Miner} {d : Delivery} {node : Node} (hlock : m.node.pending = none)
      (hdrop : ¬m.node.Passes e S d) (h : Node.Deliver e S m.node d node) :
      Step m (.deliver d) { m with node := node }
  | imported {m : Miner} {d : Delivery} {res : AppliedBlock} {node : Node} (hlock : m.node.pending = none)
      (h : Node.Imports e S m.node d res node) :
      Step m (.deliver d)
        { m with
          node := node
          last := some { d.block with header := { d.block.header with verkleRoot := res.root } } }
  | updateValidators {m : Miner} (engine : ZeliusEngine) :
      Step m (.updateValidators engine) { m with node := { m.node with engine := engine } }
  | filter {m : Miner} (txs : List Transaction) (hlock : m.node.pending = none) (hbatch : m.batch = none) :
      Step m (.filter txs) { m with batch := some (txs.filter (payable e.keccak m.node.state)) }
  | readParent {m : Miner} (hbatch : m.batch.isSome) (hparent : m.node.parent = none) :
      Step m .readParent { m with node := { m.node with parent := m.node.bc.currentBlock } }
  | execute {m : Miner} {parent : Block} {txs : List Transaction} {time : UInt64} {fee : ℕ}
      {res : AppliedBlock} (hlock : m.node.pending = none) (hbatch : m.batch = some txs)
      (hparent : m.node.parent = some parent) (hfee : calcBaseFee parent.header = some fee)
      (happly : e.ApplyBlock (m.node.bc.blockContext S (Node.newHeader S cfg parent time fee)) m.node.state
        txs res) :
      Step m (.execute time)
        { node := { m.node with
            state := res.statedb
            parent := none
            pending := some (Node.produceBlock S (Node.newHeader S cfg parent time fee) txs res, res.receipts) }
          batch := none
          last := some (Node.produceBlock S (Node.newHeader S cfg parent time fee) txs res) }
  | persist {m : Miner} {b : Block} {receipts : List Receipt} (h : m.node.pending = some (b, receipts)) :
      Step m .persist { m with node := Node.persistBlock S { m.node with pending := none } b receipts }

def ExtendsState (m m' : Miner) : Prop :=
  ∃ b receipts last, m'.node.pending = some (b, receipts) ∧ m.last = some last ∧
    b.header.parentHash = S.headerHash last.header ∧ b.header.number = last.header.number + 1

def InTurn (m : Miner) : Event → Prop
  | .deliver d => m.node.Passes e S d → m.node.parent = none ∧ Newer m.node.bc d.block
  | .execute _ => ∀ parent, m.node.parent = some parent → parent.header.number + 1 < 2 ^ 64
  | _ => True

structure Aligned (m : Miner) : Prop where
  stored : WellStored S m.node.bc
  batch : m.batch.isSome → m.node.pending = none
  head : m.node.pending = none → m.node.bc.currentBlock = m.last
  parent : ∀ parent, m.node.parent = some parent → m.node.pending = none ∧ m.last = some parent
  pending : ∀ b receipts, m.node.pending = some (b, receipts) → m.last = some b ∧ Newer m.node.bc b

variable {e S cfg} {m m' : Miner}

theorem Step.node {event : Event} (h : Step e S cfg m event m') :
    m'.node = m.node ∨ ∃ event', Node.Step e S cfg m.node event' m'.node := by
  cases h with
  | dropped hlock _ h => exact Or.inr ⟨_, .deliver hlock h⟩
  | imported hlock h =>
    obtain ⟨hpasses, happly, engine, hverify, rfl⟩ := h
    exact Or.inr ⟨_, .deliver hlock (.imported hpasses.1 hverify happly)⟩
  | updateValidators engine => exact Or.inr ⟨_, .updateValidators engine⟩
  | filter txs => exact Or.inl rfl
  | readParent hbatch hparent => exact Or.inr ⟨_, .readParent hparent⟩
  | execute hlock hbatch hparent hfee happly => exact Or.inr ⟨_, .execute hlock hparent hfee happly⟩
  | persist h => exact Or.inr ⟨_, .persist h⟩

theorem Aligned.imported (hS : CollisionFree S) (h : Aligned S m) {d : Delivery} {res : AppliedBlock}
    {node : Node} (hlock : m.node.pending = none)
    (hturn : m.node.Passes e S d → m.node.parent = none ∧ Newer m.node.bc d.block)
    (himports : Node.Imports e S m.node d res node) :
    Aligned S { m with
      node := node
      last := some { d.block with header := { d.block.header with verkleRoot := res.root } } } := by
  obtain ⟨hpasses, -, engine, -, rfl⟩ := himports
  obtain ⟨hparent, hnewer⟩ := hturn hpasses
  let stored : Block := { d.block with header := { d.block.header with verkleRoot := res.root } }
  have hnewer : Newer m.node.bc stored := hnewer
  have ha : Added S m.node.bc stored (Node.importBlock S { m.node with engine := engine } d.block res).bc :=
    Node.added_importBlock (n := { m.node with engine := engine }) hS h.stored hnewer res
  exact
    { stored := h.stored.added hnewer ha
      batch := fun _ => hlock
      head := fun _ => hnewer.current ha
      parent := fun parent hp => (nomatch hparent.symm.trans hp)
      pending := fun b receipts hp => (nomatch hlock.symm.trans hp) }

theorem Aligned.persist (hS : CollisionFree S) (h : Aligned S m) {b : Block} {receipts : List Receipt}
    (hp : m.node.pending = some (b, receipts)) :
    Aligned S { m with node := Node.persistBlock S { m.node with pending := none } b receipts } := by
  obtain ⟨hlast, hnewer⟩ := h.pending b receipts hp
  have ha : Added S m.node.bc b (Node.persistBlock S { m.node with pending := none } b receipts).bc :=
    Node.added_persistBlock (n := { m.node with pending := none }) hS h.stored hnewer receipts
  exact
    { stored := h.stored.added hnewer ha
      batch := fun _ => rfl
      head := fun _ => (hnewer.current ha).trans hlast.symm
      parent := fun parent hparent => (nomatch hp.symm.trans (h.parent parent hparent).1)
      pending := fun b receipts hpending => (nomatch hpending) }

theorem Aligned.step (hS : CollisionFree S) (h : Aligned S m) {event : Event} (hturn : m.InTurn e S event)
    (hstep : Step e S cfg m event m') : Aligned S m' := by
  cases hstep with
  | dropped hlock hdrop hdeliver =>
    cases hdeliver with
    | skipped => exact h
    | rejected => exact ⟨h.stored, h.batch, h.head, h.parent, h.pending⟩
    | @imported engine res hskip hverify => exact absurd ⟨hskip, engine, hverify⟩ hdrop
  | imported hlock himports => exact h.imported hS hlock hturn himports
  | updateValidators engine => exact ⟨h.stored, h.batch, h.head, h.parent, h.pending⟩
  | filter txs hlock => exact ⟨h.stored, fun _ => hlock, h.head, h.parent, h.pending⟩
  | readParent hbatch =>
    have hlock := h.batch hbatch
    exact ⟨h.stored, h.batch, h.head, fun parent hp => ⟨hlock, (h.head hlock).symm.trans hp⟩, h.pending⟩
  | @execute parent txs time fee res hlock _ hparent =>
    refine ⟨h.stored, fun hbatch => (nomatch hbatch), fun hp => (nomatch hp), fun _ hp => (nomatch hp), ?_⟩
    intro b receipts hp
    obtain ⟨rfl, -⟩ := Prod.mk.inj (Option.some.inj hp)
    obtain ⟨-, hlast⟩ := h.parent parent hparent
    exact ⟨rfl, parent, (h.head hlock).trans hlast, Nat.lt_succ_self _, hturn parent hparent⟩
  | persist hp => exact h.persist hS hp

theorem aligned_start {db : Database} {n₀ : Node} (hstart : Node.start e S cfg db = some n₀)
    (h : WellStored S n₀.bc) : Aligned S (start n₀) := by
  obtain ⟨-, hparent, hpending⟩ := Node.start_idle hstart
  exact
    { stored := h
      batch := fun _ => hpending
      head := fun _ => rfl
      parent := fun _ hp => (nomatch hparent.symm.trans hp)
      pending := fun _ _ hp => (nomatch hpending.symm.trans hp) }

theorem sealed_extends_state (hS : CollisionFree S) {db : Database} {n₀ : Node}
    (hstart : Node.start e S cfg db = some n₀) (hdb : WellStored S n₀.bc)
    (h : ReflTransGen (fun m m' => ∃ event, m.InTurn e S event ∧ Step e S cfg m event m') (start n₀) m)
    {time : UInt64} (hstep : Step e S cfg m (.execute time) m') : ExtendsState S m m' := by
  have hm : Aligned S m :=
    guarded_invariant (fun hm hturn hstep => hm.step hS hturn hstep) (aligned_start hstart hdb) h
  cases hstep with
  | execute hlock hbatch hparent hfee happly =>
    obtain ⟨-, hlast⟩ := hm.parent _ hparent
    exact ⟨_, _, _, rfl, hlast, rfl, rfl⟩

end Miner

section Sample

def sampleMiner : Miner := .start sampleNode

def readyMiner : Miner :=
  { sampleMiner with
    node := { sampleNode with parent := sampleNode.bc.currentBlock }
    batch := some [] }

theorem step_filter : Miner.Step .ideal sampleSealing sampleConfig sampleMiner (.filter [])
    { sampleMiner with batch := some [] } :=
  .filter [] rfl rfl

theorem step_readParent : Miner.Step .ideal sampleSealing sampleConfig
    { sampleMiner with batch := some [] } .readParent readyMiner :=
  .readParent rfl rfl

theorem step_execute {m : Miner} (hlock : m.node.pending = none) (hbatch : m.batch = some [])
    (hparent : m.node.parent = some sampleGenesis) :
    ∃ m' b receipts, Miner.Step .ideal sampleSealing sampleConfig m (.execute 0) m' ∧
      m'.node.pending = some (b, receipts) ∧ b.header.parentHash = genesisHash := by
  refine ⟨_, _, _, .execute hlock hbatch hparent (show calcBaseFee sampleGenesis.header = some initialBaseFee from rfl)
    ((Executor.ideal.applyBlock_nil _ _ _).mpr rfl), rfl, ?_⟩
  exact headerHash_sampleGenesis

theorem first_block_extends_genesis : ∃ n₀ m m', Node.start .ideal sampleSealing sampleConfig .empty = some n₀ ∧
    ReflTransGen (fun m m' => ∃ event, Miner.Step .ideal sampleSealing sampleConfig m event m') (.start n₀) m ∧
    Miner.Step .ideal sampleSealing sampleConfig m (.execute 0) m' ∧ Miner.ExtendsState sampleSealing m m' := by
  obtain ⟨m', -, -, hstep, -, -⟩ := step_execute (m := readyMiner) rfl rfl sampleNode_onlyGenesis.current
  refine ⟨sampleNode, readyMiner, m', start_sampleNode, .tail (.single ⟨_, step_filter⟩) ⟨_, step_readParent⟩,
    hstep, ?_⟩
  apply Miner.sealed_extends_state sampleSealing_collisionFree start_sampleNode
    (WellStored.of_onlyGenesis sampleNode_onlyGenesis) _ hstep
  exact .tail (.single ⟨.filter [], trivial, step_filter⟩) ⟨.readParent, trivial, step_readParent⟩

def secondBlock : Block := sampleBlock 2 0 0

theorem import_splits_parent : ∃ n₀ m m', Node.start .ideal sampleSealing sampleConfig .empty = some n₀ ∧
    ReflTransGen (fun m m' => ∃ event, Miner.Step .ideal sampleSealing sampleConfig m event m') (.start n₀) m ∧
    Miner.Step .ideal sampleSealing sampleConfig m (.execute 0) m' ∧ ¬Miner.ExtendsState sampleSealing m m' := by
  obtain ⟨engine, hverify⟩ := sampleNode_verify 2 0 0
  let m : Miner :=
    { readyMiner with
      node := Node.importBlock sampleSealing { readyMiner.node with engine := engine } secondBlock
        (appliedEmpty secondBlock)
      last := some { secondBlock with
        header := { secondBlock.header with verkleRoot := (appliedEmpty secondBlock).root } } }
  have himport : Miner.Step .ideal sampleSealing sampleConfig readyMiner (.deliver (.syncBlock secondBlock)) m :=
    .imported rfl ⟨⟨rfl, engine, hverify⟩, (Executor.ideal.applyBlock_nil _ _ _).mpr rfl, engine, hverify, rfl⟩
  obtain ⟨m', b, receipts, hstep, hpending, hparent⟩ := step_execute (m := m) rfl rfl
    sampleNode_onlyGenesis.current
  refine ⟨sampleNode, m, m', start_sampleNode,
    .tail (.tail (.single ⟨_, step_filter⟩) ⟨_, step_readParent⟩) ⟨_, himport⟩, hstep, ?_⟩
  rintro ⟨b', receipts', last, hpending', hlast, hparent', -⟩
  obtain ⟨rfl, -⟩ := Prod.mk.inj (Option.some.inj (hpending.symm.trans hpending'))
  obtain rfl := Option.some.inj hlast
  have hne : sampleSealing.headerHash
      { secondBlock.header with verkleRoot := (appliedEmpty secondBlock).root } ≠ genesisHash :=
    headerHash_ne_genesisHash (by decide)
  exact hne (hparent'.symm.trans hparent)

end Sample

end Zephyria
