import Zephyria.Leadership
import Zephyria.Production
import Zephyria.Supply

namespace Zephyria

open Relation

/-- `processBatch` takes the senders of UNSTAKE transactions off the list before it executes them. -/
def interceptStaking (p : SystemParams) (e : ZeliusEngine) (txs : List Transaction) : ZeliusEngine :=
  txs.foldl (fun e tx =>
    if tx.toAddr = some p.stakingAddr ∧ tx.data = unstakePayload then e.removeValidator (tx.sender.getD 0)
    else e) e

inductive Work where
  | tick
  | lead (view : UInt64)
  | missed (a : Address)
  | intercept
  | event (event : Miner.Event)

inductive Works (e : Executor) (S : Sealing) (cfg : NetworkConfig) : Miner → Work → Miner → Prop
  | tick {m : Miner} {engine : ZeliusEngine} (hlock : m.node.pending = none)
      (hsync : (StateDB.exec (syncValidators e.keccak m.node.engine) m.node.state).1 = some engine) :
      Works e S cfg m .tick { m with node := { m.node with engine := engine } }
  | lead {m : Miner} {view : UInt64} {leader : Address} {engine : ZeliusEngine}
      (hleader : m.node.engine.getLeader e.keccak view = some (leader, engine)) :
      Works e S cfg m (.lead view) { m with node := { m.node with engine := engine } }
  | missed {m : Miner} (a : Address) :
      Works e S cfg m (.missed a)
        { m with node := { m.node with engine := m.node.engine.recordNonCompliance a } }
  | intercept {m : Miner} {txs : List Transaction} (hbatch : m.batch = some txs) (hparent : m.node.parent = none) :
      Works e S cfg m .intercept
        { m with node := { m.node with engine := interceptStaking cfg.params m.node.engine txs } }
  | event {m m' : Miner} {event : Miner.Event} (hevent : ∀ engine, event ≠ .updateValidators engine)
      (h : Miner.Step e S cfg m event m') : Works e S cfg m (.event event) m'

/-- What a node's list of validators rests on: the configured list or the last one that a tick found
registered, and who has been removed from it since. -/
@[ext]
structure Basis where
  registered : List Validator
  removed : List Address

def Basis.validators (b : Basis) : List Validator := b.removed.foldl strike b.registered

def struck : List Validator → List Address → List Address
  | _, [] => []
  | vs, a :: as => if Removable vs a then a :: struck (strike vs a) as else struck vs as

def leavers (p : SystemParams) (txs : List Transaction) : List Address :=
  (txs.filter fun tx => tx.toAddr = some p.stakingAddr ∧ tx.data = unstakePayload).map
    fun tx => tx.sender.getD 0

def Basis.after (K : Keccak256) (p : SystemParams) (b : Basis) (m : Miner) : Work → Basis
  | .tick =>
    if (book K m.node.state).storage syncValidatorAddr 0 = 0 then b
    else ⟨syncedList (book K m.node.state), []⟩
  | .missed a =>
    if 1000 ≤ (m.node.engine.nonCompliantValidators.lookup a).getD 0 + 1 then
      { b with removed := b.removed ++ struck m.node.engine.validators [a] }
    else b
  | .intercept => { b with removed := b.removed ++ struck m.node.engine.validators (leavers p (m.batch.getD [])) }
  | _ => b

inductive Follows (e : Executor) (S : Sealing) (cfg : NetworkConfig) (db : Database) : Miner → Basis → Prop
  | start {n : Node} (h : Node.start e S cfg db = some n) : Follows e S cfg db (.start n) ⟨cfg.validators, []⟩
  | work {m m' : Miner} {b : Basis} {w : Work} (h : Follows e S cfg db m b) (hw : Works e S cfg m w m') :
      Follows e S cfg db m' (b.after e.keccak cfg.params m w)

structure LeadersAgree (K : Keccak256) (e e' : ZeliusEngine) : Prop where
  leader : ∀ view, (e.getLeader K view).map Prod.fst = (e'.getLeader K view).map Prod.fst
  accepts : ∀ S b, (∃ engine, e.verify K S b = some (.ok (), engine)) ↔
    ∃ engine, e'.verify K S b = some (.ok (), engine)

section Engine

variable {K : Keccak256} {vs : List Validator} {engine : ZeliusEngine}

theorem foldl_strike_struck (as : List Address) : (struck vs as).foldl strike vs = as.foldl strike vs := by
  induction as generalizing vs with
  | nil => rfl
  | cons a as ih =>
    unfold struck
    split
    next h => exact ih
    next h => rw [ih, List.foldl_cons, strike_of_not_removable h]

theorem interceptStaking_validators (p : SystemParams) (txs : List Transaction) :
    (interceptStaking p engine txs).validators = (leavers p txs).foldl strike engine.validators := by
  induction txs generalizing engine with
  | nil => rfl
  | cons tx txs ih =>
    unfold interceptStaking leavers at *
    rw [List.foldl_cons, ih]
    by_cases h : tx.toAddr = some p.stakingAddr ∧ tx.data = unstakePayload
    · rw [if_pos h, List.filter_cons_of_pos (by simpa using h), List.map_cons, List.foldl_cons,
        (ZeliusEngine.removeValidator_cases engine _).1]
    · rw [if_neg h, List.filter_cons_of_neg (by simpa using h)]

theorem interceptStaking_fresh (p : SystemParams) (txs : List Transaction) (hf : engine.Fresh K) :
    (interceptStaking p engine txs).Fresh K := by
  refine foldl_invariant (I := ZeliusEngine.Fresh K) ?_ hf
  intro engine tx _ hf
  split
  · exact hf.removeValidator _
  · exact hf

theorem leadersAgree_of_validators {e e' : ZeliusEngine} (hf : e.Fresh K) (hf' : e'.Fresh K)
    (h : e.validators = e'.validators) : LeadersAgree K e e' := by
  have hleader (view : UInt64) : (e.getLeader K view).map Prod.fst = (e'.getLeader K view).map Prod.fst := by
    rw [ZeliusEngine.getLeader_fst hf, ZeliusEngine.getLeader_fst hf', h]
  have himp {e e' : ZeliusEngine} (hsame : ∀ view, (e.getLeader K view).map Prod.fst =
      (e'.getLeader K view).map Prod.fst) (S : Sealing) (b : Block)
      (hok : ∃ engine, e.verify K S b = some (.ok (), engine)) :
      ∃ engine, e'.verify K S b = some (.ok (), engine) := by
    obtain ⟨engine, hverify⟩ := hok
    obtain ⟨hlen, signer, hsigner, hleads⟩ := ZeliusEngine.verify_ok_iff.mp hverify
    have hother := hsame (UInt64.ofNat b.header.number)
    rw [hleads, Option.map_some] at hother
    obtain ⟨⟨leader, engine'⟩, hleads', rfl⟩ := Option.map_eq_some_iff.mp hother.symm
    exact ⟨engine', ZeliusEngine.verify_ok_iff.mpr ⟨hlen, _, hsigner, hleads'⟩⟩
  exact ⟨hleader, fun S b => ⟨himp hleader S b, himp (fun view => (hleader view).symm) S b⟩⟩

end Engine

section Runs

variable {e : Executor} {S : Sealing} {cfg : NetworkConfig} {db : Database} {m m' : Miner} {b : Basis}

theorem Miner.Step.engine {event : Miner.Event} (hevent : ∀ engine, event ≠ .updateValidators engine)
    (h : Miner.Step e S cfg m event m') (hf : m.node.engine.Fresh e.keccak) :
    m'.node.engine.validators = m.node.engine.validators ∧ m'.node.engine.Fresh e.keccak := by
  cases h with
  | dropped hlock hdrop h =>
    cases h with
    | skipped => exact ⟨rfl, hf⟩
    | rejected _ hverify => exact hf.verify hverify
    | imported hskips hverify => exact absurd ⟨hskips, _, hverify⟩ hdrop
  | imported hlock h =>
    obtain ⟨-, -, engine, hverify, rfl⟩ := h
    exact hf.verify hverify
  | updateValidators engine => exact absurd rfl (hevent engine)
  | filter => exact ⟨rfl, hf⟩
  | readParent => exact ⟨rfl, hf⟩
  | execute => exact ⟨rfl, hf⟩
  | persist => exact ⟨rfl, hf⟩

theorem Works.step {w : Work} (h : Works e S cfg m w m') : ∃ event, Miner.Step e S cfg m event m' := by
  cases h with
  | tick => exact ⟨_, .updateValidators _⟩
  | lead => exact ⟨_, .updateValidators _⟩
  | missed => exact ⟨_, .updateValidators _⟩
  | intercept => exact ⟨_, .updateValidators _⟩
  | event _ hstep => exact ⟨_, hstep⟩

structure Rests (K : Keccak256) (engine : ZeliusEngine) (b : Basis) : Prop where
  validators : engine.validators = b.validators
  fresh : engine.Fresh K

theorem Rests.removed {K : Keccak256} {engine engine' : ZeliusEngine} (h : Rests K engine b) {as : List Address}
    (hvalidators : engine'.validators = as.foldl strike engine.validators) (hf : engine'.Fresh K) :
    Rests K engine' { b with removed := b.removed ++ struck engine.validators as } := by
  refine ⟨?_, hf⟩
  have hbasis : b.removed.foldl strike b.registered = engine.validators := h.validators.symm
  rw [hvalidators, ← foldl_strike_struck, Basis.validators, List.foldl_append, hbasis]

theorem Rests.works {w : Work} (h : Rests e.keccak m.node.engine b) (hw : Works e S cfg m w m') :
    Rests e.keccak m'.node.engine (b.after e.keccak cfg.params m w) := by
  cases hw with
  | tick hlock hsync =>
    dsimp only [Basis.after]
    obtain ⟨hzero, rfl⟩ | ⟨hcount, hvalidators, hempty⟩ := syncValidators_cases hsync
    · rw [if_pos hzero]
      exact h
    · rw [if_neg hcount]
      exact ⟨hvalidators, .of_empty hempty⟩
  | lead hleader =>
    obtain ⟨hsame, hf⟩ := h.fresh.getLeader hleader
    exact ⟨hsame.trans h.validators, hf⟩
  | missed a =>
    obtain ⟨hvalidators, hf⟩ := ZeliusEngine.recordNonCompliance_eq (K := e.keccak) m.node.engine a
    dsimp only [Basis.after]
    split
    next hlimit =>
      rw [if_pos hlimit] at hvalidators
      exact h.removed hvalidators (hf h.fresh)
    next hlimit =>
      rw [if_neg hlimit] at hvalidators
      exact ⟨hvalidators.trans h.validators, hf h.fresh⟩
  | intercept hbatch =>
    dsimp only [Basis.after]
    rw [hbatch]
    exact h.removed (interceptStaking_validators _ _) (interceptStaking_fresh _ _ h.fresh)
  | event hevent hstep =>
    obtain ⟨hsame, hf⟩ := hstep.engine hevent h.fresh
    exact ⟨hsame.trans h.validators, hf⟩

theorem Follows.rests (h : Follows e S cfg db m b) : Rests e.keccak m.node.engine b := by
  induction h with
  | @start n hstart =>
    have hengine : (Miner.start n).node.engine = newZelius cfg.validators := (Node.start_idle hstart).1
    rw [hengine]
    exact ⟨rfl, .of_empty rfl⟩
  | work h hw ih => exact ih.works hw

end Runs

/-- Two nodes of a network agree on every leader as long as their lists rest on the same. Nothing in
the code makes them: ticks, missed rounds and the producer's interception are each node's own. -/
theorem leaders_agree {e : Executor} {cfg : NetworkConfig} {S S' : Sealing} {db db' : Database} {m m' : Miner}
    {b b' : Basis} (h : Follows e S cfg db m b) (h' : Follows e S' cfg db' m' b')
    (hregistered : b.registered = b'.registered) (hremoved : b.removed = b'.removed) :
    LeadersAgree e.keccak m.node.engine m'.node.engine := by
  obtain rfl : b = b' := Basis.ext hregistered hremoved
  exact leadersAgree_of_validators h.rests.fresh h'.rests.fresh
    (h.rests.validators.trans h'.rests.validators.symm)

section Sample

theorem ticks_agree : ∃ m m' : Miner,
    Works .ideal sampleSealing sampleConfig sampleMiner .tick m ∧
      Works .ideal sampleSealing sampleConfig sampleMiner (.missed fourthValidator) m' ∧
      LeadersAgree .ideal m.node.engine m'.node.engine := by
  have htick : Works .ideal sampleSealing sampleConfig sampleMiner .tick sampleMiner := by
    refine .tick (m := sampleMiner) rfl ?_
    rw [exec_syncValidators]
    exact if_pos (by decide +kernel)
  have hmissed : Works .ideal sampleSealing sampleConfig sampleMiner (.missed fourthValidator) _ := .missed _
  have hstart := Follows.start start_sampleNode
  refine ⟨sampleMiner, _, htick, hmissed, leaders_agree (hstart.work htick) (hstart.work hmissed) ?_ ?_⟩
  · decide +kernel
  · decide +kernel

def unstakeTx : Transaction where
  hash := 1
  type := .dynamicFee
  chainId := 1337
  sender := some defaultAccount
  nonce := 0
  gas := 30000
  gasFeeCap := 2000000000
  gasTipCap := 0
  toAddr := some systemParams.stakingAddr
  value := 0
  data := unstakePayload
  accessList := []
  v := 0
  r := 1
  s := 1
  size := 100

theorem applyBlock_unstakeTx (ctx : BlockContext) (hbase : ctx.baseFee ≠ none) (s : StateDB) :
    ∃ res, Executor.ideal.ApplyBlock ctx s [unstakeTx] res := by
  refine ⟨_, (Executor.ideal.applyBlock_iff ctx (by simp [schedule_singleton]) _).mpr ⟨⟨?_, ?_⟩, rfl⟩⟩
  · exact Executor.ideal.runInOrder_calm ctx hbase (by decide)
  · have hfees : (Executor.ideal.runInOrder ctx [unstakeTx] (Executor.startBlock s [unstakeTx])
        [unstakeTx]).totalFees = 0 := by
      rw [Executor.runInOrder]
      split
      · rfl
      · exact Executor.ideal.totalFees_systemTx ctx [unstakeTx] _ (by decide)
    rw [hfees]
    decide

theorem filter_unstakeTx :
    [unstakeTx].filter (payable Executor.ideal.keccak sampleMiner.node.state) = [unstakeTx] := by
  have hpayable : payable .ideal sampleMiner.node.state unstakeTx = true := by decide +kernel
  exact List.filter_cons_of_pos hpayable

def unstakeHeader : Header := Node.newHeader sampleSealing sampleConfig sampleGenesis 0 initialBaseFee

def unstakeBlock (res : AppliedBlock) : Block := Node.produceBlock sampleSealing unstakeHeader [unstakeTx] res

theorem unstakeBlock_number (res : AppliedBlock) : (unstakeBlock res).header.number = 1 := rfl

theorem sampleMiner_produces {res : AppliedBlock}
    (happly : Executor.ideal.ApplyBlock (sampleNode.bc.blockContext sampleSealing unstakeHeader) sampleNode.state
      [unstakeTx] res) :
    ∃ m b, Follows .ideal sampleSealing sampleConfig .empty m b ∧
      m.node.pending = some (unstakeBlock res, res.receipts) ∧ m.node.bc = sampleNode.bc ∧
      m.node.engine = sampleNode.engine.removeValidator defaultAccount := by
  have hfilter : Miner.Step .ideal sampleSealing sampleConfig sampleMiner _ _ := .filter [unstakeTx] rfl rfl
  rw [filter_unstakeTx] at hfilter
  have hparent := Follows.work (.work (.work (.start start_sampleNode) (.event (by simp) hfilter)) (.intercept rfl rfl))
    (.event (by simp) (.readParent rfl rfl))
  have hexecute := hparent.work (.event (by simp) (show Miner.Step .ideal sampleSealing _ _ (.execute 0) _ from
    .execute rfl rfl sampleNode_onlyGenesis.current (show calcBaseFee sampleGenesis.header = some initialBaseFee from rfl)
      happly))
  exact ⟨_, _, hexecute, rfl, rfl, rfl⟩

theorem sampleNode_accepts_unstakeBlock (res : AppliedBlock) : ∃ engine,
    sampleNode.engine.verify Executor.ideal.keccak sampleSealing (unstakeBlock res) = some (.ok (), engine) := by
  have hleader : sampleLeader 1 = fourthValidator := by decide +kernel
  apply sampleNode_accepts
  rw [unstakeBlock_number, hleader]
  rfl

theorem unstakeBlock_persisted {n : Node} (hbc : n.bc = sampleNode.bc) (res : AppliedBlock) :
    (Node.persistBlock sampleSealing n (unstakeBlock res) res.receipts).bc.currentBlock = some (unstakeBlock res) := by
  obtain ⟨hknown, -⟩ | hadded := Node.persistBlock_cases sampleSealing n (unstakeBlock res) res.receipts
  · rw [hbc, sampleNode_unknown (by rw [unstakeBlock_number]; decide)] at hknown
    cases hknown
  · rw [hbc] at hadded
    exact sampleNode_moved hadded Nat.zero_lt_one

def unstakeImporter (engine : ZeliusEngine) (res : AppliedBlock) : Miner :=
  { sampleMiner with
    node := Node.importBlock sampleSealing { sampleNode with engine := engine } (unstakeBlock res) res
    last := some (unstakeBlock res) }

theorem unstakeBlock_imported (engine : ZeliusEngine) (res : AppliedBlock) :
    (unstakeImporter engine res).node.bc.currentBlock = some (unstakeBlock res) := by
  have hadded := sampleNode_importBlock (b := unstakeBlock res) (by rw [unstakeBlock_number]; decide) engine res
  exact sampleNode_moved hadded Nat.zero_lt_one

theorem works_unstakeImporter {engine : ZeliusEngine} {res : AppliedBlock}
    (happly : Executor.ideal.ApplyBlock (sampleNode.bc.blockContext sampleSealing unstakeHeader) sampleNode.state
      [unstakeTx] res)
    (hverify : sampleNode.engine.verify Executor.ideal.keccak sampleSealing (unstakeBlock res) =
      some (.ok (), engine)) :
    Works .ideal sampleSealing sampleConfig sampleMiner (.event (.deliver (.newBlock (unstakeBlock res) false)))
      (unstakeImporter engine res) := by
  have himports : Node.Imports .ideal sampleSealing sampleMiner.node (.newBlock (unstakeBlock res) false) res
      (unstakeImporter engine res).node := ⟨⟨rfl, engine, hverify⟩, happly, engine, hverify, rfl⟩
  exact .event (by simp) (.imported rfl himports)

theorem interception_splits_leaders : ∃ (block : Block) (receipts : List Receipt) (m producer importer : Miner)
    (b : Basis),
    Node.start .ideal sampleSealing sampleConfig .empty = some sampleNode ∧
      (sampleNode.engine.getLeader .ideal 1).map Prod.fst = some fourthValidator ∧
      Follows .ideal sampleSealing sampleConfig .empty m b ∧
      m.node.pending = some (block, receipts) ∧ block.header.number = 1 ∧
      Works .ideal sampleSealing sampleConfig m (.event .persist) producer ∧
      Works .ideal sampleSealing sampleConfig sampleMiner (.event (.deliver (.newBlock block false))) importer ∧
      producer.node.bc.currentBlock = some block ∧ importer.node.bc.currentBlock = some block ∧
      (producer.node.engine.getLeader .ideal 2).map Prod.fst ≠
        (importer.node.engine.getLeader .ideal 2).map Prod.fst := by
  obtain ⟨res, happly⟩ := applyBlock_unstakeTx
    (sampleNode.bc.blockContext sampleSealing unstakeHeader) (Option.some_ne_none _) sampleNode.state
  obtain ⟨m, b, hfollows, hpending, hbc, hengine⟩ := sampleMiner_produces happly
  obtain ⟨engine, hverify⟩ := sampleNode_accepts_unstakeBlock res
  have hfresh : sampleNode.engine.Fresh .ideal := .of_empty rfl
  obtain ⟨hsame, hfresh'⟩ := hfresh.verify hverify
  have hkept : (engine.getLeader .ideal 2).map Prod.fst = some defaultAccount := by
    rw [ZeliusEngine.getLeader_fst hfresh', hsame]
    decide +kernel
  have hdropped : (m.node.engine.getLeader .ideal 2).map Prod.fst ≠ some defaultAccount := by
    rw [hengine]
    decide +kernel
  refine ⟨unstakeBlock res, res.receipts, m, _, unstakeImporter engine res, b, start_sampleNode, by decide +kernel,
    hfollows, hpending, unstakeBlock_number res, .event (by simp) (.persist hpending),
    works_unstakeImporter happly hverify, unstakeBlock_persisted hbc res, unstakeBlock_imported engine res, ?_⟩
  intro hequal
  exact hdropped (hequal.trans hkept)

end Sample

end Zephyria
