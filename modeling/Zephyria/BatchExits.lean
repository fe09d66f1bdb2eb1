import Zephyria.LeaderAgreement
import Zephyria.Seals

namespace Zephyria

open Relation

/-- How a call of `processBatch` leaves the node: whether the state lock is held, and what it has
handed to the goroutine that persists blocks and then frees the lock. -/
structure BatchExit where
  node : Node
  locked : Bool
  handed : Option (Block × List Receipt)

namespace Node

variable (e : Executor) (S : Sealing) (cfg : NetworkConfig)

inductive Executes (n : Node) (txs : List Transaction) : List Transaction → Header → AppliedBlock → Prop
  | intro {valid : List Transaction} {parent : Block} {time : UInt64} {fee : ℕ} {res : AppliedBlock}
      (hlock : n.pending = none) (hvalid : valid.Perm (txs.filter fun tx => tx.sender.isSome))
      (hparent : n.bc.currentBlock = some parent) (hfee : calcBaseFee parent.header = some fee)
      (happly : e.ApplyBlock (n.bc.blockContext S (newHeader S cfg parent time fee)) n.state
        (valid.filter (payable e.keccak n.state)) res) :
      Executes n txs (valid.filter (payable e.keccak n.state)) (newHeader S cfg parent time fee) res

def afterBatch (n : Node) (txs : List Transaction) (res : AppliedBlock) : Node :=
  { n with engine := interceptStaking cfg.params n.engine txs, state := res.statedb }

def unsealedBlock (header : Header) (txs : List Transaction) (res : AppliedBlock) : Block :=
  ⟨{ header with verkleRoot := res.root, gasUsed := getGasUsed res.receipts }, txs⟩

/-- A call of `processBatch` that nothing else gets between. `ApplyBlock` returns no error, and the
return after a failed seal frees nothing. -/
inductive ProcessBatch (key : SigningKey) (n : Node) (txs : List Transaction) : BatchExit → Prop
  | handed {kept : List Transaction} {header : Header} {res : AppliedBlock} {b : Block}
      (h : n.Executes e S cfg txs kept header res)
      (hseal : ZeliusEngine.sealWith S key (unsealedBlock header kept res) = .ok b) :
      ProcessBatch key n txs ⟨n.afterBatch cfg kept res, true, some (b, res.receipts)⟩
  | failed {kept : List Transaction} {header : Header} {res : AppliedBlock} {err : SealError}
      (h : n.Executes e S cfg txs kept header res)
      (hseal : ZeliusEngine.sealWith S key (unsealedBlock header kept res) = .error err) :
      ProcessBatch key n txs ⟨n.afterBatch cfg kept res, true, none⟩

structure Untouched (n : Node) (exit : BatchExit) : Prop where
  unlocked : exit.locked = false
  state : ∀ key, exit.node.state.getVerkleValue key = n.state.getVerkleValue key
  validators : exit.node.engine.validators = n.engine.validators

def FailsCleanly (n : Node) (exit : BatchExit) : Prop := exit.handed = none → n.Untouched exit

end Node

section Exits

variable {e : Executor} {S : Sealing} {cfg : NetworkConfig} {key : SigningKey} {txs : List Transaction}
  {exit : BatchExit}

namespace Node

variable {n : Node}

theorem ProcessBatch.exit_eq (h : n.ProcessBatch e S cfg key txs exit) : ∃ kept header res,
    n.Executes e S cfg txs kept header res ∧ exit.node = n.afterBatch cfg kept res ∧ exit.locked = true ∧
      exit.handed = if key = .accepted then some (produceBlock S header kept res, res.receipts) else none := by
  cases h with
  | handed hexec hseal =>
    obtain ⟨hkey, rfl⟩ := ZeliusEngine.sealWith_ok_iff.mp hseal
    exact ⟨_, _, _, hexec, rfl, rfl, (if_pos hkey).symm⟩
  | failed hexec hseal =>
    refine ⟨_, _, _, hexec, rfl, rfl, (if_neg ?_).symm⟩
    rintro rfl
    cases hseal

theorem ProcessBatch.handed_eq_none_iff (h : n.ProcessBatch e S cfg key txs exit) :
    exit.handed = none ↔ key ≠ .accepted := by
  obtain ⟨kept, header, res, -, -, -, hhanded⟩ := h.exit_eq
  rw [hhanded]
  simp

theorem exists_processBatch {kept : List Transaction} {header : Header} {res : AppliedBlock}
    (h : n.Executes e S cfg txs kept header res) (key : SigningKey) : ∃ exit,
    n.ProcessBatch e S cfg key txs exit ∧ exit.node = n.afterBatch cfg kept res := by
  cases hseal : ZeliusEngine.sealWith S key (unsealedBlock header kept res) with
  | ok b => exact ⟨_, .handed h hseal, rfl⟩
  | error err => exact ⟨_, .failed h hseal, rfl⟩

theorem ProcessBatch.works {m : Miner} (h : m.node.ProcessBatch e S cfg key txs exit)
    (hbatch : m.batch = none) (hparent : m.node.parent = none) (hhanded : exit.handed.isSome) :
    ∃ m', ReflTransGen (fun m m' => ∃ w, Works e S cfg m w m') m m' ∧
      m'.node = { exit.node with pending := exit.handed } := by
  obtain ⟨node, batch, last⟩ := m
  obtain ⟨bc, state, engine, parent, pending⟩ := node
  obtain rfl : batch = none := hbatch
  obtain rfl : parent = none := hparent
  obtain ⟨kept, header, res, hexec, hnode, -, heq⟩ := h.exit_eq
  have hkey : key = .accepted := by
    by_contra hkey
    rw [h.handed_eq_none_iff.mpr hkey] at hhanded
    cases hhanded
  rw [if_pos hkey] at heq
  rw [hnode, heq]
  cases hexec with
  | @intro valid parent time fee res hlock hvalid hparent hfee happly =>
    obtain rfl : pending = none := hlock
    refine ⟨_, .tail (.tail (.tail (.single
      ⟨_, .event (by simp) (.filter valid rfl rfl)⟩) ⟨_, .intercept rfl rfl⟩)
      ⟨_, .event (by simp) (.readParent rfl rfl)⟩)
      ⟨_, .event (by simp) (show Miner.Step e S cfg _ (.execute time) _ from
        .execute rfl rfl hparent hfee happly)⟩, rfl⟩

end Node

theorem batch_fails_cleanly_iff {n : Node} (h : n.ProcessBatch e S cfg key txs exit) :
    n.FailsCleanly exit ↔ key = .accepted := by
  constructor
  · intro hclean
    by_contra hkey
    obtain ⟨kept, header, res, -, -, hlocked, -⟩ := h.exit_eq
    have huntouched := hclean (h.handed_eq_none_iff.mpr hkey)
    exact absurd (hlocked.symm.trans huntouched.unlocked) (by decide)
  · intro hkey hnone
    exact absurd hkey (h.handed_eq_none_iff.mp hnone)

end Exits

section Sample

theorem sampleNode_rewarded {res : AppliedBlock}
    (happly : Executor.ideal.ApplyBlock (sampleNode.bc.blockContext sampleSealing unstakeHeader) sampleNode.state
      [unstakeTx] res) :
    (accounts .ideal res.statedb.getVerkleValue).balance defaultAccount ≠
      (accounts .ideal sampleNode.state.getVerkleValue).balance defaultAccount := by
  obtain ⟨-, rfl⟩ := (Executor.ideal.applyBlock_iff _ (by simp [schedule_singleton]) res).mp happly
  decide +kernel

theorem sampleNode_executes : ∃ header res,
    sampleNode.Executes .ideal sampleSealing sampleConfig [unstakeTx] [unstakeTx] header res ∧
      (accounts .ideal res.statedb.getVerkleValue).balance defaultAccount ≠
        (accounts .ideal sampleNode.state.getVerkleValue).balance defaultAccount := by
  obtain ⟨res, happly⟩ := applyBlock_unstakeTx
    (sampleNode.bc.blockContext sampleSealing unstakeHeader) (Option.some_ne_none _) sampleNode.state
  have hfilter : [unstakeTx].filter (payable Executor.ideal.keccak sampleNode.state) = [unstakeTx] := filter_unstakeTx
  have hexec : sampleNode.Executes .ideal sampleSealing sampleConfig [unstakeTx]
      ([unstakeTx].filter (payable Executor.ideal.keccak sampleNode.state)) unstakeHeader res :=
    .intro rfl (List.Perm.refl _) sampleNode_onlyGenesis.current
      (show calcBaseFee sampleGenesis.header = some initialBaseFee from rfl) (by rw [hfilter]; exact happly)
  rw [hfilter] at hexec
  exact ⟨_, res, hexec, sampleNode_rewarded happly⟩

theorem accepted_key_hands_over : ∃ exit,
    sampleNode.ProcessBatch .ideal sampleSealing sampleConfig .accepted [unstakeTx] exit ∧ exit.handed.isSome ∧
      sampleNode.FailsCleanly exit := by
  obtain ⟨header, res, hexec, -⟩ := sampleNode_executes
  obtain ⟨exit, hexit, -⟩ := Node.exists_processBatch hexec .accepted
  refine ⟨exit, hexit, ?_, (batch_fails_cleanly_iff hexit).mpr rfl⟩
  rw [Option.isSome_iff_ne_none, ne_eq, hexit.handed_eq_none_iff]
  simp

theorem refused_key_keeps_lock : ∃ exit,
    sampleNode.ProcessBatch .ideal sampleSealing sampleConfig .refused [unstakeTx] exit ∧
      exit.handed = none ∧ exit.locked = true ∧
      (accounts .ideal exit.node.state.getVerkleValue).balance defaultAccount ≠
        (accounts .ideal sampleNode.state.getVerkleValue).balance defaultAccount ∧
      exit.node.engine.validators ≠ sampleNode.engine.validators ∧ ¬sampleNode.FailsCleanly exit := by
  obtain ⟨header, res, hexec, hrewarded⟩ := sampleNode_executes
  have hvalidators : (interceptStaking sampleConfig.params sampleNode.engine [unstakeTx]).validators ≠
      sampleNode.engine.validators := by decide +kernel
  refine ⟨_, .failed hexec rfl, rfl, rfl, hrewarded, hvalidators, ?_⟩
  intro hclean
  exact hvalidators (hclean rfl).validators

end Sample

end Zephyria
