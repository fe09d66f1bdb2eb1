import Zephyria.ChainLinkage
import Zephyria.Seals

namespace Zephyria

namespace Node

variable (e : Executor) (S : Sealing)

structure Agrees (n : Node) (header : Header) (res : AppliedBlock) : Prop where
  root : header.verkleRoot = res.root
  gasUsed : header.gasUsed = getGasUsed res.receipts
  baseFee : ∃ parent, n.bc.getBlockByHash header.parentHash = some parent ∧
    header.baseFee = calcBaseFee parent.header ∧ header.baseFee.isSome

structure Imports (n : Node) (d : Delivery) (res : AppliedBlock) (n' : Node) : Prop where
  passes : n.Passes e S d
  applied : e.ApplyBlock (n.bc.blockContext S d.block.header) n.state d.block.transactions res
  result : ∃ engine, n.engine.verify e.keccak S d.block = some (.ok (), engine) ∧
    n' = importBlock S { n with engine := engine } d.block res

structure HeaderAgreement (n : Node) (d : Delivery) (res : AppliedBlock) (n' : Node) : Prop where
  added : ∀ hash stored, n.bc.getBlockByHash hash = none → n'.bc.getBlockByHash hash = some stored →
    stored = d.block ∧ hash = S.headerHash d.block.header ∧ n'.engine.Accepts e.keccak S stored ∧
      n.Agrees d.block.header res
  refused : ¬n.Agrees d.block.header res → n'.bc = n.bc ∧ n'.state = n.state

def Agreed (n : Node) (d : Delivery) : Prop :=
  n.Passes e S d → ∀ res, e.ApplyBlock (n.bc.blockContext S d.block.header) n.state d.block.transactions res →
    n.Agrees d.block.header res

def Fresh (n : Node) (b : Block) : Prop :=
  ∀ root, n.bc.db (blockBodyPrefix :: hashBytes (S.headerHash { b.header with verkleRoot := root })) = none

variable {e S} {n n' : Node} {d : Delivery} {res : AppliedBlock}

theorem deliver_cases (h : Deliver e S n d n') :
    (n'.bc = n.bc ∧ n'.state = n.state) ∨ ∃ res, Imports e S n d res n' := by
  cases h with
  | skipped => exact Or.inl ⟨rfl, rfl⟩
  | rejected => exact Or.inl ⟨rfl, rfl⟩
  | @imported engine res hskip hverify happly =>
    exact Or.inr ⟨res, ⟨hskip, engine, hverify⟩, happly, engine, hverify, rfl⟩

theorem Imports.headerAgreement (h : Imports e S n d res n') (hagree : n.Agrees d.block.header res) :
    HeaderAgreement e S n d res n' := by
  obtain ⟨-, -, engine, hverify, rfl⟩ := h
  refine ⟨fun hash stored hnone hsome => ?_, fun hne => absurd hagree hne⟩
  have hblock : { d.block with header := { d.block.header with verkleRoot := res.root } } = d.block := by
    rw [← hagree.root]
  have hcases := importBlock_cases S { n with engine := engine } d.block res
  rw [hblock, ← hagree.root] at hcases
  change n.bc.db.readBlock hash = none at hnone
  change (importBlock S { n with engine := engine } d.block res).bc.db.readBlock hash = some stored at hsome
  rcases hcases with ⟨-, hsame⟩ | hadded
  · rw [hsame.block] at hsome
    cases hnone.symm.trans hsome
  · rw [hadded.block] at hsome
    split at hsome
    next heq =>
      obtain ⟨rfl, -⟩ := Block.unmarshal_eq_some.mp hsome
      exact ⟨rfl, heq, ⟨engine, ZeliusEngine.verify_again hverify⟩, hagree⟩
    next => cases hnone.symm.trans hsome

theorem Imports.changes (h : Imports e S n d res n') (hfresh : n.Fresh S d.block) : n'.bc ≠ n.bc := by
  obtain ⟨-, -, engine, -, rfl⟩ := h
  intro hsame
  have hnone := hfresh res.root
  rcases persistBlock_result S { n with engine := engine, state := res.statedb }
    { d.block with header := { d.block.header with verkleRoot := res.root } } res.receipts with ⟨hknown, -⟩ | hadd
  · rw [Database.readBlock, hnone] at hknown
    cases hknown
  · have hstored := Blockchain.addBlock_body hadd
    rw [show (persistBlock S _ _ _).bc = n.bc from hsame, hnone] at hstored
    cases hstored

/-- Nothing is compared with the header, so it agrees with what is stored exactly as long as every
block that passes `Verify` agrees by itself. -/
theorem header_agreement_iff (n : Node) (d : Delivery) :
    (∀ n', Deliver e S n d n' → (n'.bc = n.bc ∧ n'.state = n.state) ∨ ∃ res, Imports e S n d res n') ∧
      (n.Agreed e S d → ∀ res n', Imports e S n d res n' → HeaderAgreement e S n d res n') ∧
      (n.Fresh S d.block → (∀ res n', Imports e S n d res n' → HeaderAgreement e S n d res n') →
        n.Agreed e S d) := by
  refine ⟨fun n' => deliver_cases, ?_, ?_⟩
  · intro hagreed res n' himports
    exact himports.headerAgreement (hagreed himports.passes res himports.applied)
  · intro hfresh hall hpasses res happly
    obtain ⟨engine, hverify⟩ := hpasses.2
    have himports : Imports e S n d res _ := ⟨hpasses, happly, engine, hverify, rfl⟩
    by_contra hne
    exact himports.changes hfresh ((hall res _ himports).refused hne).1

end Node

section Sample

def rootedBlock (verkleRoot : Hash) : Block :=
  { sampleBlock 1 0 genesisHash with
    header := { (sampleBlock 1 0 genesisHash).header with verkleRoot := verkleRoot } }

def appliedEmpty (b : Block) : AppliedBlock :=
  Executor.ideal.closeBlock (sampleNode.bc.blockContext sampleSealing b.header) []
    (Executor.startBlock sampleNode.state [])

theorem sampleNode_imports (verkleRoot : Hash) : ∃ n', Node.Imports .ideal sampleSealing sampleNode
    (.syncBlock (rootedBlock verkleRoot)) (appliedEmpty (rootedBlock verkleRoot)) n' := by
  obtain ⟨engine, hverify⟩ := sampleNode_accepts (b := rootedBlock verkleRoot) rfl
  exact ⟨_, ⟨rfl, engine, hverify⟩, (Executor.ideal.applyBlock_nil _ _ _).mpr rfl, engine, hverify, rfl⟩

theorem sampleNode_agreed : sampleNode.Agreed .ideal sampleSealing (.syncBlock (rootedBlock 0)) := by
  intro _ res happly
  obtain rfl := (Executor.ideal.applyBlock_nil _ _ _).mp happly
  have hparent : sampleNode.bc.getBlockByHash genesisHash = some sampleGenesis := by
    rw [Blockchain.getBlockByHash, sampleNode_onlyGenesis.block, headerHash_sampleGenesis, if_pos rfl]
  exact ⟨(intermediateRoot_ideal _).symm, rfl, sampleGenesis, hparent, rfl, rfl⟩

theorem priced_block_agrees : ∃ res n', Node.start .ideal sampleSealing sampleConfig .empty = some sampleNode ∧
    Node.Imports .ideal sampleSealing sampleNode (.syncBlock (rootedBlock 0)) res n' ∧
      Node.HeaderAgreement .ideal sampleSealing sampleNode (.syncBlock (rootedBlock 0)) res n' := by
  obtain ⟨n', himports⟩ := sampleNode_imports 0
  obtain ⟨-, hagreement, -⟩ := Node.header_agreement_iff (e := .ideal) (S := sampleSealing) sampleNode
    (.syncBlock (rootedBlock 0))
  exact ⟨_, n', start_sampleNode, himports, hagreement sampleNode_agreed _ n' himports⟩

theorem wrong_root_imported : ∃ res n', Node.start .ideal sampleSealing sampleConfig .empty = some sampleNode ∧
    Node.Imports .ideal sampleSealing sampleNode (.syncBlock (rootedBlock 7)) res n' ∧
      ¬Node.HeaderAgreement .ideal sampleSealing sampleNode (.syncBlock (rootedBlock 7)) res n' := by
  obtain ⟨n', himports⟩ := sampleNode_imports 7
  refine ⟨_, n', start_sampleNode, himports, fun hagreement => ?_⟩
  have hdiffers : ¬sampleNode.Agrees (rootedBlock 7).header (appliedEmpty (rootedBlock 7)) := by
    intro hagree
    have hroot : (7 : Hash) = 0 := hagree.root.trans (intermediateRoot_ideal _)
    exact absurd hroot (by decide)
  obtain ⟨hsame, -⟩ := hagreement.refused hdiffers
  obtain ⟨-, -, engine, -, rfl⟩ := himports
  -- The head has moved from genesis to the block.
  have hadded := sampleNode_importBlock (b := rootedBlock 7) (by decide) engine (appliedEmpty (rootedBlock 7))
  have hmoved := sampleNode_moved hadded Nat.zero_lt_one
  have hstayed := congrArg Blockchain.currentBlock hsame
  rw [sampleNode_onlyGenesis.current] at hstayed
  have hnumber := congrArg (fun b => b.header.number) (Option.some.inj (hmoved.symm.trans hstayed))
  cases hnumber

end Sample

end Zephyria
