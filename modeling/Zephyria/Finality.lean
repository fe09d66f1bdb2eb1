import Zephyria.CanonicalIndex
import Zephyria.ChainLinkage

namespace Zephyria

open Relation

/-- Adding the block writes neither to the entry of `k` nor, as a new head, to the key it shares. -/
def Spares (k : UInt64) (bc : Blockchain) (b : Block) : Prop :=
  k ≠ UInt64.ofNat b.header.number ∧ ¬(k = headNumber ∧ bc.isNewer b)

def StoredByHash (S : Sealing) (bc : Blockchain) : Prop :=
  ∀ hash b, bc.db.readBlock hash = some b → S.headerHash b.header = hash

section Entries

variable {S : Sealing} {bc bc' : Blockchain} {b x : Block} {k : UInt64}

theorem Entered.of_sameLookups {bc₁ : Blockchain} (h : SameLookups bc bc₁) (ha : Entered S bc₁ b bc') :
    Entered S bc b bc' := by
  refine ⟨ha.added.of_sameLookups h, fun n => ?_⟩
  rw [ha.index n, h.canonical, Blockchain.isNewer, h.current, Blockchain.isNewer]

theorem Entered.getBlockByNumber_spared (h : Entered S bc b bc') (hspares : Spares k bc b)
    (hx : bc.getBlockByNumber k = some x) : bc'.getBlockByNumber k = some x := by
  obtain ⟨hset, hblock⟩ := getBlockByNumber_eq_some_iff.mp hx
  have hindex : bc'.db.readCanonicalHash k = bc.db.readCanonicalHash k := by
    rw [h.index, if_neg]
    rintro (heq | hhead)
    · exact hspares.1 heq
    · exact hspares.2 hhead
  apply getBlockByNumber_eq_some_iff.mpr
  rw [hindex]
  exact ⟨hset, h.added.readBlock_old hblock⟩

theorem Entered.getBlockByNumber_taken (h : Entered S bc b bc') (hzero : ∀ header, S.headerHash header ≠ 0)
    (htaken : ¬Spares k bc b) : bc'.getBlockByNumber k = b.unmarshal := by
  have hindex : bc'.db.readCanonicalHash k = S.headerHash b.header := by
    rw [h.index, if_pos]
    by_contra hnot
    apply htaken
    exact ⟨fun heq => hnot (Or.inl heq), fun hhead => hnot (Or.inr hhead)⟩
  unfold Blockchain.getBlockByNumber
  dsimp only
  rw [hindex, if_neg (hzero _), h.added.block, if_pos rfl]

theorem Entered.ne_of_answered (h : Entered S bc b bc') (hstored : StoredByHash S bc)
    (hx : bc.getBlockByNumber k = some x) : b ≠ x := by
  obtain ⟨-, hblock⟩ := getBlockByNumber_eq_some_iff.mp hx
  rintro rfl
  have hnew := h.added.new
  rw [hstored _ b hblock, hblock] at hnew
  cases hnew

theorem StoredByHash.of_sameLookups (h : StoredByHash S bc) (hsame : SameLookups bc bc') :
    StoredByHash S bc' := by
  intro hash b hb
  rw [hsame.block] at hb
  exact h hash b hb

theorem StoredByHash.entered (h : StoredByHash S bc) (ha : Entered S bc b bc') : StoredByHash S bc' := by
  intro hash x hx
  rw [ha.added.block] at hx
  split at hx
  next heq =>
    obtain ⟨rfl, -⟩ := Block.unmarshal_eq_some.mp hx
    exact heq.symm
  next => exact h hash x hx

end Entries

namespace Node

variable (e : Executor) (S : Sealing) (cfg : NetworkConfig)

def Keeps (k : UInt64) (n : Node) : Event → Prop
  | .deliver d => n.pending = none → n.Passes e S d → ∀ res,
      e.ApplyBlock (n.bc.blockContext S d.block.header) n.state d.block.transactions res →
      n.bc.db.readBlock (S.headerHash { d.block.header with verkleRoot := res.root }) = none →
      Spares k n.bc d.block
  | .persist => ∀ b receipts, n.pending = some (b, receipts) →
      n.bc.db.readBlock (S.headerHash b.header) = none → Spares k n.bc b
  | _ => True

variable {e S cfg} {n n' : Node} {k : UInt64} {x : Block}

theorem persistBlock_entered (n : Node) (b : Block) (receipts : List Receipt) :
    ((n.bc.db.readBlock (S.headerHash b.header)).isSome ∧ SameLookups n.bc (persistBlock S n b receipts).bc) ∨
      Entered S n.bc b (persistBlock S n b receipts).bc := by
  obtain hknown | hadd := persistBlock_result S n b receipts
  · exact Or.inl hknown
  · exact Or.inr (.of_sameLookups (sameLookups_persistState n.state n.bc)
      ⟨Blockchain.added_of_addBlock hadd, readCanonicalHash_addBlock hadd⟩)

theorem importBlock_entered (n : Node) (b : Block) (res : AppliedBlock) :
    ((n.bc.db.readBlock (S.headerHash { b.header with verkleRoot := res.root })).isSome ∧
        SameLookups n.bc (importBlock S n b res).bc) ∨
      Entered S n.bc { b with header := { b.header with verkleRoot := res.root } } (importBlock S n b res).bc :=
  persistBlock_entered { n with state := res.statedb }
    { b with header := { b.header with verkleRoot := res.root } } res.receipts

theorem Step.lookups {event : Event} (hstep : Step e S cfg n event n') :
    SameLookups n.bc n'.bc ∨ ∃ b, Entered S n.bc b n'.bc ∧ (n.Keeps e S k event → Spares k n.bc b) := by
  have hsame : SameLookups n.bc n.bc := ⟨rfl, fun _ => rfl, fun _ => rfl⟩
  cases hstep with
  | deliver hlock hdeliver =>
    cases hdeliver with
    | skipped => exact Or.inl hsame
    | rejected => exact Or.inl hsame
    | @imported engine res hskip hverify happly =>
      rcases importBlock_entered (S := S) { n with engine := engine } _ res with ⟨-, hsame⟩ | hentered
      · exact Or.inl hsame
      · refine Or.inr ⟨_, hentered, fun hkeeps => ?_⟩
        exact hkeeps hlock ⟨hskip, engine, hverify⟩ res happly hentered.added.new
  | updateValidators => exact Or.inl hsame
  | readParent => exact Or.inl hsame
  | execute => exact Or.inl hsame
  | @persist b receipts hp =>
    rcases persistBlock_entered (S := S) { n with pending := none } b receipts with ⟨-, hsame⟩ | hentered
    · exact Or.inl hsame
    · exact Or.inr ⟨b, hentered, fun hkeeps => hkeeps b receipts hp hentered.added.new⟩

theorem getBlockByNumber_kept {event : Event} (hkeeps : n.Keeps e S k event) (hstep : Step e S cfg n event n')
    (hx : n.bc.getBlockByNumber k = some x) : n'.bc.getBlockByNumber k = some x := by
  rcases hstep.lookups (k := k) with hsame | ⟨b, hentered, hspares⟩
  · rw [hsame.getBlockByNumber, hx]
  · exact hentered.getBlockByNumber_spared (hspares hkeeps) hx

theorem storedByHash_run {n₀ : Node} (hstart : start e S cfg .empty = some n₀)
    (h : ReflTransGen (fun n n' => ∃ event, Step e S cfg n event n') n₀ n) : StoredByHash S n.bc := by
  induction h with
  | refl =>
    intro hash b hb
    rw [(start_empty hstart).block] at hb
    split at hb
    next heq =>
      obtain rfl := Option.some.inj hb
      exact heq.symm
    next => cases hb
  | tail _ hstep ih =>
    obtain ⟨event, hstep⟩ := hstep
    rcases hstep.lookups (k := 0) with hsame | ⟨b, hentered, -⟩
    · exact ih.of_sameLookups hsame
    · exact ih.entered hentered

theorem keeps_of_forall_step (hzero : ∀ header, S.headerHash header ≠ 0) (hstored : StoredByHash S n.bc)
    (hx : n.bc.getBlockByNumber k = some x) {event : Event}
    (hall : ∀ n', Step e S cfg n event n' → n'.bc.getBlockByNumber k = some x) : n.Keeps e S k event := by
  -- A block that takes the entry is found there in place of the one that was.
  have hnever {b : Block} {bc' : Blockchain} (hentered : Entered S n.bc b bc')
      (hafter : bc'.getBlockByNumber k = some x) : Spares k n.bc b := by
    by_contra htaken
    have hread := (hentered.getBlockByNumber_taken hzero htaken).symm.trans hafter
    exact hentered.ne_of_answered hstored hx (Block.unmarshal_eq_some.mp hread).1
  cases event with
  | deliver d =>
    intro hlock hpasses res happly hnew
    obtain ⟨hskip, engine, hverify⟩ := hpasses
    have hafter := hall _ (.deliver hlock (.imported hskip hverify happly))
    rcases importBlock_entered (S := S) { n with engine := engine } d.block res with ⟨hknown, -⟩ | hentered
    · exact absurd (Option.isSome_iff_ne_none.mp hknown) (not_not.mpr hnew)
    · have hspares := hnever hentered hafter
      exact hspares
  | persist =>
    intro b receipts hp hnew
    have hafter := hall _ (.persist hp)
    rcases persistBlock_entered (S := S) { n with pending := none } b receipts with ⟨hknown, -⟩ | hentered
    · exact absurd (Option.isSome_iff_ne_none.mp hknown) (not_not.mpr hnew)
    · exact hnever hentered hafter
  | updateValidators => trivial
  | readParent => trivial
  | execute => trivial

theorem finality (hzero : ∀ header, S.headerHash header ≠ 0) {n₀ : Node}
    (hstart : start e S cfg .empty = some n₀)
    (h : ReflTransGen (fun n n' => ∃ event, Step e S cfg n event n') n₀ n)
    (hx : n.bc.getBlockByNumber k = some x) :
    (∀ n', ReflTransGen (fun n n' => ∃ event, n.Keeps e S k event ∧ Step e S cfg n event n') n n' →
        n'.bc.getBlockByNumber k = some x) ∧
      ∀ event, (∀ n', Step e S cfg n event n' → n'.bc.getBlockByNumber k = some x) ↔ n.Keeps e S k event := by
  constructor
  · intro n' hrun
    apply guarded_invariant (I := fun n : Node => n.bc.getBlockByNumber k = some x) _ hx hrun
    intro n event n' hn hkeeps hstep
    exact getBlockByNumber_kept hkeeps hstep hn
  · intro event
    constructor
    · exact keeps_of_forall_step hzero (storedByHash_run hstart h) hx
    · intro hkeeps n' hstep
      exact getBlockByNumber_kept hkeeps hstep hx

end Node

section Sample

theorem importEmpty_entered {n : Node} (engine : ZeliusEngine) {number : ℕ} {time : UInt64} {parentHash : Hash}
    (hnew : n.bc.db.readBlock (sampleSealing.headerHash (sampleBlock number time parentHash).header) = none) :
    Entered sampleSealing n.bc (sampleBlock number time parentHash)
      (importEmpty n engine (sampleBlock number time parentHash)).bc := by
  have hroot (ctx : BlockContext) : (Executor.ideal.closeBlock ctx []
      (Executor.startBlock n.state [])).root = 0 := intermediateRoot_ideal _
  have hcases := Node.importBlock_entered (S := sampleSealing) { n with engine := engine }
    (sampleBlock number time parentHash) (Executor.ideal.closeBlock
      (n.bc.blockContext sampleSealing (sampleBlock number time parentHash).header) []
      (Executor.startBlock n.state []))
  rw [hroot] at hcases
  rcases hcases with ⟨hknown, -⟩ | hentered
  · exact absurd (Option.isSome_iff_ne_none.mp hknown) (not_not.mpr hnew)
  · exact hentered

theorem sampleNode_verify_twice (parentHash : Hash) : ∃ engine,
    sampleNode.engine.verify Executor.ideal.keccak sampleSealing (sampleBlock 1 0 parentHash) =
        some (.ok (), engine) ∧
      engine.verify Executor.ideal.keccak sampleSealing (sampleBlock 1 1 parentHash) = some (.ok (), engine) := by
  obtain ⟨engine, hverify⟩ := sampleNode_verify 1 0 parentHash
  obtain ⟨hlen, signer, hsigner, hleader⟩ := ZeliusEngine.verify_ok_iff.mp hverify
  have hagain := ZeliusEngine.getLeader_again hleader
  exact ⟨engine, hverify, ZeliusEngine.verify_ok_iff.mpr ⟨hlen, signer, hsigner, hagain⟩⟩

theorem genesis_stays_final : ∃ n : Node,
    Node.Step .ideal sampleSealing sampleConfig sampleNode (.deliver (.syncBlock (sampleBlock 1 0 genesisHash))) n ∧
      n.bc.getBlockByNumber 0 = some sampleGenesis := by
  obtain ⟨engine, hverify⟩ := sampleNode_verify 1 0 genesisHash
  have hanswer : sampleNode.bc.getBlockByNumber 0 = some sampleGenesis :=
    sampleNode_onlyGenesis.getBlockByNumber (sampleSealing_ne_zero _)
  have hkeeps : sampleNode.Keeps .ideal sampleSealing 0 (.deliver (.syncBlock (sampleBlock 1 0 genesisHash))) :=
    fun _ _ _ _ _ => ⟨by decide, fun h => absurd h.1 (by decide)⟩
  have hstep := step_importEmpty rfl hverify
  exact ⟨_, hstep, (Node.finality sampleSealing_ne_zero start_sampleNode .refl hanswer).1 _
    (.single ⟨_, hkeeps, hstep⟩)⟩

theorem equivocation_replaces_block : ∃ n₀ n n' : Node,
    Node.start .ideal sampleSealing sampleConfig .empty = some n₀ ∧
    ReflTransGen (fun n n' => ∃ event, Node.Step .ideal sampleSealing sampleConfig n event n') n₀ n ∧
    Node.Step .ideal sampleSealing sampleConfig n (.deliver (.syncBlock (sampleBlock 1 1 genesisHash))) n' ∧
    n.bc.getBlockByNumber 1 = some (sampleBlock 1 0 genesisHash) ∧
    n'.bc.getBlockByNumber 1 = some (sampleBlock 1 1 genesisHash) := by
  obtain ⟨engine, hverify, hagain⟩ := sampleNode_verify_twice genesisHash
  let n := importEmpty sampleNode engine (sampleBlock 1 0 genesisHash)
  have hfirst : Entered sampleSealing sampleNode.bc (sampleBlock 1 0 genesisHash) n.bc :=
    importEmpty_entered engine (sampleNode_unknown (by decide))
  have hnew : n.bc.db.readBlock (sampleSealing.headerHash (sampleBlock 1 1 genesisHash).header) = none := by
    rw [hfirst.added.block, if_neg, sampleNode_unknown (by decide)]
    intro heq
    have hnat := congrArg BitVec.toNat heq
    rw [toNat_headerHash_sample, toNat_headerHash_sample] at hnat
    exact absurd hnat (by decide)
  have hsecond := importEmpty_entered engine hnew
  refine ⟨sampleNode, n, importEmpty n engine (sampleBlock 1 1 genesisHash), start_sampleNode,
    .single ⟨_, step_importEmpty rfl hverify⟩, step_importEmpty rfl hagain, ?_, ?_⟩
  · exact hfirst.getBlockByNumber_taken sampleSealing_ne_zero fun hspares => hspares.1 rfl
  · exact hsecond.getBlockByNumber_taken sampleSealing_ne_zero fun hspares => hspares.1 rfl

end Sample

end Zephyria
