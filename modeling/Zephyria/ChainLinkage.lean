import Zephyria.Lib.Runs
import Zephyria.Node

namespace Zephyria

open Relation

def Linked (S : Sealing) (bc : Blockchain) : Prop :=
  ∀ current, bc.currentBlock = some current → ∀ k, 1 ≤ k → k ≤ current.header.number →
    ∃ b parent, bc.getBlockByNumber (UInt64.ofNat k) = some b ∧
      bc.getBlockByNumber (UInt64.ofNat (k - 1)) = some parent ∧
      b.header.parentHash = S.headerHash parent.header

def Continues (S : Sealing) (bc : Blockchain) (b : Block) : Prop :=
  b.unmarshals ∧ ∃ current, bc.currentBlock = some current ∧ b.header.number = current.header.number + 1 ∧
    b.header.parentHash = S.headerHash current.header ∧ b.header.number ≤ headNumber.toNat

structure LinkedChain (S : Sealing) (bc : Blockchain) : Prop where
  head : ∃ current, bc.currentBlock = some current ∧ current.header.number ≤ headNumber.toNat ∧
    bc.getBlockByNumber (UInt64.ofNat current.header.number) = some current
  linked : Linked S bc

section Chain

variable {S : Sealing} {bc bc' : Blockchain} {b : Block}

theorem LinkedChain.of_sameLookups (h : SameLookups bc bc') (hc : LinkedChain S bc) : LinkedChain S bc' := by
  constructor
  · obtain ⟨current, hcur, hle, hget⟩ := hc.head
    exact ⟨current, by rw [h.current, hcur], hle, by rw [h.getBlockByNumber, hget]⟩
  · intro current hcur k hk hle
    rw [h.current] at hcur
    rw [h.getBlockByNumber, h.getBlockByNumber]
    exact hc.linked current hcur k hk hle

theorem LinkedChain.of_onlyGenesis {genesis : Block} (hzero : ∀ header, S.headerHash header ≠ 0)
    (hg : OnlyGenesis S bc genesis) : LinkedChain S bc := by
  constructor
  · refine ⟨genesis, hg.current, by rw [hg.number]; exact Nat.zero_le _, ?_⟩
    rw [hg.number]
    exact hg.getBlockByNumber (hzero _)
  · intro current hcur k hk hle
    obtain rfl : genesis = current := Option.some.inj (hg.current.symm.trans hcur)
    rw [hg.number] at hle
    omega

theorem LinkedChain.added (hzero : ∀ header, S.headerHash header ≠ 0) (hc : LinkedChain S bc)
    (hb : Continues S bc b) (ha : Added S bc b bc') : LinkedChain S bc' := by
  obtain ⟨hread, current, hcur, hnumber, hparent, hbound⟩ := hb
  have hnew := ha.getBlockByNumber_new (hzero _) hread
  have hcurrent : bc'.currentBlock = some b := ha.currentBlock_of_newer hcur (by omega)
  obtain ⟨current', hcur', -, hget⟩ := hc.head
  obtain rfl : current' = current := Option.some.inj (hcur'.symm.trans hcur)
  refine ⟨⟨b, hcurrent, hbound, hnew⟩, ?_⟩
  intro b' hb' k hk hle
  obtain rfl : b = b' := Option.some.inj (hcurrent.symm.trans hb')
  rcases Nat.lt_or_ge k b.header.number with hlt | hge
  · obtain ⟨x, p, hx, hp, hlink⟩ := hc.linked current' hcur k hk (by omega)
    exact ⟨x, p, ha.getBlockByNumber_below hbound hlt hx,
      ha.getBlockByNumber_below hbound (by omega) hp, hlink⟩
  · obtain rfl : k = b.header.number := by omega
    refine ⟨b, current', hnew, ?_, hparent⟩
    rw [hnumber, Nat.add_sub_cancel]
    exact ha.getBlockByNumber_below hbound (by omega) hget

end Chain

namespace Node

variable (e : Executor) (S : Sealing) (cfg : NetworkConfig)

def LinksUp (n : Node) : Event → Prop
  | .deliver d => n.Passes e S d → Continues S n.bc d.block
  | .execute txs _ => txs.all Transaction.unmarshals ∧ n.parent = n.bc.currentBlock ∧
      ∀ current, n.bc.currentBlock = some current → current.header.number < headNumber.toNat
  | _ => True

structure LinkedNode (n : Node) : Prop where
  chain : LinkedChain S n.bc
  pending : ∀ b receipts, n.pending = some (b, receipts) → Continues S n.bc b

variable {S} {n n' : Node}

theorem linkedChain_persistBlock (hzero : ∀ header, S.headerHash header ≠ 0) (hc : LinkedChain S n.bc)
    {b : Block} (hb : Continues S n.bc b) (receipts : List Receipt) :
    LinkedChain S (persistBlock S n b receipts).bc := by
  rcases persistBlock_cases (S := S) n b receipts with ⟨-, hsame⟩ | hadded
  · exact hc.of_sameLookups hsame
  · exact hc.added hzero hb hadded

theorem LinkedNode.deliver (hzero : ∀ header, S.headerHash header ≠ 0) (hn : LinkedNode S n) {d : Delivery}
    (hlock : n.pending = none) (hlink : n.Passes e S d → Continues S n.bc d.block)
    (h : Deliver e S n d n') : LinkedNode S n' := by
  cases h with
  | skipped => exact hn
  | rejected => exact ⟨hn.chain, hn.pending⟩
  | @imported engine res hskip hverify _ =>
    have hb : Continues S n.bc { d.block with header := { d.block.header with verkleRoot := res.root } } :=
      hlink ⟨hskip, engine, hverify⟩
    refine ⟨linkedChain_persistBlock (n := { n with engine := engine, state := res.statedb }) hzero
      hn.chain hb _, ?_⟩
    intro b receipts hp
    cases hlock.symm.trans hp

theorem LinkedNode.step (hzero : ∀ header, S.headerHash header ≠ 0) (hn : LinkedNode S n) {event : Event}
    (hlink : n.LinksUp e S event) (h : Step e S cfg n event n') : LinkedNode S n' := by
  cases h with
  | deliver hlock h => exact hn.deliver e hzero hlock hlink h
  | updateValidators engine => exact ⟨hn.chain, hn.pending⟩
  | readParent h => exact ⟨hn.chain, hn.pending⟩
  | @execute parent txs time fee res hlock hparent hfee happly =>
    refine ⟨hn.chain, fun b receipts hp => ?_⟩
    obtain ⟨rfl, -⟩ := Prod.mk.inj (Option.some.inj hp)
    obtain ⟨hread, hcurrent, hbound⟩ := hlink
    rw [hparent] at hcurrent
    exact ⟨hread, parent, hcurrent.symm, rfl, rfl, hbound parent hcurrent.symm⟩
  | @persist b receipts h =>
    refine ⟨linkedChain_persistBlock (n := { n with pending := none }) hzero hn.chain
      (hn.pending b receipts h) receipts, fun b receipts hp => ?_⟩
    cases hp

theorem chain_linked (hzero : ∀ header, S.headerHash header ≠ 0) {n₀ : Node}
    (hstart : start e S cfg .empty = some n₀)
    (h : ReflTransGen (fun n n' => ∃ event, n.LinksUp e S event ∧ Step e S cfg n event n') n₀ n) :
    Linked S n.bc := by
  have hfirst : LinkedNode S n₀ := by
    refine ⟨.of_onlyGenesis hzero (start_empty hstart), fun b receipts hp => ?_⟩
    rw [(start_idle hstart).2.2] at hp
    cases hp
  have hn : LinkedNode S n :=
    guarded_invariant (fun hn hlink hstep => hn.step e cfg hzero hlink hstep) hfirst h
  exact hn.chain.linked

end Node

section Sample

def sampleSignature (signer : Address) : Bytes := addressBytes signer ++ List.replicate 45 0

def fourthValidator : Address := 0x90F79bf6EB2c4f870365E785982E1f101E93b906

/-- Hashes tell heights and times apart, and a signature names its signer. -/
def sampleSealing : Sealing where
  headerHash header :=
    if header.number % 2 ^ 64 = 0 ∧ header.baseFee.getD 0 = 0 then genesisHash
    else bigToHash (header.number % 2 ^ 64 * 2 ^ 64 + header.time.toNat + 1)
  sigToPub _ sig := some (bytesToAddress (sig.take 20))
  sign _ := sampleSignature fourthValidator

theorem toNat_headerHash_sample (header : Header) : (sampleSealing.headerHash header).toNat =
    if header.number % 2 ^ 64 = 0 ∧ header.baseFee.getD 0 = 0 then genesisHash.toNat
    else header.number % 2 ^ 64 * 2 ^ 64 + header.time.toNat + 1 := by
  have htime := header.time.toNat_lt
  have hnumber : header.number % 2 ^ 64 < 2 ^ 64 := Nat.mod_lt _ (by decide)
  rw [sampleSealing]
  dsimp only
  split
  · rfl
  · rw [bigToHash, BitVec.toNat_ofNat, Nat.mod_eq_of_lt (by omega)]

theorem sampleSealing_ne_zero (header : Header) : sampleSealing.headerHash header ≠ 0 := by
  intro h
  have hnat := (toNat_headerHash_sample header).symm.trans (congrArg BitVec.toNat h)
  split at hnat
  · exact absurd hnat (by decide)
  · exact absurd hnat (by simp)

def sampleConfig : NetworkConfig := getNetworkConfig .simulation

def sampleGenesis : Block := genesisOver .ideal sampleConfig .empty

theorem headerHash_sampleGenesis : sampleSealing.headerHash sampleGenesis.header = genesisHash := by
  rw [sampleSealing]
  dsimp only
  exact if_pos ⟨rfl, rfl⟩

def sampleNode : Node := .serve .ideal sampleConfig (initializeGenesis .ideal sampleSealing sampleConfig .empty)

theorem start_sampleNode : Node.start .ideal sampleSealing sampleConfig .empty = some sampleNode :=
  Node.start_of_genesisHash headerHash_sampleGenesis (by decide)

theorem sampleNode_onlyGenesis : OnlyGenesis sampleSealing sampleNode.bc sampleGenesis :=
  Node.start_empty start_sampleNode

def sampleLeader (number : ℕ) : Address :=
  (((newZelius sampleConfig.validators).getLeader .ideal (UInt64.ofNat number)).map Prod.fst).getD 0

def sampleBlock (number : ℕ) (time : UInt64) (parentHash : Hash) : Block where
  header :=
    { parentHash := parentHash, number := number, time := time, verkleRoot := 0, txHash := 0, coinbase := 0xc0,
      extraData := sampleSignature (sampleLeader number), difficulty := 1, gasLimit := 60000000, gasUsed := 0,
      baseFee := some initialBaseFee }
  transactions := []

example : sampleLeader 1 = fourthValidator ∧ sampleLeader 2 = defaultAccount := by
  decide +kernel

theorem length_sampleSignature (signer : Address) : (sampleSignature signer).length = 65 := by
  rw [sampleSignature, List.length_append, List.length_replicate, addressBytes, BigEndian.fixed_length]

theorem sigToPub_sample (hash : Hash) (signer : Address) :
    sampleSealing.sigToPub hash (sampleSignature signer) = some signer := by
  have htake : (sampleSignature signer).take 20 = addressBytes signer :=
    List.take_left' (BigEndian.fixed_length 20 _)
  change some (bytesToAddress ((sampleSignature signer).take 20)) = _
  rw [htake, bytesToAddress, value_addressBytes, BitVec.ofNat_toNat, BitVec.setWidth_eq]

theorem sampleNode_accepts {b : Block}
    (h : b.header.extraData = sampleSignature (sampleLeader b.header.number)) : ∃ engine,
    sampleNode.engine.verify Executor.ideal.keccak sampleSealing b = some (.ok (), engine) := by
  obtain ⟨leader, engine, hleader⟩ := ZeliusEngine.exists_getLeader .ideal
    (show totalStake sampleConfig.validators ≠ 0 by decide) (UInt64.ofNat b.header.number)
  have heq : sampleLeader b.header.number = leader := by rw [sampleLeader, hleader]; rfl
  refine ⟨engine, ZeliusEngine.verify_ok_iff.mpr ⟨?_, leader, ?_, hleader⟩⟩
  · rw [h, length_sampleSignature]
  · rw [h, length_sampleSignature, heq]
    exact sigToPub_sample _ leader

theorem sampleNode_verify (number : ℕ) (time : UInt64) (parentHash : Hash) : ∃ engine,
    sampleNode.engine.verify Executor.ideal.keccak sampleSealing (sampleBlock number time parentHash) =
      some (.ok (), engine) :=
  sampleNode_accepts (b := sampleBlock number time parentHash) rfl

def importEmpty (n : Node) (engine : ZeliusEngine) (b : Block) : Node :=
  Node.importBlock sampleSealing { n with engine := engine } b (Executor.ideal.closeBlock
    (n.bc.blockContext sampleSealing b.header) [] (Executor.startBlock n.state []))

theorem step_importEmpty {n : Node} {engine : ZeliusEngine} {number : ℕ} {time : UInt64} {parentHash : Hash}
    (hlock : n.pending = none) (hverify : n.engine.verify Executor.ideal.keccak sampleSealing
      (sampleBlock number time parentHash) = some (.ok (), engine)) :
    Node.Step .ideal sampleSealing sampleConfig n (.deliver (.syncBlock (sampleBlock number time parentHash)))
      (importEmpty n engine (sampleBlock number time parentHash)) :=
  .deliver hlock (.imported rfl hverify ((Executor.ideal.applyBlock_nil _ _ _).mpr rfl))

theorem intermediateRoot_ideal (s : StateDB) : Executor.ideal.intermediateRoot s = 0 := by
  induction s with
  | base tree own => rfl
  | overlay parent own ih => exact ih

theorem importEmpty_cases (n : Node) (engine : ZeliusEngine) (number : ℕ) (time : UInt64) (parentHash : Hash) :
    ((n.bc.db.readBlock (sampleSealing.headerHash (sampleBlock number time parentHash).header)).isSome ∧
        SameLookups n.bc (importEmpty n engine (sampleBlock number time parentHash)).bc) ∨
      Added sampleSealing n.bc (sampleBlock number time parentHash)
        (importEmpty n engine (sampleBlock number time parentHash)).bc := by
  have hroot (ctx : BlockContext) : (Executor.ideal.closeBlock ctx []
      (Executor.startBlock n.state [])).root = 0 := intermediateRoot_ideal _
  have hcases := Node.importBlock_cases sampleSealing { n with engine := engine }
    (sampleBlock number time parentHash) (Executor.ideal.closeBlock
      (n.bc.blockContext sampleSealing (sampleBlock number time parentHash).header) []
      (Executor.startBlock n.state []))
  rw [hroot] at hcases
  exact hcases

theorem headerHash_ne_genesisHash {header : Header} (h : header.number % 2 ^ 64 ≠ 0) :
    sampleSealing.headerHash header ≠ genesisHash := by
  intro heq
  have htime := header.time.toNat_lt
  have hnat := (toNat_headerHash_sample header).symm.trans (congrArg BitVec.toNat heq)
  rw [if_neg (fun hzero => h hzero.1), show genesisHash.toNat =
    0x8cdc37cd690b6c953ea305b357eba4b443a844932e6bf99ccc06f659e6e10b5a from rfl] at hnat
  omega

theorem sampleNode_unknown {header : Header} (h : header.number % 2 ^ 64 ≠ 0) :
    sampleNode.bc.db.readBlock (sampleSealing.headerHash header) = none := by
  rw [sampleNode_onlyGenesis.block, if_neg]
  rw [headerHash_sampleGenesis]
  exact headerHash_ne_genesisHash h

theorem sampleNode_moved {b : Block} {bc : Blockchain} (hadded : Added sampleSealing sampleNode.bc b bc)
    (h : 0 < b.header.number) : bc.currentBlock = some b :=
  hadded.currentBlock_of_newer sampleNode_onlyGenesis.current h

theorem sampleNode_importBlock {b : Block} (hnumber : b.header.number % 2 ^ 64 ≠ 0) (engine : ZeliusEngine)
    (res : AppliedBlock) :
    Added sampleSealing sampleNode.bc { b with header := { b.header with verkleRoot := res.root } }
      (Node.importBlock sampleSealing { sampleNode with engine := engine } b res).bc := by
  obtain ⟨hknown, -⟩ | hadded := Node.importBlock_cases sampleSealing { sampleNode with engine := engine } b res
  · have hnone : sampleNode.bc.db.readBlock
        (sampleSealing.headerHash { b.header with verkleRoot := res.root }) = none := sampleNode_unknown hnumber
    rw [hnone] at hknown
    cases hknown
  · exact hadded

theorem sampleNode_added {number : ℕ} (hnumber : number % 2 ^ 64 ≠ 0) (time : UInt64) (parentHash : Hash)
    (engine : ZeliusEngine) : Added sampleSealing sampleNode.bc (sampleBlock number time parentHash)
      (importEmpty sampleNode engine (sampleBlock number time parentHash)).bc := by
  obtain ⟨hknown, -⟩ | hadded := importEmpty_cases sampleNode engine number time parentHash
  · rw [sampleNode_unknown hnumber] at hknown
    cases hknown
  · exact hadded

theorem linked_after_first_block : ∃ (n : Node) (current : Block), n.bc.currentBlock = some current ∧
    current.header.number = 1 ∧ Linked sampleSealing n.bc := by
  obtain ⟨engine, hverify⟩ := sampleNode_verify 1 0 genesisHash
  have hcontinues : Continues sampleSealing sampleNode.bc (sampleBlock 1 0 genesisHash) :=
    ⟨rfl, sampleGenesis, sampleNode_onlyGenesis.current, rfl,
      headerHash_sampleGenesis.symm, by decide⟩
  have hlinks : Node.LinksUp .ideal sampleSealing sampleNode
      (.deliver (.syncBlock (sampleBlock 1 0 genesisHash))) := fun _ => hcontinues
  have hcurrent := sampleNode_moved (sampleNode_added (show 1 % 2 ^ 64 ≠ 0 by decide) 0 genesisHash engine)
    Nat.zero_lt_one
  exact ⟨_, _, hcurrent, rfl, Node.chain_linked .ideal sampleConfig sampleSealing_ne_zero start_sampleNode
    (.single ⟨_, hlinks, step_importEmpty rfl hverify⟩)⟩

theorem gap_breaks_linkage : ∃ n₀ n : Node, Node.start .ideal sampleSealing sampleConfig .empty = some n₀ ∧
    ReflTransGen (fun n n' => ∃ event, Node.Step .ideal sampleSealing sampleConfig n event n') n₀ n ∧
    ¬Linked sampleSealing n.bc := by
  obtain ⟨engine, hverify⟩ := sampleNode_verify 2 0 2
  have hadded := sampleNode_added (show 2 % 2 ^ 64 ≠ 0 by decide) 0 2 engine
  have hcurrent := sampleNode_moved hadded Nat.zero_lt_two
  refine ⟨_, _, start_sampleNode, .single ⟨_, step_importEmpty rfl hverify⟩, fun hlinked => ?_⟩
  obtain ⟨x, -, hx, -⟩ := hlinked _ hcurrent 1 le_rfl (by decide)
  have hunset := (hadded.other 1 (by decide) (by decide)).trans
    (sampleNode_onlyGenesis.unset 1 (by decide) (by decide))
  unfold Blockchain.getBlockByNumber at hx
  dsimp only at hx
  rw [show UInt64.ofNat 1 = 1 from rfl, hunset, if_pos rfl] at hx
  cases hx

end Sample

end Zephyria
