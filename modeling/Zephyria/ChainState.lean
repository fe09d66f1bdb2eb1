import Zephyria.ChainLinkage

namespace Zephyria

open Relation

structure CollisionFree (S : Sealing) : Prop where
  ne_zero : ∀ header, S.headerHash header ≠ 0
  number_eq : ∀ header header' : Header, header.number < 2 ^ 64 → header'.number < 2 ^ 64 →
    S.headerHash header = S.headerHash header' → header.number = header'.number

def Extends (bc : Blockchain) (b : Block) : Prop :=
  b.unmarshals ∧ ∃ current, bc.currentBlock = some current ∧ b.header.number = current.header.number + 1 ∧
    b.header.number ≤ headNumber.toNat

def Newer (bc : Blockchain) (b : Block) : Prop :=
  ∃ current, bc.currentBlock = some current ∧ current.header.number < b.header.number ∧
    b.header.number < 2 ^ 64

theorem Extends.newer {bc : Blockchain} {b : Block} (h : Extends bc b) : Newer bc b := by
  obtain ⟨-, current, hcur, hnumber, hbound⟩ := h
  have hhead : headNumber.toNat < 2 ^ 64 := headNumber.toNat_lt
  exact ⟨current, hcur, by omega, by omega⟩

structure CanonicalChain (bc : Blockchain) (blocks : List Block) : Prop where
  head : ∃ current, bc.currentBlock = some current ∧ current.header.number = blocks.length ∧
    bc.getBlockByNumber (UInt64.ofNat blocks.length) = some current
  found : ∀ i b, blocks[i]? = some b → bc.getBlockByNumber (UInt64.ofNat (i + 1)) = some b

structure WellStored (S : Sealing) (bc : Blockchain) : Prop where
  hash : ∀ hash b, bc.db.readBlock hash = some b → S.headerHash b.header = hash
  below : ∀ hash b current, bc.db.readBlock hash = some b → bc.currentBlock = some current →
    b.header.number ≤ current.header.number

section Chain

variable {S : Sealing} {bc bc' : Blockchain} {b : Block} {blocks : List Block}

theorem WellStored.of_onlyGenesis {genesis : Block} (hg : OnlyGenesis S bc genesis) : WellStored S bc := by
  have hstored (hash : Hash) (b : Block) (hb : bc.db.readBlock hash = some b) :
      hash = S.headerHash genesis.header ∧ b = genesis := by
    rw [hg.block] at hb
    split at hb
    next heq => exact ⟨heq, (Option.some.inj hb).symm⟩
    next => cases hb
  constructor
  · intro hash b hb
    obtain ⟨rfl, rfl⟩ := hstored hash b hb
    rfl
  · intro hash b current hb hcur
    obtain ⟨rfl, rfl⟩ := hstored hash b hb
    rw [hg.number]
    exact Nat.zero_le _

theorem WellStored.readBlock_eq_none (hS : CollisionFree S) (hw : WellStored S bc) (hb : Newer bc b) :
    bc.db.readBlock (S.headerHash b.header) = none := by
  obtain ⟨current, hcur, hnumber, hbound⟩ := hb
  by_contra hne
  obtain ⟨x, hx⟩ := Option.ne_none_iff_exists'.mp hne
  have hle := hw.below _ x current hx hcur
  have heq := hS.number_eq x.header b.header (by omega) (by omega) (hw.hash _ x hx)
  omega

theorem Newer.current (hb : Newer bc b) (ha : Added S bc b bc') : bc'.currentBlock = some b := by
  obtain ⟨current, hcur, hnumber, -⟩ := hb
  exact ha.currentBlock_of_newer hcur hnumber

theorem WellStored.added (hw : WellStored S bc) (hb : Newer bc b) (ha : Added S bc b bc') :
    WellStored S bc' := by
  have hcurrent := hb.current ha
  obtain ⟨current, hcur, hnumber, -⟩ := hb
  constructor
  · intro hash x hx
    rw [ha.block] at hx
    split at hx
    next heq =>
      obtain ⟨rfl, -⟩ := Block.unmarshal_eq_some.mp hx
      exact heq.symm
    next => exact hw.hash hash x hx
  · intro hash x top hx htop
    obtain rfl := Option.some.inj (hcurrent.symm.trans htop)
    rw [ha.block] at hx
    split at hx
    next =>
      obtain ⟨rfl, -⟩ := Block.unmarshal_eq_some.mp hx
      exact le_rfl
    next =>
      have hle := hw.below hash x current hx hcur
      omega

theorem CanonicalChain.of_onlyGenesis {genesis : Block} (hS : CollisionFree S)
    (hg : OnlyGenesis S bc genesis) : CanonicalChain bc [] := by
  refine ⟨⟨genesis, hg.current, hg.number, ?_⟩, fun i b h => by cases h⟩
  obtain ⟨current, hcur, -, hget⟩ := (LinkedChain.of_onlyGenesis hS.ne_zero hg).head
  obtain rfl := Option.some.inj (hg.current.symm.trans hcur)
  rwa [hg.number] at hget

theorem CanonicalChain.added (hS : CollisionFree S) (hc : CanonicalChain bc blocks) (hb : Extends bc b)
    (ha : Added S bc b bc') : CanonicalChain bc' (blocks ++ [b]) := by
  obtain ⟨hread, current, hcur, hnumber, hbound⟩ := hb
  obtain ⟨current', hcur', hlen, -⟩ := hc.head
  obtain rfl := Option.some.inj (hcur.symm.trans hcur')
  have hnew : bc'.getBlockByNumber (UInt64.ofNat (blocks.length + 1)) = some b := by
    rw [← hlen, ← hnumber]
    exact ha.getBlockByNumber_new (hS.ne_zero _) hread
  constructor
  · refine ⟨b, ha.currentBlock_of_newer hcur (by omega), ?_, ?_⟩
    · rw [hnumber, hlen, List.length_append, List.length_singleton]
    · rw [List.length_append, List.length_singleton]
      exact hnew
  · intro i x hx
    rcases Nat.lt_or_ge i blocks.length with hlt | hge
    · rw [List.getElem?_append_left hlt] at hx
      exact ha.getBlockByNumber_below hbound (by omega) (hc.found i x hx)
    · obtain ⟨hi, -⟩ := List.getElem?_eq_some_iff.mp hx
      rw [List.length_append, List.length_singleton] at hi
      obtain rfl : i = blocks.length := by omega
      rw [List.getElem?_concat_length] at hx
      obtain rfl := Option.some.inj hx
      exact hnew

end Chain

namespace Node

variable (e : Executor) (S : Sealing) (cfg : NetworkConfig)

inductive Replay (start : Node) : List Block → Node → Prop
  | nil : Replay start [] start
  | snoc {blocks : List Block} {n : Node} {b : Block} {res : AppliedBlock} (h : Replay start blocks n)
      (happly : e.ApplyBlock (n.bc.blockContext S b.header) n.state b.transactions res) :
      Replay start (blocks ++ [b]) (importBlock S n b res)

def FollowsChain (start n : Node) : Prop :=
  ∃ blocks r, CanonicalChain n.bc blocks ∧ Replay e S start blocks r ∧ r.bc = n.bc ∧ r.state = n.state

def InOrder (n : Node) : Event → Prop
  | .deliver d => n.Passes e S d → Extends n.bc d.block
  | event => n.LinksUp e S event

structure InSync (start n : Node) : Prop where
  stored : WellStored S n.bc
  follows : FollowsChain e S start n

/-- The invariant of runs in order. A pending block is already executed: persisting it catches up. -/
structure Tracks (start n : Node) : Prop where
  idle : n.pending = none → InSync e S start n
  pending : ∀ b receipts, n.pending = some (b, receipts) →
    InSync e S start (persistBlock S { n with pending := none } b receipts)

variable {e S} {start n n' : Node}

theorem InSync.congr (h : InSync e S start n) (hbc : n'.bc = n.bc) (hstate : n'.state = n.state) :
    InSync e S start n' := by
  obtain ⟨hstored, blocks, r, hchain, hreplay, hr, hrs⟩ := h
  rw [← hbc] at hstored hchain hr
  exact ⟨hstored, blocks, r, hchain, hreplay, hr, hrs.trans hstate.symm⟩

theorem persistBlock_congr (n n' : Node) (hbc : n'.bc = n.bc) (hstate : n'.state = n.state) (b : Block)
    (receipts : List Receipt) : (persistBlock S n' b receipts).bc = (persistBlock S n b receipts).bc ∧
      (persistBlock S n' b receipts).state = (persistBlock S n b receipts).state := by
  unfold persistBlock
  rw [hbc, hstate]
  exact ⟨rfl, rfl⟩

theorem addBlock_persistBlock (hS : CollisionFree S) (hw : WellStored S n.bc) {b : Block} (hb : Newer n.bc b)
    (receipts : List Receipt) :
    Blockchain.addBlock S { n.bc with db := (persistState n.state n.bc.db).2 } b (some receipts) =
      .ok (persistBlock S n b receipts).bc := by
  obtain ⟨hknown, -⟩ | hadd := persistBlock_result S n b receipts
  · rw [hw.readBlock_eq_none hS hb] at hknown
    cases hknown
  · exact hadd

theorem added_persistBlock (hS : CollisionFree S) (hw : WellStored S n.bc) {b : Block} (hb : Newer n.bc b)
    (receipts : List Receipt) : Added S n.bc b (persistBlock S n b receipts).bc := by
  have hadd := addBlock_persistBlock hS hw hb receipts
  exact (Blockchain.added_of_addBlock hadd).of_sameLookups (sameLookups_persistState n.state n.bc)

theorem added_importBlock (hS : CollisionFree S) (hw : WellStored S n.bc) {b : Block}
    (hb : Newer n.bc b) (res : AppliedBlock) :
    Added S n.bc { b with header := { b.header with verkleRoot := res.root } } (importBlock S n b res).bc := by
  have hb : Newer n.bc { b with header := { b.header with verkleRoot := res.root } } := hb
  exact added_persistBlock (n := { n with state := res.statedb }) hS hw hb res.receipts

theorem InSync.importBlock (hS : CollisionFree S) (h : InSync e S start n) {b : Block}
    (hb : Extends n.bc b) {res : AppliedBlock}
    (happly : e.ApplyBlock (n.bc.blockContext S b.header) n.state b.transactions res) :
    InSync e S start (importBlock S n b res) := by
  obtain ⟨hstored, blocks, r, hchain, hreplay, hr, hrs⟩ := h
  -- The stored block differs in the root, which its execution does not look at.
  let stored : Block := { b with header := { b.header with verkleRoot := res.root } }
  have ha : Added S n.bc stored _ := added_importBlock hS hstored hb.newer res
  have hb : Extends n.bc stored := hb
  have happly : e.ApplyBlock (r.bc.blockContext S stored.header) r.state stored.transactions res := by
    rw [hr, hrs]
    exact happly
  exact ⟨hstored.added hb.newer ha, _, _, hchain.added hS hb ha, hreplay.snoc happly,
    persistBlock_congr { n with state := res.statedb } { r with state := res.statedb } hr rfl _ _⟩

theorem InSync.deliver (hS : CollisionFree S) (h : InSync e S start n) {d : Delivery}
    (hd : n.Passes e S d → Extends n.bc d.block) (hstep : Deliver e S n d n') :
    InSync e S start n' ∧ (n'.bc.currentBlock = n.bc.currentBlock → n'.bc = n.bc ∧ n'.state = n.state) := by
  cases hstep with
  | skipped => exact ⟨h, fun _ => ⟨rfl, rfl⟩⟩
  | rejected => exact ⟨h.congr rfl rfl, fun _ => ⟨rfl, rfl⟩⟩
  | @imported engine res hskip hverify happly =>
    have hb := hd ⟨hskip, engine, hverify⟩
    have hn : InSync e S start { n with engine := engine } := h.congr rfl rfl
    refine ⟨hn.importBlock hS hb happly, fun hsame => ?_⟩
    -- The head has moved to the imported block.
    have hnewer : Newer n.bc { d.block with header := { d.block.header with verkleRoot := res.root } } := hb.newer
    have hmoved := hnewer.current (added_importBlock hS hn.stored hb.newer res)
    obtain ⟨-, current, hcur, hnumber, -⟩ := hb
    have heq := congrArg (fun b => b.header.number) (Option.some.inj (hmoved.symm.trans (hsame.trans hcur)))
    change d.block.header.number = current.header.number at heq
    omega

theorem Tracks.step (hS : CollisionFree S) (h : Tracks e S start n) {event : Event}
    (horder : n.InOrder e S event) (hstep : Step e S cfg n event n') : Tracks e S start n' := by
  cases hstep with
  | deliver hlock hdeliver =>
    have hn := (h.idle hlock).deliver hS horder hdeliver
    have hlock' : n'.pending = none := by
      cases hdeliver <;> exact hlock
    exact ⟨fun _ => hn.1, fun _ _ hp => by cases hlock'.symm.trans hp⟩
  | updateValidators engine =>
    refine ⟨fun hp => (h.idle hp).congr rfl rfl, fun b receipts hp => ?_⟩
    obtain ⟨hbc, hstate⟩ := persistBlock_congr (S := S) { n with pending := none }
      { n with engine := engine, pending := none } rfl rfl b receipts
    exact (h.pending b receipts hp).congr hbc hstate
  | readParent _ =>
    refine ⟨fun hp => (h.idle hp).congr rfl rfl, fun b receipts hp => ?_⟩
    obtain ⟨hbc, hstate⟩ := persistBlock_congr (S := S) { n with pending := none }
      { n with parent := n.bc.currentBlock, pending := none } rfl rfl b receipts
    exact (h.pending b receipts hp).congr hbc hstate
  | @execute parent txs time fee res hlock hparent hfee happly =>
    refine ⟨fun hp => (nomatch hp), fun b receipts hp => ?_⟩
    obtain ⟨rfl, rfl⟩ := Prod.mk.inj (Option.some.inj hp)
    obtain ⟨hread, hcurrent, hbound⟩ := horder
    rw [hparent] at hcurrent
    have hb : Extends n.bc (produceBlock S (newHeader S cfg parent time fee) txs res) :=
      ⟨hread, parent, hcurrent.symm, rfl, hbound parent hcurrent.symm⟩
    have hnext := (h.idle hlock).importBlock hS hb happly
    obtain ⟨hbc, hstate⟩ := persistBlock_congr (S := S) { n with state := res.statedb }
      { n with state := res.statedb, parent := none, pending := none } rfl rfl
      (produceBlock S (newHeader S cfg parent time fee) txs res) res.receipts
    exact hnext.congr hbc hstate
  | @persist b receipts hp =>
    exact ⟨fun _ => h.pending b receipts hp, fun _ _ hp => (nomatch hp)⟩

theorem tracks_start (hS : CollisionFree S) (hstart : Node.start e S cfg .empty = some start) :
    Tracks e S start start := by
  have hg := start_empty hstart
  refine ⟨fun _ => ⟨.of_onlyGenesis hg, [], _, .of_onlyGenesis hS hg, .nil, rfl, rfl⟩, fun b receipts hp => ?_⟩
  rw [(start_idle hstart).2.2] at hp
  cases hp

theorem tracks_run (hS : CollisionFree S) (hstart : Node.start e S cfg .empty = some start)
    (h : ReflTransGen (fun n n' => ∃ event, n.InOrder e S event ∧ Step e S cfg n event n') start n) :
    Tracks e S start n := by
  apply guarded_invariant _ (tracks_start cfg hS hstart) h
  intro n event n' hn horder hstep
  exact hn.step cfg hS horder hstep

theorem state_follows_chain (hS : CollisionFree S) (hstart : Node.start e S cfg .empty = some start)
    (h : ReflTransGen (fun n n' => ∃ event, n.InOrder e S event ∧ Step e S cfg n event n') start n)
    {d : Delivery} (hd : n.InOrder e S (.deliver d)) (hstep : Step e S cfg n (.deliver d) n') :
    FollowsChain e S start n' ∧
      (n'.bc.currentBlock = n.bc.currentBlock → n'.bc = n.bc ∧ n'.state = n.state) := by
  cases hstep with
  | deliver hlock hdeliver =>
    obtain ⟨hsync, hsame⟩ := ((tracks_run cfg hS hstart h).idle hlock).deliver hS hd hdeliver
    exact ⟨hsync.follows, hsame⟩

end Node

section Sample

theorem sampleSealing_collisionFree : CollisionFree sampleSealing := by
  refine ⟨sampleSealing_ne_zero, fun header header' h h' heq => ?_⟩
  have htime := header.time.toNat_lt
  have htime' := header'.time.toNat_lt
  have hnat := congrArg BitVec.toNat heq
  rw [toNat_headerHash_sample, toNat_headerHash_sample, show genesisHash.toNat =
    0x8cdc37cd690b6c953ea305b357eba4b443a844932e6bf99ccc06f659e6e10b5a from rfl] at hnat
  split at hnat <;> split at hnat <;> omega

theorem state_follows_first_block : ∃ n₀ n : Node,
    Node.start .ideal sampleSealing sampleConfig .empty = some n₀ ∧ (∃ b, CanonicalChain n.bc [b]) ∧
    Node.FollowsChain .ideal sampleSealing n₀ n := by
  obtain ⟨engine, hverify⟩ := sampleNode_verify 1 0 genesisHash
  have hextends : Extends sampleNode.bc (sampleBlock 1 0 genesisHash) :=
    ⟨rfl, sampleGenesis, sampleNode_onlyGenesis.current, rfl, by decide⟩
  have horder : sampleNode.InOrder .ideal sampleSealing (.deliver (.syncBlock (sampleBlock 1 0 genesisHash))) :=
    fun _ => hextends
  have hchain := (CanonicalChain.of_onlyGenesis sampleSealing_collisionFree sampleNode_onlyGenesis).added
    sampleSealing_collisionFree hextends (sampleNode_added (by decide) 0 genesisHash engine)
  exact ⟨_, _, start_sampleNode, ⟨_, hchain⟩, (Node.state_follows_chain sampleConfig sampleSealing_collisionFree
    start_sampleNode .refl horder (step_importEmpty rfl hverify)).1⟩

def rewarded (tree : VerkleTree) : VerkleTree :=
  tree.insert (balanceKey .ideal 0xc0) (BigEndian.minimal 32
    (decodeBalance (tree.get (balanceKey .ideal 0xc0)) + BitVec.ofNat 256 blockReward).toNat)

theorem importBlock_empty {n : Node} {tree : VerkleTree} {code : Table Hash Bytes}
    (h : n.state = .base tree ⟨∅, code⟩) (b : Block) {ctx : BlockContext} (hctx : ctx.coinbase = 0xc0) :
    (Node.importBlock sampleSealing n b (Executor.ideal.closeBlock ctx []
      (Executor.startBlock n.state []))).state = .base (rewarded tree) ⟨∅, code⟩ := by
  unfold Node.importBlock Node.persistBlock Executor.closeBlock
  rw [h, hctx]
  rfl

theorem sampleNode_state : ∃ tree code, sampleNode.state = .base tree ⟨∅, code⟩ ∧
    tree.get (balanceKey .ideal 0xc0) = [] := by
  refine ⟨_, _, rfl, ?_⟩
  decide +kernel

theorem rewarded_twice_ne {tree : VerkleTree} (h : tree.get (balanceKey .ideal 0xc0) = []) :
    rewarded (rewarded tree) ≠ rewarded tree := by
  have hfirst : (rewarded tree).get (balanceKey .ideal 0xc0) = BigEndian.minimal 32 blockReward := by
    rw [rewarded, h, VerkleTree.get_insert, if_pos ⟨by decide +kernel, rfl⟩]
    decide +kernel
  intro heq
  have hget := congrArg (fun t => t.get (balanceKey .ideal 0xc0)) heq
  rw [hfirst, rewarded, hfirst, VerkleTree.get_insert, if_pos ⟨by decide +kernel, rfl⟩] at hget
  exact absurd hget (by decide +kernel)

theorem Node.Replay.eq_of_singleton {e : Executor} {S : Sealing} {start r : Node} {b : Block}
    (h : Node.Replay e S start [b] r) : ∃ res,
      e.ApplyBlock (start.bc.blockContext S b.header) start.state b.transactions res ∧
      r = Node.importBlock S start b res := by
  have hnil {blocks : List Block} {n : Node} (h : Node.Replay e S start blocks n) (hb : blocks = []) :
      n = start := by
    cases h with
    | nil => rfl
    | snoc => exact absurd hb (by simp)
  generalize hb : [b] = blocks at h
  cases h with
  | nil => cases hb
  | snoc h happly =>
    rw [← List.nil_append [b]] at hb
    obtain ⟨hempty, hlast⟩ := List.append_inj' hb rfl
    obtain rfl := hnil h hempty.symm
    obtain rfl := (List.cons.inj hlast).1
    exact ⟨_, happly, rfl⟩

theorem redelivery_pays_twice : ∃ n₀ n n' : Node,
    Node.start .ideal sampleSealing sampleConfig .empty = some n₀ ∧
    ReflTransGen (fun n n' => ∃ event, Node.Step .ideal sampleSealing sampleConfig n event n') n₀ n ∧
    Node.Step .ideal sampleSealing sampleConfig n (.deliver (.syncBlock (sampleBlock 1 0 genesisHash))) n' ∧
    n'.bc.currentBlock = n.bc.currentBlock ∧ n'.state ≠ n.state ∧
    ¬Node.FollowsChain .ideal sampleSealing n₀ n' := by
  obtain ⟨engine, hverify⟩ := sampleNode_verify 1 0 genesisHash
  obtain ⟨tree, code, hstate, hbalance⟩ := sampleNode_state
  let n := importEmpty sampleNode engine (sampleBlock 1 0 genesisHash)
  let n' := importEmpty n engine (sampleBlock 1 0 genesisHash)
  have hadded : Added sampleSealing sampleNode.bc (sampleBlock 1 0 genesisHash) n.bc :=
    sampleNode_added (by decide) 0 genesisHash engine
  have hn : n.state = .base (rewarded tree) ⟨∅, code⟩ :=
    importBlock_empty (n := { sampleNode with engine := engine }) hstate _ rfl
  have hn' : n'.state = .base (rewarded (rewarded tree)) ⟨∅, code⟩ :=
    importBlock_empty (n := { n with engine := engine }) hn _ rfl
  have hne : n'.state ≠ n.state := by
    rw [hn, hn']
    intro heq
    exact rewarded_twice_ne hbalance (StateDB.base.inj heq).1
  have hsame : SameLookups n.bc n'.bc := by
    rcases importEmpty_cases n engine 1 0 genesisHash with ⟨-, hsame⟩ | hagain
    · exact hsame
    · have hnew := hagain.new
      rw [hadded.readBlock_new rfl] at hnew
      cases hnew
  have hcurrent : n'.bc.currentBlock = some (sampleBlock 1 0 genesisHash) :=
    hsame.current.trans (sampleNode_moved hadded Nat.zero_lt_one)
  have hfirst : n'.bc.getBlockByNumber 1 = some (sampleBlock 1 0 genesisHash) :=
    (hsame.getBlockByNumber 1).trans (hadded.getBlockByNumber_new (sampleSealing_ne_zero _) rfl)
  refine ⟨sampleNode, n, n', start_sampleNode, .single ⟨_, step_importEmpty rfl hverify⟩,
    step_importEmpty rfl (ZeliusEngine.verify_again hverify), hsame.current, hne, ?_⟩
  rintro ⟨blocks, r, hchain, hreplay, -, hr⟩
  -- The chain holds one block, and its replay ends in the state after the first delivery.
  obtain ⟨current, hcur, hlen, -⟩ := hchain.head
  obtain rfl := Option.some.inj (hcurrent.symm.trans hcur)
  obtain ⟨b, rfl⟩ := List.length_eq_one_iff.mp hlen.symm
  obtain rfl : sampleBlock 1 0 genesisHash = b := Option.some.inj (hfirst.symm.trans (hchain.found 0 b rfl))
  obtain ⟨res, happly, rfl⟩ := hreplay.eq_of_singleton
  obtain rfl := (Executor.ideal.applyBlock_nil _ _ _).mp happly
  exact hne (hr.symm.trans ((importBlock_empty hstate _ rfl).trans hn.symm))

end Sample

end Zephyria
