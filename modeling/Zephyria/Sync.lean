import Zephyria.LeaderAgreement

/-!
The exchange of Status, GetBlocks and Blocks messages by which a node catches up with a peer, over one
connection whose messages arrive in the order they were sent.
-/

namespace Zephyria

open Relation

structure ChainIdentity where
  chainID : UInt64
  genesisHash : Hash
deriving DecidableEq

def chainIdentity : Network → ChainIdentity
  | .mainnet => ⟨999, Zephyria.genesisHash⟩
  | .testnet => ⟨9999, Zephyria.genesisHash⟩
  | .simulation => ⟨1338, Zephyria.genesisHash⟩
  | .devnet => ⟨99999, Zephyria.genesisHash⟩

structure StatusMsg where
  networkID : UInt64
  genesisHash : Hash
  headHash : Hash
  headNumber : UInt64
deriving DecidableEq

structure GetBlocksMsg where
  startHash : Hash
  limit : UInt64
deriving DecidableEq

inductive SyncMsg where
  | status (msg : StatusMsg)
  | getBlocks (msg : GetBlocksMsg)
  | blocks (blocks : List Block)
deriving DecidableEq

inductive Reaction where
  | removePeer
  | idle
  | request (msg : GetBlocksMsg)
deriving DecidableEq

section Handlers

variable (S : Sealing) (net : ChainIdentity)

def statusOf (current : Block) : StatusMsg where
  networkID := net.chainID
  genesisHash := net.genesisHash
  headHash := S.headerHash current.header
  headNumber := UInt64.ofNat current.header.number

def handleStatus (current : Block) (msg : StatusMsg) : Reaction :=
  if msg.genesisHash ≠ net.genesisHash ∨ msg.networkID ≠ net.chainID then .removePeer
  else if msg.headNumber > UInt64.ofNat current.header.number then
    .request ⟨S.headerHash current.header, 100⟩
  else .idle

def blocksFrom (bc : Blockchain) : UInt64 → ℕ → List Block
  | _, 0 => []
  | number, limit + 1 =>
    match bc.getBlockByNumber number with
    | none => []
    | some b => b :: blocksFrom bc (number + 1) limit

def handleGetBlocks (bc : Blockchain) (msg : GetBlocksMsg) : List Block :=
  match bc.getBlockByHash msg.startHash with
  | none => []
  | some start => blocksFrom bc (UInt64.ofNat start.header.number + 1) msg.limit.toNat

/-- `handleBlocks` hands the blocks to the node one after the other, and asks for no more. -/
inductive HandleBlocks (e : Executor) : Node → List Block → Node → Prop
  | nil {n : Node} : HandleBlocks e n [] n
  | cons {n n' n'' : Node} {b : Block} {bs : List Block} (hlock : n.pending = none)
      (h : Node.Deliver e S n (.syncBlock b) n') (hrest : HandleBlocks e n' bs n'') :
      HandleBlocks e n (b :: bs) n''

end Handlers

structure Endpoint where
  net : ChainIdentity
  node : Node
  greeted : Bool
  inbox : List SyncMsg

structure Connection where
  lagging : Endpoint
  peer : Endpoint
  removed : Bool

section Exchange

variable (e : Executor) (S : Sealing)

inductive Endpoint.Acts (p : Endpoint) : Endpoint → List SyncMsg → Prop
  | greet {current : Block} (h : p.greeted = false) (hcurrent : p.node.bc.currentBlock = some current) :
      p.Acts { p with greeted := true } [.status (statusOf S p.net current)]
  | idle {current : Block} {msg : StatusMsg} {rest : List SyncMsg} (hinbox : p.inbox = .status msg :: rest)
      (hcurrent : p.node.bc.currentBlock = some current) (h : handleStatus S p.net current msg = .idle) :
      p.Acts { p with inbox := rest } []
  | request {current : Block} {msg : StatusMsg} {req : GetBlocksMsg} {rest : List SyncMsg}
      (hinbox : p.inbox = .status msg :: rest) (hcurrent : p.node.bc.currentBlock = some current)
      (h : handleStatus S p.net current msg = .request req) : p.Acts { p with inbox := rest } [.getBlocks req]
  | getBlocks {msg : GetBlocksMsg} {rest : List SyncMsg} (hinbox : p.inbox = .getBlocks msg :: rest) :
      p.Acts { p with inbox := rest } [.blocks (handleGetBlocks p.node.bc msg)]
  | blocks {bs : List Block} {rest : List SyncMsg} {node : Node} (hinbox : p.inbox = .blocks bs :: rest)
      (h : HandleBlocks S e p.node bs node) : p.Acts { p with node := node, inbox := rest } []

def Endpoint.Rejects (p : Endpoint) : Prop :=
  ∃ msg rest current, p.inbox = .status msg :: rest ∧ p.node.bc.currentBlock = some current ∧
    handleStatus S p.net current msg = .removePeer

namespace Connection

def hangUp (c : Connection) : Connection where
  lagging := { c.lagging with inbox := [] }
  peer := { c.peer with inbox := [] }
  removed := true

inductive Step (c : Connection) : Connection → Prop
  | lagging {p : Endpoint} {sent : List SyncMsg} (hopen : c.removed = false) (h : c.lagging.Acts e S p sent) :
      c.Step { c with lagging := p, peer := { c.peer with inbox := c.peer.inbox ++ sent } }
  | peer {p : Endpoint} {sent : List SyncMsg} (hopen : c.removed = false) (h : c.peer.Acts e S p sent) :
      c.Step { c with lagging := { c.lagging with inbox := c.lagging.inbox ++ sent }, peer := p }
  | removePeer (hopen : c.removed = false) (h : c.lagging.Rejects S ∨ c.peer.Rejects S) : c.Step c.hangUp

def connect (net : ChainIdentity) (lagging peer : Node) : Connection where
  lagging := ⟨net, lagging, false, []⟩
  peer := ⟨net, peer, false, []⟩
  removed := false

structure Quiet (c : Connection) : Prop where
  lagging : c.lagging.inbox = []
  peer : c.peer.inbox = []
  greeted : c.removed = false → c.lagging.greeted = true ∧ c.peer.greeted = true

end Connection

end Exchange

/-- The blocks can be imported one after the other: they arrive as they were sent, their leader has
signed them, they are new, and every execution of one ends with the root that its header names. -/
def Importable (e : Executor) (S : Sealing) : List Block → Node → Prop
  | [], _ => True
  | b :: bs, n =>
    b.arrived = b ∧ n.Passes e S (.syncBlock b) ∧ n.bc.getBlockByHash (S.headerHash b.header) = none ∧
      (∃ res, e.ApplyBlock (n.bc.blockContext S b.header) n.state b.transactions res) ∧
      ∀ engine res, n.engine.verify e.keccak S b = some (.ok (), engine) →
        e.ApplyBlock (n.bc.blockContext S b.header) n.state b.transactions res →
          res.root = b.header.verkleRoot ∧
            Importable e S bs (Node.importBlock S { n with engine := engine } b res)

def chainTip : Block → List Block → Block
  | head, [] => head
  | _, b :: bs => chainTip b bs

structure Ahead (S : Sealing) (lagging peer : Blockchain) (head : Block) (chain : List Block) : Prop where
  current : lagging.currentBlock = some head
  common : peer.getBlockByHash (S.headerHash head.header) = some head
  tip : peer.currentBlock = some (chainTip head chain)
  consecutive : (head :: chain).IsChain fun parent b => b.header.number = parent.header.number + 1
  canonical : ∀ i ≤ chain.length,
    peer.getBlockByNumber (UInt64.ofNat (head.header.number + 1 + i)) = chain[i]?
  bound : head.header.number + chain.length < 2 ^ 64

section Chain

variable {e : Executor} {S : Sealing} {net : ChainIdentity} {n : Node} {bc : Blockchain} {head : Block}
  {chain : List Block}

theorem blocksFrom_eq {number : ℕ}
    (h : ∀ i ≤ chain.length, bc.getBlockByNumber (UInt64.ofNat (number + i)) = chain[i]?) (limit : ℕ) :
    blocksFrom bc (UInt64.ofNat number) limit = chain.take limit := by
  induction limit generalizing number chain with
  | zero => rfl
  | succ limit ih =>
    have hfirst := h 0 (Nat.zero_le _)
    rw [Nat.add_zero] at hfirst
    rw [blocksFrom, hfirst]
    cases chain with
    | nil => rfl
    | cons b bs =>
      have hrest : blocksFrom bc (UInt64.ofNat (number + 1)) limit = bs.take limit := by
        apply ih
        intro i hi
        rw [Nat.add_assoc, Nat.add_comm 1]
        exact h (i + 1) (Nat.succ_le_succ hi)
      rw [UInt64.ofNat_add] at hrest
      exact congrArg (b :: ·) hrest

theorem chainTip_number (h : (head :: chain).IsChain fun parent b => b.header.number = parent.header.number + 1) :
    (chainTip head chain).header.number = head.header.number + chain.length := by
  induction chain generalizing head with
  | nil => rfl
  | cons b bs ih =>
    obtain ⟨hb, hbs⟩ := List.isChain_cons_cons.mp h
    rw [chainTip, ih hbs, hb, List.length_cons]
    omega

theorem Importable.take (h : Importable e S chain n) (limit : ℕ) : Importable e S (chain.take limit) n := by
  induction limit generalizing chain n with
  | zero => exact trivial
  | succ limit ih =>
    cases chain with
    | nil => exact trivial
    | cons b bs =>
      obtain ⟨harrived, hpasses, hnew, hruns, himports⟩ := h
      refine ⟨harrived, hpasses, hnew, hruns, fun engine res hverify happly => ?_⟩
      obtain ⟨hroot, hrest⟩ := himports engine res hverify happly
      exact ⟨hroot, ih hrest⟩

theorem importBlock_currentBlock {b : Block} {engine : ZeliusEngine} {res : AppliedBlock}
    (hcurrent : n.bc.currentBlock = some head) (hnumber : b.header.number = head.header.number + 1)
    (hnew : n.bc.getBlockByHash (S.headerHash b.header) = none) (hroot : res.root = b.header.verkleRoot) :
    (Node.importBlock S { n with engine := engine } b res).bc.currentBlock = some b := by
  have hcases := Node.importBlock_cases S { n with engine := engine } b res
  rw [hroot] at hcases
  obtain ⟨hknown, -⟩ | hadded := hcases
  · rw [show n.bc.db.readBlock (S.headerHash b.header) = none from hnew] at hknown
    cases hknown
  · exact hadded.currentBlock_of_newer hcurrent (show b.header.number > head.header.number by omega)

theorem handleBlocks_tip (hcurrent : n.bc.currentBlock = some head)
    (hchain : (head :: chain).IsChain fun parent b => b.header.number = parent.header.number + 1)
    (hvalid : Importable e S chain n) {n' : Node} (h : HandleBlocks S e n chain n') :
    n'.bc.currentBlock = some (chainTip head chain) := by
  induction chain generalizing n head with
  | nil =>
    cases h
    exact hcurrent
  | cons b bs ih =>
    obtain ⟨hb, hbs⟩ := List.isChain_cons_cons.mp hchain
    obtain ⟨harrived, ⟨hskips, engine, hverify⟩, hnew, -, himports⟩ := hvalid
    have hblock : (Delivery.syncBlock b).block = b := harrived
    cases h with
    | cons hlock hdeliver hrest =>
      cases hdeliver with
      | skipped h => cases h
      | rejected _ hrejected => cases hverify.symm.trans hrejected
      | imported _ hverify happly =>
        rw [hblock] at hverify happly hrest
        obtain ⟨hroot, hvalid⟩ := himports _ _ hverify happly
        exact ih (importBlock_currentBlock hcurrent hb hnew hroot) hbs hvalid hrest

theorem exists_handleBlocks (hlock : n.pending = none) (hvalid : Importable e S chain n) :
    ∃ n', HandleBlocks S e n chain n' := by
  induction chain generalizing n with
  | nil => exact ⟨n, .nil⟩
  | cons b bs ih =>
    obtain ⟨harrived, ⟨hskips, engine, hverify⟩, -, ⟨res, happly⟩, himports⟩ := hvalid
    have hblock : (Delivery.syncBlock b).block = b := harrived
    have hdeliver : Node.Deliver e S n (.syncBlock b) (Node.importBlock S { n with engine := engine }
        (Delivery.syncBlock b).block res) := .imported hskips hverify (by rw [hblock]; exact happly)
    rw [hblock] at hverify hdeliver
    obtain ⟨-, hvalid⟩ := himports engine res hverify happly
    obtain ⟨n', hrest⟩ := ih (n := Node.importBlock S { n with engine := engine } b res) hlock hvalid
    exact ⟨n', .cons hlock hdeliver hrest⟩

theorem handleStatus_statusOf {current head : Block} (hcurrent : current.header.number < 2 ^ 64)
    (hhead : head.header.number < 2 ^ 64) : handleStatus S net current (statusOf S net head) =
      if current.header.number < head.header.number then .request ⟨S.headerHash current.header, 100⟩
      else .idle := by
  have hnumber : UInt64.ofNat current.header.number < UInt64.ofNat head.header.number ↔
      current.header.number < head.header.number := by
    rw [UInt64.lt_iff_toNat_lt, UInt64.toNat_ofNat_of_lt' hcurrent, UInt64.toNat_ofNat_of_lt' hhead]
  unfold handleStatus statusOf
  simp [hnumber]

end Chain

def Behind (S : Sealing) (net : ChainIdentity) (tip : Block) (msg : SyncMsg) : Prop :=
  ∃ current : Block, msg = .status (statusOf S net current) ∧ current.header.number ≤ tip.header.number

inductive Stage (S : Sealing) (net : ChainIdentity) (lagging : Node) (head : Block) (chain : List Block) :
    Endpoint → Endpoint → Prop
  | waiting {p q : Endpoint} (hnode : p.node = lagging)
      (hinbox : p.inbox = if q.greeted then [.status (statusOf S net (chainTip head chain))] else [])
      (hbehind : ∀ msg ∈ q.inbox, Behind S net (chainTip head chain) msg) :
      Stage S net lagging head chain p q
  | requested {p q : Endpoint} {before after : List SyncMsg} (hnode : p.node = lagging) (hinbox : p.inbox = [])
      (hgreeted : q.greeted = true)
      (hrequest : q.inbox = before ++ .getBlocks ⟨S.headerHash head.header, 100⟩ :: after)
      (hbehind : ∀ msg ∈ before ++ after, Behind S net (chainTip head chain) msg) :
      Stage S net lagging head chain p q
  | answered {p q : Endpoint} (hnode : p.node = lagging) (hinbox : p.inbox = [.blocks (chain.take 100)])
      (hgreeted : q.greeted = true) (hbehind : ∀ msg ∈ q.inbox, Behind S net (chainTip head chain) msg) :
      Stage S net lagging head chain p q
  | done {p q : Endpoint} (hcurrent : p.node.bc.currentBlock = some (chainTip head (chain.take 100)))
      (hinbox : p.inbox = []) (hgreeted : q.greeted = true)
      (hbehind : ∀ msg ∈ q.inbox, Behind S net (chainTip head chain) msg) :
      Stage S net lagging head chain p q

structure Syncing (S : Sealing) (net : ChainIdentity) (lagging peer : Node) (head : Block) (chain : List Block)
    (c : Connection) : Prop where
  opened : c.removed = false
  lagging_net : c.lagging.net = net
  peer_net : c.peer.net = net
  peer_node : c.peer.node = peer
  stage : Stage S net lagging head chain c.lagging c.peer

section Exchange

variable {e : Executor} {S : Sealing} {net : ChainIdentity} {lagging peer : Node} {head : Block}
  {chain : List Block} {c c' : Connection}

theorem Ahead.tip_number (h : Ahead S lagging.bc peer.bc head chain) :
    (chainTip head chain).header.number = head.header.number + chain.length :=
  chainTip_number h.consecutive

theorem Ahead.taken (h : Ahead S lagging.bc peer.bc head chain) (limit : ℕ) :
    (head :: chain.take limit).IsChain fun parent b => b.header.number = parent.header.number + 1 :=
  h.consecutive.take (limit + 1)

theorem Ahead.taken_number (h : Ahead S lagging.bc peer.bc head chain) :
    (chainTip head (chain.take 100)).header.number = head.header.number + min 100 chain.length := by
  rw [chainTip_number (h.taken 100), List.length_take]

theorem Ahead.handleGetBlocks_eq (h : Ahead S lagging.bc peer.bc head chain) :
    handleGetBlocks peer.bc ⟨S.headerHash head.header, 100⟩ = chain.take 100 := by
  rw [handleGetBlocks, h.common]
  exact (congrArg (blocksFrom peer.bc · 100) (UInt64.ofNat_add _ 1)).symm.trans (blocksFrom_eq h.canonical 100)

theorem Ahead.handleStatus_eq (h : Ahead S lagging.bc peer.bc head chain) (net : ChainIdentity) :
    handleStatus S net head (statusOf S net (chainTip head chain)) =
      if 0 < chain.length then .request ⟨S.headerHash head.header, 100⟩ else .idle := by
  have hbound := h.bound
  have htip := h.tip_number
  rw [handleStatus_statusOf (by omega) (by omega), htip]
  simp

theorem Behind.idle (h : Ahead S lagging.bc peer.bc head chain) {msg : StatusMsg}
    (hmsg : Behind S net (chainTip head chain) (.status msg)) :
    handleStatus S net (chainTip head chain) msg = .idle := by
  obtain ⟨current, hstatus, hle⟩ := hmsg
  obtain rfl := SyncMsg.status.inj hstatus
  have hbound := h.bound
  have htip := h.tip_number
  rw [handleStatus_statusOf (by omega) (by omega), if_neg (by omega)]

theorem Stage.behind (h : Ahead S lagging.bc peer.bc head chain) {p q : Endpoint} {current : Block}
    (hstage : Stage S net lagging head chain p q) (hcurrent : p.node.bc.currentBlock = some current) :
    current.header.number ≤ (chainTip head chain).header.number := by
  have htip := h.tip_number
  cases hstage with
  | done htaken =>
    obtain rfl := Option.some.inj (htaken.symm.trans hcurrent)
    rw [h.taken_number]
    omega
  | _ hnode =>
    rw [hnode, h.current] at hcurrent
    obtain rfl := Option.some.inj hcurrent
    omega

theorem Stage.peer_inbox {p q : Endpoint} {msg : SyncMsg} {rest : List SyncMsg}
    (hstage : Stage S net lagging head chain p q) (hinbox : q.inbox = msg :: rest) :
    (Behind S net (chainTip head chain) msg ∧
        Stage S net lagging head chain p { q with inbox := rest }) ∨
      (msg = .getBlocks ⟨S.headerHash head.header, 100⟩ ∧ p.node = lagging ∧ p.inbox = [] ∧ q.greeted = true ∧
        ∀ msg ∈ rest, Behind S net (chainTip head chain) msg) := by
  have hcons (hbehind : ∀ msg ∈ q.inbox, Behind S net (chainTip head chain) msg) :
      Behind S net (chainTip head chain) msg ∧ ∀ msg ∈ rest, Behind S net (chainTip head chain) msg := by
    rw [hinbox] at hbehind
    exact List.forall_mem_cons.mp hbehind
  cases hstage with
  | waiting hnode hempty hbehind =>
    obtain ⟨hmsg, hrest⟩ := hcons hbehind
    exact Or.inl ⟨hmsg, .waiting hnode hempty hrest⟩
  | @requested before after hnode hempty hgreeted hrequest hbehind =>
    cases before with
    | nil =>
      obtain ⟨rfl, rfl⟩ := List.cons.inj (hinbox.symm.trans hrequest)
      exact Or.inr ⟨rfl, hnode, hempty, hgreeted, hbehind⟩
    | cons first before =>
      obtain ⟨rfl, rfl⟩ := List.cons.inj (hinbox.symm.trans hrequest)
      obtain ⟨hmsg, hrest⟩ := List.forall_mem_cons.mp hbehind
      exact Or.inl ⟨hmsg, .requested hnode hempty hgreeted rfl hrest⟩
  | answered hnode hblocks hgreeted hbehind =>
    obtain ⟨hmsg, hrest⟩ := hcons hbehind
    exact Or.inl ⟨hmsg, .answered hnode hblocks hgreeted hrest⟩
  | done hcurrent hempty hgreeted hbehind =>
    obtain ⟨hmsg, hrest⟩ := hcons hbehind
    exact Or.inl ⟨hmsg, .done hcurrent hempty hgreeted hrest⟩

theorem Stage.lagging_inbox {p q : Endpoint} {msg : SyncMsg} {rest : List SyncMsg}
    (hstage : Stage S net lagging head chain p q) (hinbox : p.inbox = msg :: rest) :
    (msg = .status (statusOf S net (chainTip head chain)) ∨ msg = .blocks (chain.take 100)) ∧ rest = [] ∧
      p.node = lagging ∧ q.greeted = true ∧ ∀ msg ∈ q.inbox, Behind S net (chainTip head chain) msg := by
  cases hstage with
  | waiting hnode hstatus hbehind =>
    rw [hinbox] at hstatus
    split at hstatus
    next hgreeted =>
      obtain ⟨rfl, rfl⟩ := List.cons.inj hstatus
      exact ⟨Or.inl rfl, rfl, hnode, hgreeted, hbehind⟩
    next => cases hstatus
  | answered hnode hblocks hgreeted hbehind =>
    obtain ⟨rfl, rfl⟩ := List.cons.inj (hinbox.symm.trans hblocks)
    exact ⟨Or.inr rfl, rfl, hnode, hgreeted, hbehind⟩
  | requested _ hempty => cases hinbox.symm.trans hempty
  | done _ hempty => cases hinbox.symm.trans hempty

theorem Stage.lagging_status (h : Ahead S lagging.bc peer.bc head chain) {p q : Endpoint} {msg : StatusMsg}
    {rest : List SyncMsg} {current : Block} (hstage : Stage S net lagging head chain p q)
    (hinbox : p.inbox = .status msg :: rest) (hcurrent : p.node.bc.currentBlock = some current) :
    handleStatus S net current msg =
      if 0 < chain.length then .request ⟨S.headerHash head.header, 100⟩ else .idle := by
  obtain ⟨hmsg, -, hnode, -⟩ := hstage.lagging_inbox hinbox
  obtain hmsg | hmsg := hmsg
  · obtain rfl := SyncMsg.status.inj hmsg
    rw [hnode, h.current] at hcurrent
    obtain rfl := Option.some.inj hcurrent
    exact h.handleStatus_eq net
  · cases hmsg

theorem Stage.greets {p q : Endpoint} {msg : SyncMsg} (hstage : Stage S net lagging head chain p q)
    (hmsg : Behind S net (chainTip head chain) msg) :
    Stage S net lagging head chain { p with greeted := true } { q with inbox := q.inbox ++ [msg] } := by
  have happend {inbox : List SyncMsg} (hbehind : ∀ msg ∈ inbox, Behind S net (chainTip head chain) msg) :
      ∀ m ∈ inbox ++ [msg], Behind S net (chainTip head chain) m :=
    List.forall_mem_append.mpr ⟨hbehind, List.forall_mem_singleton.mpr hmsg⟩
  cases hstage with
  | waiting hnode hinbox hbehind => exact .waiting hnode hinbox (happend hbehind)
  | requested hnode hinbox hgreeted hrequest hbehind =>
    refine .requested hnode hinbox hgreeted ((congrArg (· ++ [msg]) hrequest).trans (List.append_assoc _ _ _)) ?_
    have hall := happend hbehind
    rw [List.append_assoc] at hall
    exact hall
  | answered hnode hinbox hgreeted hbehind => exact .answered hnode hinbox hgreeted (happend hbehind)
  | done hcurrent hinbox hgreeted hbehind => exact .done hcurrent hinbox hgreeted (happend hbehind)

theorem Stage.lagging_acts (h : Ahead S lagging.bc peer.bc head chain) (hvalid : Importable e S chain lagging)
    {p p' q : Endpoint} {sent : List SyncMsg} (hstage : Stage S net lagging head chain p q)
    (hnet : p.net = net) (hacts : p.Acts e S p' sent) :
    Stage S net lagging head chain p' { q with inbox := q.inbox ++ sent } := by
  subst hnet
  cases hacts with
  | greet hgreeted hcurrent => exact hstage.greets ⟨_, rfl, hstage.behind h hcurrent⟩
  | idle hinbox hcurrent hidle =>
    obtain ⟨-, rfl, hnode, hgreeted, hbehind⟩ := hstage.lagging_inbox hinbox
    rw [hstage.lagging_status h hinbox hcurrent] at hidle
    split at hidle
    next => cases hidle
    next hlength =>
      -- Not behind: there is nothing to catch up with.
      obtain rfl : chain = [] := List.eq_nil_of_length_eq_zero (by omega)
      refine .done (hnode ▸ h.current) rfl hgreeted ?_
      rwa [List.append_nil]
  | request hinbox hcurrent hrequest =>
    obtain ⟨-, rfl, hnode, hgreeted, hbehind⟩ := hstage.lagging_inbox hinbox
    rw [hstage.lagging_status h hinbox hcurrent] at hrequest
    split at hrequest
    next =>
      obtain rfl := Reaction.request.inj hrequest
      refine .requested hnode rfl hgreeted rfl ?_
      rwa [List.append_nil]
    next => cases hrequest
  | getBlocks hinbox =>
    obtain ⟨hmsg, -⟩ := hstage.lagging_inbox hinbox
    obtain hmsg | hmsg := hmsg <;> cases hmsg
  | blocks hinbox hblocks =>
    obtain ⟨hmsg, rfl, hnode, hgreeted, hbehind⟩ := hstage.lagging_inbox hinbox
    obtain hmsg | hmsg := hmsg
    · cases hmsg
    · obtain rfl := SyncMsg.blocks.inj hmsg
      rw [hnode] at hblocks
      refine .done (handleBlocks_tip h.current (h.taken 100) (hvalid.take 100) hblocks) rfl hgreeted ?_
      rwa [List.append_nil]

theorem Stage.peer_acts (h : Ahead S lagging.bc peer.bc head chain) {p q q' : Endpoint} {sent : List SyncMsg}
    (hstage : Stage S net lagging head chain p q) (hnet : q.net = net) (hnode : q.node = peer)
    (hacts : q.Acts e S q' sent) : q'.net = net ∧ q'.node = peer ∧
      Stage S net lagging head chain { p with inbox := p.inbox ++ sent } q' := by
  subst hnet
  have hsame : p.inbox ++ [] = p.inbox := List.append_nil _
  cases hacts with
  | greet hgreeted hcurrent =>
    refine ⟨rfl, hnode, ?_⟩
    rw [hnode, h.tip] at hcurrent
    obtain rfl := Option.some.inj hcurrent
    cases hstage with
    | waiting hlagging hinbox hbehind =>
      refine .waiting hlagging ?_ hbehind
      rw [hinbox, hgreeted]
      rfl
    | requested _ _ htrue => cases hgreeted.symm.trans htrue
    | answered _ _ htrue => cases hgreeted.symm.trans htrue
    | done _ _ htrue => cases hgreeted.symm.trans htrue
  | idle hinbox hcurrent hidle =>
    refine ⟨rfl, hnode, ?_⟩
    rw [hsame]
    obtain ⟨-, hrest⟩ | ⟨hmsg, -⟩ := hstage.peer_inbox hinbox
    · exact hrest
    · cases hmsg
  | request hinbox hcurrent hrequest =>
    rw [hnode, h.tip] at hcurrent
    obtain rfl := Option.some.inj hcurrent
    obtain ⟨hbehind, -⟩ | ⟨hmsg, -⟩ := hstage.peer_inbox hinbox
    · cases (hbehind.idle h).symm.trans hrequest
    · cases hmsg
  | getBlocks hinbox =>
    refine ⟨rfl, hnode, ?_⟩
    obtain ⟨⟨_, hmsg, -⟩, -⟩ | ⟨hmsg, hlagging, hempty, hgreeted, hbehind⟩ := hstage.peer_inbox hinbox
    · cases hmsg
    · obtain rfl := SyncMsg.getBlocks.inj hmsg
      rw [hnode, h.handleGetBlocks_eq, hempty]
      exact .answered hlagging rfl hgreeted hbehind
  | blocks hinbox =>
    obtain ⟨⟨_, hmsg, -⟩, -⟩ | ⟨hmsg, -⟩ := hstage.peer_inbox hinbox
    · cases hmsg
    · cases hmsg

theorem Endpoint.Acts.net_eq {p p' : Endpoint} {sent : List SyncMsg} (h : p.Acts e S p' sent) : p'.net = p.net := by
  cases h <;> rfl

theorem Syncing.not_rejects (h : Ahead S lagging.bc peer.bc head chain)
    (hc : Syncing S net lagging peer head chain c) : ¬c.lagging.Rejects S ∧ ¬c.peer.Rejects S := by
  constructor
  · rintro ⟨msg, rest, current, hinbox, hcurrent, hremove⟩
    rw [hc.lagging_net, hc.stage.lagging_status h hinbox hcurrent] at hremove
    split at hremove <;> cases hremove
  · rintro ⟨msg, rest, current, hinbox, hcurrent, hremove⟩
    rw [hc.peer_node, h.tip] at hcurrent
    obtain rfl := Option.some.inj hcurrent
    obtain ⟨hbehind, -⟩ | ⟨hmsg, -⟩ := hc.stage.peer_inbox hinbox
    · rw [hc.peer_net] at hremove
      cases (hbehind.idle h).symm.trans hremove
    · cases hmsg

theorem Syncing.step (h : Ahead S lagging.bc peer.bc head chain) (hvalid : Importable e S chain lagging)
    (hc : Syncing S net lagging peer head chain c) (hstep : c.Step e S c') :
    Syncing S net lagging peer head chain c' := by
  cases hstep with
  | lagging hopen hacts =>
    exact ⟨hopen, hacts.net_eq.trans hc.lagging_net, hc.peer_net, hc.peer_node,
      hc.stage.lagging_acts h hvalid hc.lagging_net hacts⟩
  | peer hopen hacts =>
    obtain ⟨hnet, hnode, hstage⟩ := hc.stage.peer_acts h hc.peer_net hc.peer_node hacts
    exact ⟨hopen, hc.lagging_net, hnet, hnode, hstage⟩
  | removePeer hopen hrejects =>
    obtain ⟨hlagging, hpeer⟩ := hc.not_rejects h
    exact (hrejects.elim hlagging hpeer).elim

theorem Syncing.connect :
    Syncing S net lagging peer head chain (.connect net lagging peer) where
  opened := rfl
  lagging_net := rfl
  peer_net := rfl
  peer_node := rfl
  stage := .waiting rfl rfl (by simp [Connection.connect])

theorem Syncing.run (h : Ahead S lagging.bc peer.bc head chain) (hvalid : Importable e S chain lagging)
    (hrun : ReflTransGen (Connection.Step e S) (.connect net lagging peer) c) :
    Syncing S net lagging peer head chain c := by
  induction hrun with
  | refl => exact .connect
  | tail _ hstep ih => exact ih.step h hvalid hstep

theorem Syncing.quiet (hc : Syncing S net lagging peer head chain c) (hquiet : c.Quiet) :
    c.lagging.node.bc.currentBlock = some (chainTip head (chain.take 100)) := by
  obtain ⟨-, hgreeted⟩ := hquiet.greeted hc.opened
  obtain ⟨-, -, -, -, hstage⟩ := hc
  cases hstage with
  | waiting _ hinbox =>
    rw [hquiet.lagging, if_pos hgreeted] at hinbox
    cases hinbox
  | requested _ _ _ hrequest =>
    rw [hquiet.peer] at hrequest
    simp at hrequest
  | answered _ hinbox => cases hquiet.lagging.symm.trans hinbox
  | done hcurrent => exact hcurrent

theorem Syncing.heads_eq_iff (h : Ahead S lagging.bc peer.bc head chain)
    (hc : Syncing S net lagging peer head chain c) (hquiet : c.Quiet) :
    c.lagging.node.bc.currentBlock = c.peer.node.bc.currentBlock ↔ chain.length ≤ 100 := by
  rw [hc.quiet hquiet, hc.peer_node, h.tip]
  constructor
  · intro heq
    have hnumber := h.taken_number
    rw [Option.some.inj heq, h.tip_number] at hnumber
    omega
  · intro hle
    rw [List.take_of_length_le hle]

theorem exists_answer (net : ChainIdentity) (h : Ahead S lagging.bc peer.bc head chain) (hlock : lagging.pending = none)
    (hvalid : Importable e S chain lagging) (hbehind : 0 < chain.length) :
    ∃ c, ReflTransGen (Connection.Step e S)
      ⟨⟨net, lagging, true, [.status (statusOf S net (chainTip head chain))]⟩, ⟨net, peer, true, []⟩, false⟩ c ∧
        c.Quiet := by
  obtain ⟨n, hblocks⟩ := exists_handleBlocks hlock (hvalid.take 100)
  rw [← h.handleGetBlocks_eq] at hblocks
  have hrequest := h.handleStatus_eq net
  rw [if_pos hbehind] at hrequest
  exact ⟨_, .tail (.tail (.single (.lagging rfl (.request rfl h.current hrequest)))
    (.peer rfl (.getBlocks rfl))) (.lagging rfl (.blocks rfl hblocks)), rfl, rfl, fun _ => ⟨rfl, rfl⟩⟩

theorem exists_quiet (net : ChainIdentity) (h : Ahead S lagging.bc peer.bc head chain) (hlock : lagging.pending = none)
    (hvalid : Importable e S chain lagging) :
    ∃ c, ReflTransGen (Connection.Step e S) (.connect net lagging peer) c ∧ c.Quiet := by
  have htip := h.tip_number
  have hidle : handleStatus S net (chainTip head chain) (statusOf S net head) = .idle :=
    Behind.idle h ⟨head, rfl, by omega⟩
  have hgreeted : ReflTransGen (Connection.Step e S) (.connect net lagging peer)
      ⟨⟨net, lagging, true, [.status (statusOf S net (chainTip head chain))]⟩, ⟨net, peer, true, []⟩, false⟩ :=
    .tail (.tail (.single (.lagging rfl (.greet rfl h.current))) (.peer rfl (.idle rfl h.tip hidle)))
      (.peer rfl (.greet rfl h.tip))
  by_cases hbehind : 0 < chain.length
  · obtain ⟨c, hrun, hquiet⟩ := exists_answer net h hlock hvalid hbehind
    exact ⟨c, hgreeted.trans hrun, hquiet⟩
  · have hnone := h.handleStatus_eq net
    rw [if_neg hbehind] at hnone
    exact ⟨_, hgreeted.tail (.lagging rfl (.idle rfl h.current hnone)), rfl, rfl, fun _ => ⟨rfl, rfl⟩⟩

/-- Whichever way the exchange goes, it ends at the head of the peer exactly when one request was
enough: the status asks once, and the answer does not ask again. -/
theorem sync_completes_iff (net : ChainIdentity) (h : Ahead S lagging.bc peer.bc head chain)
    (hlock : lagging.pending = none) (hvalid : Importable e S chain lagging) :
    (∃ c, ReflTransGen (Connection.Step e S) (.connect net lagging peer) c ∧ c.Quiet) ∧
      ∀ c, ReflTransGen (Connection.Step e S) (.connect net lagging peer) c → c.Quiet →
        (c.lagging.node.bc.currentBlock = c.peer.node.bc.currentBlock ↔ chain.length ≤ 100) := by
  refine ⟨exists_quiet net h hlock hvalid, fun c hrun hquiet => ?_⟩
  exact (Syncing.run h hvalid hrun).heads_eq_iff h hquiet

end Exchange

section Sample

def emptyBlock (number : ℕ) : Block :=
  sampleBlock number 0 (if number ≤ 1 then genesisHash else bigToHash ((number - 1) * 2 ^ 64 + 1))

def emptyChain (start length : ℕ) : List Block := (List.range' start length).map emptyBlock

structure Grown (height : ℕ) (n : Node) : Prop where
  lock : n.pending = none
  validators : n.engine.validators = sampleNode.engine.validators
  fresh : n.engine.Fresh Executor.ideal.keccak
  current : n.bc.currentBlock = some (chainTip sampleGenesis (emptyChain 1 height))
  genesis : n.bc.getBlockByHash genesisHash = some sampleGenesis
  canonical : ∀ number, 1 ≤ number → number ≤ height →
    n.bc.getBlockByNumber (UInt64.ofNat number) = some (emptyBlock number)
  new : ∀ number, height < number → number < 2 ^ 64 →
    n.bc.getBlockByHash (sampleSealing.headerHash (emptyBlock number).header) = none
  unset : ∀ number, height < number → number < headNumber.toNat →
    n.bc.db.readCanonicalHash (UInt64.ofNat number) = 0

theorem number_emptyBlock (number : ℕ) : (emptyBlock number).header.number = number := rfl

theorem length_emptyChain (start length : ℕ) : (emptyChain start length).length = length := by
  rw [emptyChain, List.length_map, List.length_range']

theorem emptyChain_succ (start length : ℕ) :
    emptyChain start (length + 1) = emptyBlock start :: emptyChain (start + 1) length := rfl

theorem emptyChain_consecutive {head : Block} {start : ℕ} (h : start = head.header.number + 1) (length : ℕ) :
    (head :: emptyChain start length).IsChain fun parent b => b.header.number = parent.header.number + 1 := by
  induction length generalizing head start with
  | zero => exact List.isChain_singleton head
  | succ length ih =>
    rw [emptyChain_succ]
    refine List.isChain_cons_cons.mpr ⟨(number_emptyBlock start).trans h, ih ?_⟩
    rw [number_emptyBlock]

theorem chainTip_emptyChain_succ (head : Block) (start length : ℕ) :
    chainTip head (emptyChain start (length + 1)) = emptyBlock (start + length) := by
  induction length generalizing head start with
  | zero => rfl
  | succ length ih =>
    rw [emptyChain_succ, chainTip, ih, Nat.add_assoc, Nat.add_comm 1]

theorem chainTip_emptyChain_number (height : ℕ) :
    (chainTip sampleGenesis (emptyChain 1 height)).header.number = height := by
  have hnumber : sampleGenesis.header.number = 0 := sampleNode_onlyGenesis.number
  rw [chainTip_number (emptyChain_consecutive (by rw [hnumber]) height), hnumber, length_emptyChain, Nat.zero_add]

theorem toNat_headerHash_emptyBlock {number : ℕ} (hpos : 0 < number) (hbound : number < 2 ^ 64) :
    (sampleSealing.headerHash (emptyBlock number).header).toNat = number * 2 ^ 64 + 1 := by
  have htime : (emptyBlock number).header.time.toNat = 0 := rfl
  rw [toNat_headerHash_sample, number_emptyBlock, Nat.mod_eq_of_lt hbound, if_neg (fun h => by omega), htime,
    Nat.add_zero]

theorem headerHash_emptyBlock_inj {m n : ℕ} (hm : 0 < m) (hm' : m < 2 ^ 64) (hn : 0 < n) (hn' : n < 2 ^ 64)
    (h : sampleSealing.headerHash (emptyBlock m).header = sampleSealing.headerHash (emptyBlock n).header) :
    m = n := by
  have hnat := congrArg BitVec.toNat h
  rw [toNat_headerHash_emptyBlock hm hm', toNat_headerHash_emptyBlock hn hn'] at hnat
  omega

section Grown

variable {height : ℕ} {n : Node}

theorem grown_sampleNode : Grown 0 sampleNode where
  lock := rfl
  validators := rfl
  fresh := .of_empty rfl
  current := sampleNode_onlyGenesis.current
  genesis := by
    rw [Blockchain.getBlockByHash, sampleNode_onlyGenesis.block, headerHash_sampleGenesis, if_pos rfl]
  canonical number hone hle := by omega
  new number hlt hbound := by
    apply sampleNode_unknown
    rw [number_emptyBlock, Nat.mod_eq_of_lt hbound]
    omega
  unset number hlt hbound := by
    have hhead := headNumber.toNat_lt
    apply sampleNode_onlyGenesis.unset
    · exact ofNat_ne (n := 0) (by omega) (by decide) (by omega)
    · rw [← UInt64.ofNat_toNat (x := headNumber)]
      exact ofNat_ne (by omega) (by omega) (by omega)

theorem Grown.verify (h : Grown height n) (number : ℕ) : ∃ engine,
    n.engine.verify Executor.ideal.keccak sampleSealing (emptyBlock number) = some (.ok (), engine) :=
  ((leadersAgree_of_validators h.fresh (.of_empty rfl) h.validators).accepts sampleSealing _).mpr
    (sampleNode_verify number 0 _)

theorem Grown.added (h : Grown height n) (hheight : height + 1 < 2 ^ 64) (engine : ZeliusEngine) :
    Added sampleSealing n.bc (emptyBlock (height + 1)) (importEmpty n engine (emptyBlock (height + 1))).bc := by
  have hnew : n.bc.db.readBlock (sampleSealing.headerHash (emptyBlock (height + 1)).header) = none :=
    h.new (height + 1) (Nat.lt_succ_self _) hheight
  rw [emptyBlock] at hnew
  obtain ⟨hknown, -⟩ | hadded := importEmpty_cases n engine (height + 1) 0
    (if height + 1 ≤ 1 then genesisHash else bigToHash ((height + 1 - 1) * 2 ^ 64 + 1))
  · rw [hnew] at hknown
    cases hknown
  · exact hadded

theorem Grown.import (h : Grown height n) (hheight : height + 1 < headNumber.toNat) {engine : ZeliusEngine}
    (hverify : n.engine.verify Executor.ideal.keccak sampleSealing (emptyBlock (height + 1)) =
      some (.ok (), engine)) :
    Grown (height + 1) (importEmpty n engine (emptyBlock (height + 1))) := by
  have hhead := headNumber.toNat_lt
  have hadded := h.added (by omega) engine
  have htip := chainTip_emptyChain_number height
  have hnumber := number_emptyBlock (height + 1)
  obtain ⟨hvalidators, hfresh⟩ := h.fresh.verify hverify
  exact
    { lock := h.lock
      validators := hvalidators.trans h.validators
      fresh := hfresh
      current := by
        rw [chainTip_emptyChain_succ, Nat.add_comm 1]
        exact hadded.currentBlock_of_newer h.current (by omega)
      genesis := hadded.readBlock_old h.genesis
      canonical := by
        intro number hone hle
        obtain hlt | rfl := Nat.lt_or_eq_of_le hle
        · exact hadded.getBlockByNumber_below (by omega) (by omega) (h.canonical number hone (by omega))
        · have hself := hadded.getBlockByNumber_new (sampleSealing_ne_zero _) rfl
          rwa [hnumber] at hself
      new := by
        intro number hlt hbound
        rw [Blockchain.getBlockByHash, hadded.block, if_neg]
        · exact h.new number (by omega) hbound
        · intro heq
          have hsame := headerHash_emptyBlock_inj (by omega) hbound (by omega) (by omega) heq
          omega
      unset := by
        intro number hlt hbound
        rw [hadded.other]
        · exact h.unset number (by omega) hbound
        · exact ofNat_ne (by omega) (by omega) (by omega)
        · rw [← UInt64.ofNat_toNat (x := headNumber)]
          exact ofNat_ne (by omega) (by omega) (by omega) }

theorem exists_grown (hheight : height < headNumber.toNat) : ∃ n, Grown height n := by
  induction height with
  | zero => exact ⟨sampleNode, grown_sampleNode⟩
  | succ height ih =>
    obtain ⟨n, hn⟩ := ih (by omega)
    obtain ⟨engine, hverify⟩ := hn.verify (height + 1)
    exact ⟨_, hn.import hheight hverify⟩

theorem Grown.importable (h : Grown height n) {length : ℕ} (hheight : height + length < headNumber.toNat) :
    Importable .ideal sampleSealing (emptyChain (height + 1) length) n := by
  have hhead := headNumber.toNat_lt
  induction length generalizing height n with
  | zero => exact trivial
  | succ length ih =>
    obtain ⟨engine, hverify⟩ := h.verify (height + 1)
    refine ⟨rfl, ⟨rfl, engine, hverify⟩, h.new _ (by omega) (by omega),
      ⟨_, (Executor.ideal.applyBlock_nil _ _ _).mpr rfl⟩, fun engine res hverify happly => ?_⟩
    obtain rfl := (Executor.ideal.applyBlock_nil _ _ _).mp happly
    exact ⟨intermediateRoot_ideal _, ih (h.import (by omega) hverify) (by omega)⟩

theorem Grown.ahead (h : Grown height n) (hheight : height + 1 < headNumber.toNat) :
    Ahead sampleSealing sampleNode.bc n.bc sampleGenesis (emptyChain 1 height) where
  current := sampleNode_onlyGenesis.current
  common := by
    rw [headerHash_sampleGenesis]
    exact h.genesis
  tip := h.current
  consecutive := emptyChain_consecutive (by rw [sampleNode_onlyGenesis.number]) height
  canonical := by
    intro i hi
    rw [length_emptyChain] at hi
    rw [sampleNode_onlyGenesis.number, Nat.zero_add, emptyChain, List.getElem?_map]
    obtain hlt | rfl := Nat.lt_or_eq_of_le hi
    · rw [h.canonical (1 + i) (by omega) (by omega), List.getElem?_range' hlt]
      simp
    · rw [List.getElem?_eq_none (by simp), Blockchain.getBlockByNumber,
        if_pos (h.unset _ (by omega) (by omega))]
      rfl
  bound := by
    have hhead := headNumber.toNat_lt
    rw [sampleNode_onlyGenesis.number, length_emptyChain]
    omega

end Grown

theorem exists_ahead {height : ℕ} (hheight : height + 1 < headNumber.toNat) : ∃ peer : Node,
    Ahead sampleSealing sampleNode.bc peer.bc sampleGenesis (emptyChain 1 height) ∧
      Importable .ideal sampleSealing (emptyChain 1 height) sampleNode := by
  obtain ⟨peer, hpeer⟩ := exists_grown (Nat.lt_of_succ_lt hheight)
  exact ⟨peer, hpeer.ahead hheight, grown_sampleNode.importable (by omega)⟩

theorem hundred_blocks_synced : ∃ (peer : Node) (tip : Block) (c : Connection),
    Node.start .ideal sampleSealing sampleConfig .empty = some sampleNode ∧
      peer.bc.currentBlock = some tip ∧ tip.header.number = 100 ∧
      ReflTransGen (Connection.Step .ideal sampleSealing)
        (.connect (chainIdentity .simulation) sampleNode peer) c ∧ c.Quiet ∧
      c.lagging.node.bc.currentBlock = c.peer.node.bc.currentBlock := by
  obtain ⟨peer, hahead, hvalid⟩ := exists_ahead (show 100 + 1 < _ by decide)
  obtain ⟨⟨c, hrun, hquiet⟩, hall⟩ := sync_completes_iff (chainIdentity .simulation) hahead rfl hvalid
  refine ⟨peer, _, c, start_sampleNode, hahead.tip, chainTip_emptyChain_number 100, hrun, hquiet,
    (hall c hrun hquiet).mpr ?_⟩
  rw [length_emptyChain]

theorem sync_stops_short : ∃ (peer : Node) (tip head : Block) (c : Connection),
    Node.start .ideal sampleSealing sampleConfig .empty = some sampleNode ∧
      Ahead sampleSealing sampleNode.bc peer.bc sampleGenesis (emptyChain 1 101) ∧
      peer.bc.currentBlock = some tip ∧ tip.header.number = 101 ∧
      Importable .ideal sampleSealing (emptyChain 1 101) sampleNode ∧
      ReflTransGen (Connection.Step .ideal sampleSealing)
        (.connect (chainIdentity .simulation) sampleNode peer) c ∧ c.Quiet ∧
      c.lagging.node.bc.currentBlock = some head ∧ head.header.number = 100 ∧
      c.lagging.node.bc.currentBlock ≠ c.peer.node.bc.currentBlock := by
  obtain ⟨peer, hahead, hvalid⟩ := exists_ahead (show 101 + 1 < _ by decide)
  obtain ⟨c, hrun, hquiet⟩ := exists_quiet (chainIdentity .simulation) hahead rfl hvalid
  have hc := Syncing.run hahead hvalid hrun
  refine ⟨peer, _, _, c, start_sampleNode, hahead, hahead.tip, chainTip_emptyChain_number 101, hvalid, hrun, hquiet,
    hc.quiet hquiet, ?_, ?_⟩
  · rw [hahead.taken_number, sampleNode_onlyGenesis.number, length_emptyChain]
    rfl
  · rw [ne_eq, hc.heads_eq_iff hahead hquiet, length_emptyChain]
    decide

end Sample

end Zephyria
