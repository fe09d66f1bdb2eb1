import Zephyria.Transfers

namespace Zephyria

def SameWord (v w : Bytes) : Prop := decodeBalance v = decodeBalance w

theorem SameWord.hash {v w : Bytes} (h : SameWord v w) : decodeHash v = decodeHash w := by
  rw [SameWord, decodeBalance_eq, decodeBalance_eq] at h
  rw [decodeHash_eq, decodeHash_eq]
  exact h

theorem SameWord.nonce {v w : Bytes} (h : SameWord v w) : decodeNonce v = decodeNonce w := by
  rw [SameWord, decodeBalance_eq, decodeBalance_eq] at h
  have hn := congrArg BitVec.toNat h
  rw [BitVec.toNat_ofNat, BitVec.toNat_ofNat] at hn
  rw [decodeNonce_eq, decodeNonce_eq]
  apply UInt64.toNat_inj.mp
  rw [UInt64.toNat_ofNat', UInt64.toNat_ofNat']
  omega

theorem accounts_sameWord (K : Keccak256) {m m' : Bytes → Bytes} (h : ∀ k, SameWord (m k) (m' k)) :
    accounts K m = accounts K m' := by
  unfold accounts
  simp only [Accounts.mk.injEq]
  exact ⟨funext fun a => h _, funext fun a => (h _).nonce, funext fun a => (h _).hash,
    funext fun a => funext fun k => (h _).hash⟩

section Local

variable (K : Keccak256) {ω : Type} (B : Buffer ω Bytes Bytes) {F : Set Bytes} {r : Bytes → Bytes}

theorem accounts_run {α : Type} (p : StateM α) (o : ω) :
    accounts K (B.view r (B.run r p o).2) = accounts K (p.denote (B.view r o)).2 := by
  rw [(B.run_denote r p o).2]

/-- The run keeps to the keys of `F` and sees the answers only as words. -/
abbrev KeepsTo (F : Set Bytes) (r : Bytes → Bytes) {α : Type} (p : StateM α) (o : ω) : Prop :=
  B.Local (fun _ => SameWord) F r p o

theorem keepsTo_getBalance {a : Address} (h : balanceKey K a ∈ F) (o : ω) :
    KeepsTo B F r (getBalance K a) o :=
  B.local_read_map h (fun _ _ hw => hw) o

theorem keepsTo_getNonce {a : Address} (h : nonceKey K a ∈ F) (o : ω) : KeepsTo B F r (getNonce K a) o :=
  B.local_read_map h (fun _ _ hw => hw.nonce) o

theorem keepsTo_getCodeHash {a : Address} (h : codeHashKey K a ∈ F) (o : ω) :
    KeepsTo B F r (getCodeHash K a) o :=
  B.local_read_map h (fun _ _ hw => hw.hash) o

theorem keepsTo_getState {a : Address} {k : Hash} (h : storageKey K a k ∈ F) (o : ω) :
    KeepsTo B F r (getState K a k) o :=
  B.local_read_map h (fun _ _ hw => hw.hash) o

theorem keepsTo_getCode {a : Address} (h : codeHashKey K a ∈ F) (codes : Hash → Option Bytes) (o : ω) :
    KeepsTo B F r (getCode K codes a) o :=
  B.local_bind (keepsTo_getCodeHash K B h o) (B.local_pure _ _)

theorem keepsTo_addBalance {a : Address} (h : balanceKey K a ∈ F) (v : U256) (o : ω) :
    KeepsTo B F r (addBalance K a v) o :=
  B.local_bind (keepsTo_getBalance K B h o) (B.local_bind (B.local_write h _ _) (B.local_pure _ _))

theorem keepsTo_setState {a : Address} {k : Hash} (h : storageKey K a k ∈ F) (v : Hash) (o : ω) :
    KeepsTo B F r (setState K a k v) o :=
  B.local_bind (keepsTo_getState K B h o) (B.local_bind (B.local_write h _ _) (B.local_pure _ _))

theorem keepsTo_cannotTransfer {a : Address} (h : balanceKey K a ∈ F) (v : U256) (o : ω) :
    KeepsTo B F r (cannotTransfer K a v) o := by
  unfold cannotTransfer
  split
  · exact B.local_pure _ _
  · exact B.local_bind (keepsTo_getBalance K B h o) (B.local_pure _ _)

theorem run_cannotTransfer (a : Address) (v : U256) (o : ω) : (B.run r (cannotTransfer K a v) o).2 = o := by
  unfold cannotTransfer
  split <;> rfl

theorem keepsTo_unlessError {α : Type} {err : Option MessageError}
    {next : StateM (Except MessageError α)} {o : ω} (h : KeepsTo B F r next o) :
    KeepsTo B F r (unlessError err next) o := by
  cases err with
  | none => exact h
  | some e => exact B.local_pure _ _

section Contracts

variable (p : SystemParams) (hstaking : ∀ k, storageKey K p.stakingAddr k ∈ F)
  (hvalidator : ∀ k, storageKey K p.validatorAddr k ∈ F)

include hstaking hvalidator

theorem keepsTo_deposit (sender : Address) (value : ℕ) (o : ω) :
    KeepsTo B F r (deposit K p sender value) o := by
  have hset (k v : Hash) (o : ω) := keepsTo_setState K B (r := r) (hvalidator k) v o
  unfold deposit
  apply B.local_bind (keepsTo_setState K B (hstaking _) _ _)
  apply B.local_bind (keepsTo_getState K B (hvalidator _) _)
  split
  · apply B.local_bind (keepsTo_getState K B (hvalidator _) _)
    apply B.local_bind (hset _ _ _)
    apply B.local_bind (hset _ _ _)
    apply B.local_bind (hset _ _ _)
    exact B.local_pure _ _
  · exact B.local_pure _ _

theorem keepsTo_stakingContract (sender : Address) (value : ℕ) (o : ω) :
    KeepsTo B F r (stakingContract K p sender value []) o := by
  unfold stakingContract
  apply B.local_bind
  · split
    · exact keepsTo_deposit K B p hstaking hvalidator sender value o
    · exact B.local_pure _ _
  · rw [if_neg (show ¬([] : Bytes) = unstakePayload by decide)]
    exact B.local_pure _ _

end Contracts

structure Spans (F : Set Bytes) (coinbase sender recipient : Address) : Prop where
  senderNonce : nonceKey K sender ∈ F
  senderBalance : balanceKey K sender ∈ F
  senderCode : codeHashKey K sender ∈ F
  recipientBalance : balanceKey K recipient ∈ F
  recipientCode : codeHashKey K recipient ∈ F
  coinbaseBalance : balanceKey K coinbase ∈ F

variable (I : Interpreter) (ctx : BlockContext) {msg : Message} {recipient : Address}
  (hF : Spans K F ctx.coinbase msg.fromAddr recipient)

include hF

theorem keepsTo_call (hprecompile : isPrecompile recipient = false) {o : ω}
    (hcode : (accounts K (B.view r o)).codeOf ctx.codes recipient = []) (gas : ℕ) :
    KeepsTo B F r (call K I ctx msg recipient gas) o := by
  unfold call
  apply B.local_bind (keepsTo_cannotTransfer K B hF.senderBalance _ _)
  rw [run_cannotTransfer]
  split
  · exact B.local_pure _ _
  · apply B.local_bind (keepsTo_addBalance K B hF.senderBalance _ _)
    apply B.local_bind (keepsTo_addBalance K B hF.recipientBalance _ _)
    rw [hprecompile]
    apply B.local_bind (keepsTo_getCode K B hF.recipientCode _ _)
    have hnone (o : ω) : (B.run r (getCode K ctx.codes recipient) o).1 =
        (accounts K (B.view r o)).codeOf ctx.codes recipient := (B.run_denote r _ o).1
    rw [hnone, accounts_run, accounts_addBalance, accounts_run]
    change KeepsTo B F r (if (accounts K ((addBalance K _ _).denote _).2).codeOf _ _ = [] then _ else _) _
    rw [accounts_addBalance, Accounts.codeOf_setBalance, if_pos hcode]
    exact B.local_pure _ _

theorem keepsTo_transition (hto : msg.toAddr = some recipient)
    (hprecompile : isPrecompile recipient = false) {o : ω}
    (hcode : (accounts K (B.view r o)).codeOf ctx.codes recipient = []) (gas : ℕ) :
    KeepsTo B F r (transition K I ctx msg gas) o := by
  unfold transition
  rw [hto]
  apply B.local_bind (keepsTo_getNonce K B hF.senderNonce _)
  apply B.local_bind (B.local_write hF.senderNonce _ _)
  apply B.local_bind (keepsTo_getCode K B hF.recipientCode _ _)
  apply keepsTo_call K B I ctx hF hprecompile
  have hset := accounts_run K B (r := r) (setNonce K msg.fromAddr
    ((B.run r (getNonce K msg.fromAddr) o).1 + 1)) o
  rw [accounts_setNonce] at hset
  exact (congrArg (fun w => Accounts.codeOf w ctx.codes recipient) hset).trans hcode

theorem keepsTo_settle (gasLeft : ℕ) (o : ω) : KeepsTo B F r (settle K ctx msg gasLeft) o :=
  B.local_bind (keepsTo_addBalance K B hF.senderBalance _ _)
    (B.local_bind (keepsTo_addBalance K B hF.coinbaseBalance _ _) (B.local_pure _ _))

theorem keepsTo_applyMessage (hto : msg.toAddr = some recipient)
    (hprecompile : isPrecompile recipient = false)
    (hcode : (accounts K r).codeOf ctx.codes recipient = []) (gasPool : ℕ) :
    KeepsTo B F r (applyMessage K I ctx gasPool msg) B.fresh := by
  have hview : B.view r B.fresh = r := funext (B.view_fresh r)
  unfold applyMessage
  apply B.local_bind (keepsTo_getNonce K B hF.senderNonce _)
  apply keepsTo_unlessError B
  apply B.local_bind (keepsTo_getCode K B hF.senderCode _ _)
  apply keepsTo_unlessError B
  apply keepsTo_unlessError B
  apply keepsTo_unlessError B
  apply keepsTo_unlessError B
  apply B.local_bind (keepsTo_getBalance K B hF.senderBalance _)
  apply keepsTo_unlessError B
  apply keepsTo_unlessError B
  apply B.local_bind (keepsTo_addBalance K B hF.senderBalance _ _)
  apply keepsTo_unlessError B
  apply keepsTo_unlessError B
  apply B.local_bind (keepsTo_cannotTransfer K B hF.senderBalance _ _)
  apply keepsTo_unlessError B
  apply B.local_bind
  · apply keepsTo_transition K B I ctx hF hto hprecompile
    rw [run_cannotTransfer, accounts_run, accounts_addBalance, Accounts.codeOf_setBalance]
    exact (congrArg (fun m => (accounts K m).codeOf ctx.codes recipient) hview).trans hcode
  · apply B.local_bind (keepsTo_settle K B ctx hF _ _)
    exact B.local_pure _ _

end Local

section Writes

variable (K : Keccak256) {F : Set Bytes}

theorem writes_addBalance {a : Address} (h : balanceKey K a ∈ F) (v : U256) : (addBalance K a v).Writes F :=
  fun _ => ⟨h, trivial⟩

theorem writes_setNonce {a : Address} (h : nonceKey K a ∈ F) (n : UInt64) : (setNonce K a n).Writes F :=
  ⟨h, trivial⟩

theorem writes_setState {a : Address} {slot : Hash} (h : storageKey K a slot ∈ F) (v : Hash) :
    (setState K a slot v).Writes F :=
  fun _ => ⟨h, trivial⟩

theorem writes_getBalance (a : Address) : (getBalance K a).Writes F := fun _ => trivial

theorem writes_getNonce (a : Address) : (getNonce K a).Writes F := fun _ => trivial

theorem writes_getCode (codes : Hash → Option Bytes) (a : Address) : (getCode K codes a).Writes F := fun _ => trivial

theorem writes_getState (a : Address) (slot : Hash) : (getState K a slot).Writes F := fun _ => trivial

theorem writes_cannotTransfer (a : Address) (v : U256) : (cannotTransfer K a v).Writes F := by
  unfold cannotTransfer
  split
  · exact Prog.writes_pure _
  · exact fun _ => trivial

theorem writes_deposit (p : SystemParams) (hstorage : ∀ a slot, storageKey K a slot ∈ F) (sender : Address) (value : ℕ) :
    (deposit K p sender value).Writes F := by
  have hset (a : Address) (slot v : Hash) : (setState K a slot v).Writes F := writes_setState K (hstorage a slot) v
  refine (hset _ _ _).bind fun _ => (writes_getState K _ _).bind fun index => ?_
  split
  · exact (writes_getState K _ _).bind fun _ => (hset _ _ _).bind fun _ => (hset _ _ _).bind fun _ =>
      (hset _ _ _).bind fun _ => Prog.writes_pure _
  · exact Prog.writes_pure _

end Writes

section Confined

variable (K : Keccak256) {ω : Type} {B : Buffer ω Bytes Bytes} {R : Bytes → Bytes → Prop} {F : Set Bytes} {o : ω}
  (I : Interpreter) (ctx : BlockContext) {msg : Message} {recipient : Address}

structure Receives (F : Set Bytes) (coinbase sender recipient : Address) : Prop where
  senderNonce : nonceKey K sender ∈ F
  senderBalance : balanceKey K sender ∈ F
  recipientBalance : balanceKey K recipient ∈ F
  recipientCode : codeHashKey K recipient ∉ F
  coinbaseBalance : balanceKey K coinbase ∈ F

theorem confined_unlessError {α : Type} {err : Option MessageError} {next : StateM (Except MessageError α)}
    (ho : B.Confined F o) (h : B.Always R (fun _ o' => B.Confined F o') next o) :
    B.Always R (fun _ o' => B.Confined F o') (unlessError err next) o := by
  cases err with
  | none => exact h
  | some err => exact ho

variable (hF : Receives K F ctx.coinbase msg.fromAddr recipient) (hprecompile : isPrecompile recipient = false)
  (hcode : ∀ v, R (codeHashKey K recipient) v → codeAt ctx.codes v = [])

include hF hprecompile hcode

theorem confined_call (ho : B.Confined F o) (gas : ℕ) :
    B.Always R (fun _ o' => B.Confined F o') (call K I ctx msg recipient gas) o := by
  refine ho.bind (writes_cannotTransfer K _ _) fun blocked o ho => ?_
  split
  · exact ho
  · refine ho.bind (writes_addBalance K hF.senderBalance _) fun _ o ho => ?_
    refine ho.bind (writes_addBalance K hF.recipientBalance _) fun _ o ho => ?_
    rw [hprecompile]
    intro v hv
    have hbelow : R (codeHashKey K recipient) v := by simpa [ho _ hF.recipientCode] using hv
    change B.Always R _ (if codeAt ctx.codes v = [] then pure _ else I.run ctx msg gas) o
    rw [if_pos (hcode v hbelow)]
    exact ho

theorem confined_transition (hto : msg.toAddr = some recipient) (ho : B.Confined F o) (gas : ℕ) :
    B.Always R (fun _ o' => B.Confined F o') (transition K I ctx msg gas) o := by
  unfold transition
  rw [hto]
  refine ho.bind (writes_getNonce K _) fun _ o ho => ho.bind (writes_setNonce K hF.senderNonce _) fun _ o ho => ?_
  exact ho.bind (writes_getCode K _ _) fun _ o ho => confined_call K I ctx hF hprecompile hcode ho gas

theorem confined_applyMessage (hto : msg.toAddr = some recipient) (ho : B.Confined F o) (gasPool : ℕ) :
    B.Always R (fun _ o' => B.Confined F o') (applyMessage K I ctx gasPool msg) o := by
  refine ho.bind (writes_getNonce K _) fun _ o ho => confined_unlessError ho ?_
  refine ho.bind (writes_getCode K _ _) fun _ o ho => confined_unlessError ho ?_
  refine confined_unlessError ho (confined_unlessError ho (confined_unlessError ho ?_))
  refine ho.bind (writes_getBalance K _) fun _ o ho => confined_unlessError ho (confined_unlessError ho ?_)
  refine ho.bind (writes_addBalance K hF.senderBalance _) fun _ o ho =>
    confined_unlessError ho (confined_unlessError ho ?_)
  refine ho.bind (writes_cannotTransfer K _ _) fun _ o ho => confined_unlessError ho ?_
  rw [B.always_bind]
  apply B.always_mono _ (confined_transition K I ctx hF hprecompile hcode hto ho _)
  intro res o ho
  refine ho.bind ?_ fun _ o ho => ho
  exact (writes_addBalance K hF.senderBalance _).bind fun _ =>
    (writes_addBalance K hF.coinbaseBalance _).bind fun _ => Prog.writes_pure _

end Confined

section Coinbase

variable (K : Keccak256) {ω : Type} (B : Buffer ω Bytes Bytes) {R : Bytes → Bytes → Prop} (I : Interpreter)
  (ctx : BlockContext)

theorem always_addBalance_find (a : Address) (v : U256) (o : ω) :
    B.Always R (fun _ o' => B.find o' (balanceKey K a) ≠ none) (addBalance K a v) o := by
  intro val _
  change B.find (B.write o (balanceKey K a) _) (balanceKey K a) ≠ none
  rw [B.find_write, if_pos rfl]
  simp

theorem always_applyMessage_coinbase (gasPool : ℕ) (msg : Message) (o : ω) :
    B.Always R (fun a o' => (∃ res, a = .ok res) → B.find o' (balanceKey K ctx.coinbase) ≠ none)
      (applyMessage K I ctx gasPool msg) o := by
  have herr (err : MessageError) (o' : ω) : (∃ res : ExecutionResult, Except.error err = .ok res) →
      B.find o' (balanceKey K ctx.coinbase) ≠ none := by
    rintro ⟨res, hres⟩
    cases hres
  apply always_applyMessage K I ctx B herr
  intro _ _ _ _ _ _ _ _ _
  apply B.always_bind_of_forall _
  intro res _
  rw [B.always_bind]
  unfold settle
  apply B.always_bind_of_forall _
  intro _ _
  rw [B.always_bind]
  exact B.always_mono (fun _ _ h _ => h) (always_addBalance_find K B _ _ _)

end Coinbase

def Transaction.written (coinbase : Address) (tx : Transaction) : Set Cell
  | .nonce a => tx.sender = some a
  | .balance a => tx.sender = some a ∨ tx.toAddr = some a ∨ a = coinbase
  | .codeHash _ => False
  | .storage _ _ => True

def Transaction.cells (p : SystemParams) (coinbase : Address) (tx : Transaction) : Set Cell
  | .nonce a => tx.sender = some a
  | .balance a => tx.sender = some a ∨ tx.toAddr = some a ∨ a = coinbase
  | .codeHash a => tx.sender = some a ∨ tx.toAddr = some a
  | .storage _ _ => tx.toAddr = some p.stakingAddr

theorem Transaction.mem_addresses_of_sender {tx : Transaction} {a : Address} (h : tx.sender = some a) :
    a ∈ tx.addresses := by
  simp [Transaction.addresses, h]

theorem Transaction.mem_addresses_of_toAddr {tx : Transaction} {a : Address} (h : tx.toAddr = some a) :
    a ∈ tx.addresses := by
  simp [Transaction.addresses, h]

theorem Transaction.cells_inter {p : SystemParams} {coinbase : Address} {tx tx' : Transaction}
    (h : ¬Conflict tx tx') {c : Cell} (hc : c ∈ tx.cells p coinbase) (hc' : c ∈ tx'.cells p coinbase) :
    c = .balance coinbase := by
  have hshared {a : Address} (ha : tx.sender = some a ∨ tx.toAddr = some a)
      (ha' : tx'.sender = some a ∨ tx'.toAddr = some a) : False :=
    h ⟨a, ha.elim mem_addresses_of_sender mem_addresses_of_toAddr,
      ha'.elim mem_addresses_of_sender mem_addresses_of_toAddr⟩
  cases c with
  | nonce a => exact (hshared (Or.inl hc) (Or.inl hc')).elim
  | codeHash a => exact (hshared hc hc').elim
  | storage a k => exact (hshared (Or.inr hc) (Or.inr hc')).elim
  | balance a =>
    by_cases ha : a = coinbase
    · rw [ha]
    · have hown {tx : Transaction} (hc : Cell.balance a ∈ tx.cells p coinbase) :
          tx.sender = some a ∨ tx.toAddr = some a := by
        rcases hc with hs | ht | hcb
        · exact Or.inl hs
        · exact Or.inr ht
        · exact absurd hcb ha
      exact (hshared (hown hc) (hown hc')).elim

namespace Executor

variable (e : Executor) (ctx : BlockContext)

def footprint (tx : Transaction) : Set Bytes :=
  Cell.key e.keccak '' tx.cells e.params ctx.coinbase

theorem footprint_inter {tx tx' : Transaction} (h : ¬Conflict tx tx') {k : Bytes}
    (hk : k ∈ e.footprint ctx tx) (hk' : k ∈ e.footprint ctx tx') :
    k = balanceKey e.keccak ctx.coinbase := by
  obtain ⟨c, hc, rfl⟩ := hk
  obtain ⟨c', hc', he⟩ := hk'
  obtain rfl := Cell.key_injective e.keccak he
  rw [Transaction.cells_inter h hc hc']
  rfl

variable {ω : Type} (B : Buffer ω Bytes Bytes) {r : Bytes → Bytes} {tx : Transaction} {recipient : Address}

theorem keepsTo_executeTransaction (ht : IsTransfer ctx (accounts e.keccak r) tx recipient) :
    KeepsTo B (e.footprint ctx tx) r (e.executeTransaction ctx tx) B.fresh := by
  have hcell {c : Cell} (hc : c ∈ tx.cells e.params ctx.coinbase) :
      c.key e.keccak ∈ e.footprint ctx tx := ⟨c, hc, rfl⟩
  unfold executeTransaction
  split
  · exact B.local_pure _ _
  · split
    · exact B.local_pure _ _
    next msg hmsg =>
      obtain ⟨hsender, hto, -⟩ := transactionToMessage_fields hmsg
      have hspans : Spans e.keccak (e.footprint ctx tx) ctx.coinbase msg.fromAddr recipient :=
        { senderNonce := hcell (c := .nonce _) hsender
          senderBalance := hcell (c := .balance _) (Or.inl hsender)
          senderCode := hcell (c := .codeHash _) (Or.inl hsender)
          recipientBalance := hcell (c := .balance _) (Or.inr (Or.inl ht.toAddr))
          recipientCode := hcell (c := .codeHash _) (Or.inr ht.toAddr)
          coinbaseBalance := hcell (c := .balance _) (Or.inr (Or.inr rfl)) }
      apply B.local_bind (keepsTo_applyMessage e.keccak B e.interpreter ctx hspans
        (hto.trans ht.toAddr) ht.precompile ht.code _)
      split
      · exact B.local_pure _ _
      · refine B.local_bind ?_ (B.local_pure _ _)
        rw [ht.data, processSystemContracts, hto]
        apply B.local_bind
        · split
          next hstaking =>
            exact keepsTo_stakingContract e.keccak B e.params (fun k => hcell (c := .storage _ k) hstaking)
              (fun k => hcell (c := .storage _ k) hstaking) _ _ _
          next => exact B.local_pure _ _
        · split
          · rw [distributeReward_nil]
            exact B.local_pure _ _
          · exact B.local_pure _ _

def writtenKeys (tx : Transaction) : Set Bytes := Cell.key e.keccak '' tx.written ctx.coinbase

theorem mem_writtenKeys {tx : Transaction} {c : Cell} :
    c.key e.keccak ∈ e.writtenKeys ctx tx ↔ c ∈ tx.written ctx.coinbase :=
  Function.Injective.mem_set_image fun _ _ => Cell.key_injective e.keccak

theorem confined_executeTransaction {R : Bytes → Bytes → Prop} (hto : tx.toAddr = some recipient)
    (hdata : tx.data = []) (hprecompile : isPrecompile recipient = false)
    (hcode : ∀ v, R (codeHashKey e.keccak recipient) v → codeAt ctx.codes v = []) :
    B.Always R (fun _ o => B.Confined (e.writtenKeys ctx tx) o) (e.executeTransaction ctx tx) B.fresh := by
  have hcell {c : Cell} (hc : c ∈ tx.written ctx.coinbase) : c.key e.keccak ∈ e.writtenKeys ctx tx :=
    (e.mem_writtenKeys ctx).mpr hc
  refine e.always_executeTransaction ctx B B.confined_fresh fun _ msg hmsg => ?_
  obtain ⟨hsender, htoAddr, -⟩ := transactionToMessage_fields hmsg
  have hF : Receives e.keccak (e.writtenKeys ctx tx) ctx.coinbase msg.fromAddr recipient :=
    { senderNonce := hcell (c := .nonce _) hsender
      senderBalance := hcell (c := .balance _) (Or.inl hsender)
      recipientBalance := hcell (c := .balance _) (Or.inr (Or.inl hto))
      recipientCode := fun h => (e.mem_writtenKeys ctx (c := .codeHash _)).mp h
      coinbaseBalance := hcell (c := .balance _) (Or.inr (Or.inr rfl)) }
  refine ⟨_, confined_applyMessage e.keccak e.interpreter ctx hF hprecompile hcode (htoAddr.trans hto)
    B.confined_fresh _, fun _ _ ho => ho, fun res o ho => ho.writes (Prog.Writes.bind ?_ fun _ => ?_)⟩
  · split
    · refine Prog.Writes.bind ?_ fun _ => ?_
      · split
        · exact writes_deposit e.keccak e.params (fun a slot => hcell (c := .storage a slot) trivial) _ _
        · exact Prog.writes_pure _
      · rw [hdata, if_neg (by decide)]
        exact Prog.writes_pure _
    · exact Prog.writes_pure _
  · split
    · rw [hdata, distributeReward_nil]
      exact Prog.writes_pure _
    · exact Prog.writes_pure _

theorem find_coinbase_of_commits (hc : Commits (B.run r (e.executeTransaction ctx tx) B.fresh).1) :
    B.find (B.run r (e.executeTransaction ctx tx) B.fresh).2 (balanceKey e.keccak ctx.coinbase) ≠
      none := by
  refine B.always_run (R := fun k v => v = r k) (Q := fun a o => Commits a →
    B.find o (balanceKey e.keccak ctx.coinbase) ≠ none) r (fun _ => rfl) ?_ hc
  refine e.always_executeTransaction ctx B (fun h => h.elim) fun _ msg _ =>
    ⟨_, always_applyMessage_coinbase e.keccak B e.interpreter ctx _ msg _, ?_, ?_⟩
  · exact fun err _ _ h => absurd h (not_commits_error tx err)
  · exact fun res _ hres => B.always_mono (fun _ _ h _ => h) (B.always_find_ne_none _ (hres ⟨res, rfl⟩))

end Executor

end Zephyria
