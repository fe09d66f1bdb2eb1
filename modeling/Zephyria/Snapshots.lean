import Zephyria.Codes
import Zephyria.OverlayRefinement
import Zephyria.Transfers

namespace Zephyria

structure EvmState where
  state : StateDB
  transientStorage : Table Address (Table Hash Hash)

namespace EvmState

def getTransientState (s : EvmState) (addr : Address) (key : Hash) : Hash :=
  match s.transientStorage.lookup addr with
  | some m => (m.lookup key).getD 0
  | none => 0

def setTransientState (s : EvmState) (addr : Address) (key value : Hash) : EvmState :=
  { s with transientStorage :=
      s.transientStorage.insert addr (((s.transientStorage.lookup addr).getD ∅).insert key value) }

def snapshot (_ : EvmState) : ℕ := 0

def revertToSnapshot (s : EvmState) (_ : ℕ) : EvmState := s

end EvmState

inductive Change where
  | write (x : Write)
  | transientWrite (a : Address) (k v : Hash)
  | snapshot
  | revert (revid : ℕ)

section Snapshots

variable (K : Keccak256) (db : Database)

def EvmState.change (s : EvmState) : Change → EvmState
  | .write x => { s with state := applyWrite K s.state x }
  | .transientWrite a k v => s.setTransientState a k v
  | .snapshot => s
  | .revert revid => s.revertToSnapshot revid

def EvmState.changeAll (s : EvmState) (cs : List Change) : EvmState := cs.foldl (EvmState.change K) s

structure SameReadings (s s' : EvmState) : Prop where
  cell : ∀ f, readCell K s'.state f = readCell K s.state f
  code : ∀ a, (s'.state.getCode K db a).1 = (s.state.getCode K db a).1
  transientStorage : ∀ a k, s'.getTransientState a k = s.getTransientState a k

def Restores (s : EvmState) (cs : List Change) : Prop :=
  SameReadings K db s ((s.changeAll K cs).revertToSnapshot s.snapshot)

def Write.cell : Write → Cell
  | .balance a _ => .balance a
  | .nonce a _ => .nonce a
  | .state a k _ => .storage a k
  | .code a _ => .codeHash a

def Write.answer : Write → Answer
  | .balance _ v => .word v
  | .nonce _ n => .nonce (storedNonce n)
  | .state _ _ v => .word v
  | .code _ bs => .word (keccak256Hash K bs)

def Change.setsCell (f : Cell) : Change → Option Answer
  | .write x => if f = x.cell then some (x.answer K) else none
  | _ => none

def Change.setsCode (hash : Hash) : Change → Option Bytes
  | .write (.code _ bs) => if hash = keccak256Hash K bs then some bs else none
  | _ => none

def Change.setsTransient (a : Address) (k : Hash) : Change → Option Hash
  | .transientWrite a' k' v => if a = a' ∧ k = k' then some v else none
  | _ => none

def CellsUndone (s : EvmState) (cs : List Change) : Prop :=
  ∀ f answer, lastSet (Change.setsCell K f) cs = some answer → answer = readCell K s.state f

structure Undone (s : EvmState) (cs : List Change) : Prop where
  cell : CellsUndone K s cs
  code : ∀ a bs, (StateDB.exec (getCodeHash K a) s.state).1 ≠ emptyCodeHash →
    lastSet (Change.setsCode K (StateDB.exec (getCodeHash K a) s.state).1) cs = some bs →
    bs = (s.state.getCode K db a).1
  transientStorage : ∀ a k v, lastSet (Change.setsTransient a k) cs = some v → v = s.getTransientState a k

def finishTransaction (p : SystemParams) (ctx : BlockContext) (msg : Message) (data : Bytes) (gasLeft : ℕ)
    (s : StateDB) : StateDB :=
  let s := (StateDB.exec (settle K ctx msg gasLeft) s).2
  let s := (StateDB.exec (processSystemContracts K p msg data) s).2
  s.merge

def executed (I : Interpreter) (ctx : BlockContext) (msg : Message) (s : StateDB) : CallResult × StateDB :=
  StateDB.exec (transition K I ctx msg (msg.gasLimit.toNat - (intrinsicGas msg).getD 0))
    (StateDB.exec (subBalance K msg.fromAddr (BitVec.ofNat 256 (msg.gasLimit.toNat * msg.gasPrice))) s).2

def FailedAtomic (p : SystemParams) (ctx : BlockContext) (msg : Message) (data : Bytes) (gasLeft : ℕ)
    (s : EvmState) (cs : List Change) : Prop :=
  accounts K (finishTransaction K p ctx msg data gasLeft
      ((s.changeAll K cs).revertToSnapshot s.snapshot).state).getVerkleValue =
    accounts K (finishTransaction K p ctx msg data gasLeft s.state).getVerkleValue

theorem cell_setBalance (w : Accounts) (a : Address) (v : U256) (f : Cell) :
    (w.setBalance a v).cell f = if f = .balance a then .word v else w.cell f := by
  cases f with
  | balance b =>
    by_cases h : b = a <;> simp [Accounts.cell, Accounts.setBalance, h]
  | _ => rfl

theorem cell_setNonce (w : Accounts) (a : Address) (n : UInt64) (f : Cell) :
    (w.setNonce a n).cell f = if f = .nonce a then .nonce n else w.cell f := by
  cases f with
  | nonce b =>
    by_cases h : b = a <;> simp [Accounts.cell, Accounts.setNonce, h]
  | _ => rfl

theorem cell_setCodeHash (w : Accounts) (a : Address) (v : Hash) (f : Cell) :
    (w.setCodeHash a v).cell f = if f = .codeHash a then .word v else w.cell f := by
  cases f with
  | codeHash b =>
    by_cases h : b = a <;> simp [Accounts.cell, Accounts.setCodeHash, h]
  | _ => rfl

theorem cell_setState (w : Accounts) (a : Address) (k v : Hash) (f : Cell) :
    (w.setState a k v).cell f = if f = .storage a k then .word v else w.cell f := by
  cases f with
  | storage b l =>
    by_cases h : b = a
    · by_cases hl : l = k <;> simp [Accounts.cell, Accounts.setState, h, hl]
    · simp [Accounts.cell, Accounts.setState, h]
  | _ => rfl

theorem cell_applyWrite (s : StateDB) (x : Write) (f : Cell) :
    (accounts K (applyWrite K s x).getVerkleValue).cell f =
      if f = x.cell then x.answer K else (accounts K s.getVerkleValue).cell f := by
  rw [accounts_applyWrite]
  cases x with
  | balance a v => exact cell_setBalance _ a v f
  | nonce a n => exact cell_setNonce _ a (storedNonce n) f
  | state a k v => exact cell_setState _ a k v f
  | code a bs => exact cell_setCodeHash _ a (keccak256Hash K bs) f

theorem readCell_changeAll (s : EvmState) (cs : List Change) (f : Cell) :
    readCell K (s.changeAll K cs).state f =
      (lastSet (Change.setsCell K f) cs).getD (readCell K s.state f) := by
  apply observe_foldl fun s : EvmState => readCell K s.state f
  intro s c
  cases c with
  | write x =>
    rw [readCell_eq, readCell_eq, EvmState.change, cell_applyWrite, Change.setsCell]
    split <;> rfl
  | _ => rfl

def codeUnder (hash : Hash) (s : EvmState) : Bytes := ((s.state.own.code.lookup hash).or (db.code hash)).getD []

theorem codeUnder_changeAll (s : EvmState) (cs : List Change) (hash : Hash) :
    codeUnder db hash (s.changeAll K cs) = (lastSet (Change.setsCode K hash) cs).getD (codeUnder db hash s) := by
  apply observe_foldl
  intro s c
  cases c with
  | write x =>
    rw [codeUnder, EvmState.change, applyWrite_eq, own_addCode, own_setVerkleValue]
    cases x with
    | code a bs =>
      change (((s.state.own.code.insert (keccak256Hash K bs) bs).lookup hash).or _).getD [] = _
      rw [lookup_insert_ite, Change.setsCode]
      split <;> rfl
    | _ => rfl
  | _ => rfl

theorem getTransientState_set (s : EvmState) (a' : Address) (k' v : Hash) (a : Address) (k : Hash) :
    (s.setTransientState a' k' v).getTransientState a k =
      if a = a' ∧ k = k' then v else s.getTransientState a k := by
  rw [EvmState.getTransientState, EvmState.setTransientState, lookup_insert_ite]
  by_cases ha : a = a'
  · subst ha
    rw [if_pos rfl]
    dsimp only
    rw [lookup_insert_ite]
    by_cases hk : k = k'
    · rw [if_pos hk, if_pos ⟨rfl, hk⟩]
      rfl
    · rw [if_neg hk, if_neg fun h => hk h.2, EvmState.getTransientState]
      cases s.transientStorage.lookup a <;> rfl
  · rw [if_neg ha, if_neg fun h => ha h.1]
    rfl

theorem getTransientState_changeAll (s : EvmState) (cs : List Change) (a : Address) (k : Hash) :
    (s.changeAll K cs).getTransientState a k =
      (lastSet (Change.setsTransient a k) cs).getD (s.getTransientState a k) := by
  apply observe_foldl fun s : EvmState => s.getTransientState a k
  intro s c
  cases c with
  | transientWrite a' k' v =>
    rw [EvmState.change, getTransientState_set, Change.setsTransient]
    split <;> rfl
  | _ => rfl

theorem getCode_eq_codeUnder (s : EvmState) (a : Address) : (s.state.getCode K db a).1 =
    if (StateDB.exec (getCodeHash K a) s.state).1 = emptyCodeHash then []
    else codeUnder db (StateDB.exec (getCodeHash K a) s.state).1 s := by
  rw [getCode_fst, (StateDB.exec_denote (getCodeHash K a) s.state).1]
  rfl

theorem getD_eq_iff {α : Type} (o : Option α) (d : α) : o.getD d = d ↔ ∀ v, o = some v → v = d := by
  cases o <;> simp

theorem cells_restored_iff (s : EvmState) (cs : List Change) :
    (∀ f, readCell K (s.changeAll K cs).state f = readCell K s.state f) ↔ CellsUndone K s cs := by
  apply forall_congr'
  intro f
  rw [readCell_changeAll, getD_eq_iff]

theorem restores_iff (s : EvmState) (cs : List Change) : Restores K db s cs ↔ Undone K db s cs := by
  have hcells := cells_restored_iff K s cs
  -- With the code hashes restored, an account's code is what lies under its old hash.
  have hcode (h : ∀ f, readCell K (s.changeAll K cs).state f = readCell K s.state f) (a : Address) :
      ((s.changeAll K cs).state.getCode K db a).1 =
        if (StateDB.exec (getCodeHash K a) s.state).1 = emptyCodeHash then []
        else (lastSet (Change.setsCode K (StateDB.exec (getCodeHash K a) s.state).1) cs).getD
          (s.state.getCode K db a).1 := by
    have hhash := Answer.word.inj (h (.codeHash a))
    rw [getCode_eq_codeUnder, hhash, getCode_eq_codeUnder, codeUnder_changeAll]
    split <;> rfl
  constructor
  · intro h
    refine ⟨hcells.mp h.cell, fun a bs hne hlast => ?_, fun a k => ?_⟩
    · have hsame := h.code a
      change ((s.changeAll K cs).state.getCode K db a).1 = _ at hsame
      rw [hcode h.cell, if_neg hne, hlast] at hsame
      exact hsame
    · rw [← getD_eq_iff, ← getTransientState_changeAll]
      exact h.transientStorage a k
  · intro h
    refine ⟨hcells.mpr h.cell, fun a => ?_, fun a k => ?_⟩
    · change ((s.changeAll K cs).state.getCode K db a).1 = _
      rw [hcode (hcells.mpr h.cell)]
      split
      next hempty => rw [getCode_eq_codeUnder, if_pos hempty]
      next hne => exact (getD_eq_iff _ _).mpr fun bs hlast => h.code a bs hne hlast
    · change (s.changeAll K cs).getTransientState a k = _
      rw [getTransientState_changeAll, getD_eq_iff]
      exact h.transientStorage a k

theorem Accounts.credit_inj {w w' : Accounts} {a : Address} {v : U256} :
    w.credit a v = w'.credit a v ↔ w = w' := by
  refine ⟨fun h => ?_, fun h => by rw [h]⟩
  have hbalance := congrArg Accounts.balance h
  have hnonce := congrArg Accounts.nonce h
  have hcodeHash := congrArg Accounts.codeHash h
  have hstorage := congrArg Accounts.storage h
  rw [Accounts.balance_credit, Accounts.balance_credit] at hbalance
  apply Accounts.ext
  · funext b
    have hb := congrFun hbalance b
    by_cases hba : b = a
    · subst hba
      rw [Function.update_self, Function.update_self] at hb
      exact add_right_cancel hb
    · rwa [Function.update_of_ne hba, Function.update_of_ne hba] at hb
  · exact hnonce
  · exact hcodeHash
  · exact hstorage

theorem cell_eq_iff {w w' : Accounts} : (∀ f, w.cell f = w'.cell f) ↔ w = w' := by
  refine ⟨fun h => ?_, fun h f => by rw [h]⟩
  apply Accounts.ext
  · exact funext fun a => Answer.word.inj (h (.balance a))
  · exact funext fun a => Answer.nonce.inj (h (.nonce a))
  · exact funext fun a => Answer.word.inj (h (.codeHash a))
  · exact funext fun a => funext fun k => Answer.word.inj (h (.storage a k))

theorem getVerkleValue_merge_eq (s : StateDB) : s.merge.getVerkleValue = s.getVerkleValue := by
  cases s with
  | base tree own => rfl
  | overlay parent own => exact getVerkleValue_merge_overlay parent own

theorem accounts_finishTransaction (p : SystemParams) (ctx : BlockContext) {msg : Message} (data : Bytes)
    (gasLeft : ℕ) (hstaking : msg.toAddr ≠ some p.stakingAddr) (hreward : msg.toAddr ≠ some p.rewardAddr)
    (s : StateDB) : accounts K (finishTransaction K p ctx msg data gasLeft s).getVerkleValue =
      ((accounts K s.getVerkleValue).credit msg.fromAddr (BitVec.ofNat 256 (gasLeft * msg.gasPrice))).credit
        ctx.coinbase (BitVec.ofNat 256 ((msg.gasLimit.toNat - gasLeft) * (msg.gasPrice - ctx.baseFee.getD 0))) := by
  have hsystem : processSystemContracts K p msg data = pure () := by
    rw [processSystemContracts, if_neg hstaking, if_neg hreward]
    rfl
  rw [← accounts_settle, finishTransaction, hsystem, getVerkleValue_merge_eq]
  exact congrArg (accounts K) (StateDB.exec_denote (settle K ctx msg gasLeft) s).2

theorem failedAtomic_iff (p : SystemParams) (ctx : BlockContext) {msg : Message} (data : Bytes)
    (gasLeft : ℕ) (hstaking : msg.toAddr ≠ some p.stakingAddr) (hreward : msg.toAddr ≠ some p.rewardAddr)
    (s : EvmState) (cs : List Change) :
    FailedAtomic K p ctx msg data gasLeft s cs ↔ CellsUndone K s cs := by
  rw [FailedAtomic, accounts_finishTransaction K p ctx data gasLeft hstaking hreward,
    accounts_finishTransaction K p ctx data gasLeft hstaking hreward, Accounts.credit_inj,
    Accounts.credit_inj, ← cells_restored_iff, ← cell_eq_iff]
  simp only [readCell_eq]
  rfl

def OnSuccess {α : Type} (p : StateM (Except MessageError α)) (s : StateDB) (Q : StateDB → Prop) : Prop :=
  ∀ res, (StateDB.exec p s).1 = .ok res → Q (StateDB.exec p s).2

theorem onSuccess_bind {α β : Type} {p : StateM β} {f : β → StateM (Except MessageError α)} {s : StateDB}
    {Q : StateDB → Prop} (h : OnSuccess (f (StateDB.exec p s).1) (StateDB.exec p s).2 Q) :
    OnSuccess (p >>= f) s Q := by
  unfold OnSuccess
  rw [StateDB.exec_bind]
  exact h

theorem onSuccess_unlessError {α : Type} {err : Option MessageError}
    {next : StateM (Except MessageError α)} {s : StateDB} {Q : StateDB → Prop} (h : OnSuccess next s Q) :
    OnSuccess (unlessError err next) s Q := by
  cases err with
  | none => exact h
  | some e =>
    intro res hres
    cases hres

theorem exec_cannotTransfer (a : Address) (v : U256) (s : StateDB) :
    (StateDB.exec (cannotTransfer K a v) s).2 = s := by
  unfold cannotTransfer
  split <;> rfl

theorem onSuccess_applyMessage (I : Interpreter) (ctx : BlockContext) (gasPool : ℕ) (msg : Message)
    (s : StateDB) : OnSuccess (applyMessage K I ctx gasPool msg) s fun s' =>
      s' = (StateDB.exec (settle K ctx msg (executed K I ctx msg s).1.gasLeft) (executed K I ctx msg s).2).2 := by
  unfold applyMessage
  apply onSuccess_bind
  apply onSuccess_unlessError
  apply onSuccess_bind
  apply onSuccess_unlessError
  apply onSuccess_unlessError
  apply onSuccess_unlessError
  apply onSuccess_unlessError
  apply onSuccess_bind
  apply onSuccess_unlessError
  apply onSuccess_unlessError
  apply onSuccess_bind
  apply onSuccess_unlessError
  apply onSuccess_unlessError
  apply onSuccess_bind
  apply onSuccess_unlessError
  rw [exec_cannotTransfer]
  apply onSuccess_bind
  apply onSuccess_bind
  intro res hres
  rfl

theorem exec_executeTransaction (e : Executor) (ctx : BlockContext) {tx : Transaction} {s : StateDB}
    (h : Executor.Commits (StateDB.exec (e.executeTransaction ctx tx) s).1) :
    ∃ msg, transactionToMessage tx ctx.baseFee = some msg ∧
      (StateDB.exec (e.executeTransaction ctx tx) s).2.merge =
        finishTransaction e.keccak e.params ctx msg tx.data
          (executed e.keccak e.interpreter ctx msg s).1.gasLeft (executed e.keccak e.interpreter ctx msg s).2 := by
  unfold Executor.executeTransaction at h ⊢
  split at h
  next => exact h.elim
  next hsize =>
    rw [if_neg hsize]
    cases hmsg : transactionToMessage tx ctx.baseFee with
    | none =>
      rw [hmsg] at h
      exact h.elim
    | some msg =>
      rw [hmsg] at h
      dsimp only at h ⊢
      rw [StateDB.exec_bind] at h ⊢
      have hsuccess := onSuccess_applyMessage e.keccak e.interpreter ctx ctx.gasLimit.toNat msg s
      cases hres : (StateDB.exec (applyMessage e.keccak e.interpreter ctx ctx.gasLimit.toNat msg) s).1 with
      | error err =>
        rw [hres] at h
        exact absurd h (Executor.not_commits_error tx err)
      | ok res =>
        refine ⟨msg, rfl, ?_⟩
        dsimp only
        rw [StateDB.exec_bind, hsuccess res hres]
        rfl

/-- Reverting restores every reading, and a failed transaction leaves only its gas payment behind,
exactly when the writes since the snapshot had undone themselves. -/
theorem revert_restores_iff (s : EvmState) (cs : List Change) :
    (Restores K db s cs ↔ Undone K db s cs) ∧
      ∀ (p : SystemParams) (ctx : BlockContext) (msg : Message) (data : Bytes) (gasLeft : ℕ),
        msg.toAddr ≠ some p.stakingAddr → msg.toAddr ≠ some p.rewardAddr →
          (FailedAtomic K p ctx msg data gasLeft s cs ↔ CellsUndone K s cs) := by
  refine ⟨restores_iff K db s cs, fun p ctx msg data gasLeft hstaking hreward => ?_⟩
  exact failedAtomic_iff K p ctx data gasLeft hstaking hreward s cs

end Snapshots

section Sample

def emptyEvmState : EvmState := ⟨(StateDB.new .empty).newOverlay, ∅⟩

def sampleMessage : Message where
  fromAddr := 7
  toAddr := none
  nonce := 0
  gasLimit := 53000
  value := 0
  gasPrice := 1
  gasFeeCap := 1
  gasTipCap := 1
  data := []
  accessList := []
  blobHashes := none

def rewrittenBalance : List Change :=
  [.write (.balance 7 5), .snapshot, .write (.balance 7 0), .revert 0]

theorem cellsUndone_rewrittenBalance : CellsUndone .ideal emptyEvmState rewrittenBalance := by
  intro f answer h
  by_cases hf : f = .balance 7
  · subst hf
    exact (Option.some.inj h).symm
  · have hnone : lastSet (Change.setsCell .ideal f) rewrittenBalance = none := by
      rw [lastSet, List.findSome?_eq_none_iff]
      intro c hc
      simp only [rewrittenBalance, List.mem_reverse, List.mem_cons, List.not_mem_nil, or_false] at hc
      rcases hc with rfl | rfl | rfl | rfl
      · exact if_neg hf
      · rfl
      · exact if_neg hf
      · rfl
    rw [hnone] at h
    cases h

theorem rewritten_balance_restored : Restores .ideal .empty emptyEvmState rewrittenBalance ∧
    FailedAtomic .ideal systemParams sampleContext sampleMessage [] 0 emptyEvmState rewrittenBalance := by
  obtain ⟨hrestores, hfailed⟩ := revert_restores_iff .ideal .empty emptyEvmState rewrittenBalance
  constructor
  · exact hrestores.mpr ⟨cellsUndone_rewrittenBalance, fun _ _ _ h => (nomatch h), fun _ _ _ h => (nomatch h)⟩
  · exact (hfailed systemParams sampleContext sampleMessage [] 0 (nofun) (nofun)).mpr cellsUndone_rewrittenBalance

theorem revert_keeps_writes : ¬Restores .ideal .empty emptyEvmState [.write (.balance 7 5)] ∧
    ¬FailedAtomic .ideal systemParams sampleContext sampleMessage [] 0 emptyEvmState
      [.write (.balance 7 5)] := by
  constructor
  · intro h
    have hread := h.cell (.balance 7)
    revert hread
    decide
  · intro h
    have hbalance := congrFun (congrArg Accounts.balance h) 7
    revert hbalance
    decide +kernel

end Sample

end Zephyria
