import Zephyria.LiveReads

namespace Zephyria

def Write.SmallNonce : Write → Prop
  | .nonce _ n => n.toNat < 2 ^ 63
  | _ => True

inductive Access where
  | read (f : Cell)
  | write (x : Write) (small : x.SmallNonce)

inductive Answer where
  | word (v : BitVec 256)
  | nonce (n : UInt64)
  | done
deriving DecidableEq

def StateDB.lower : StateDB → List StateDB
  | .base _ _ => []
  | .overlay parent _ => parent :: parent.lower

/-- `Merge` with the dirty map and the code table handed out in the given orders. -/
def StateDB.mergeIn (s : StateDB) (dirty : List (Σ _ : Bytes, Bytes)) (code : List (Σ _ : Hash, Bytes)) :
    StateDB :=
  match s with
  | .base tree own => .base tree own
  | .overlay parent _ => (parent.setAll dirty).addCode code

section Access

variable (K : Keccak256)

def readCell (s : StateDB) : Cell → Answer
  | .nonce a => .nonce (StateDB.exec (getNonce K a) s).1
  | .balance a => .word (StateDB.exec (getBalance K a) s).1
  | .codeHash a => .word (StateDB.exec (getCodeHash K a) s).1
  | .storage a k => .word (StateDB.exec (getState K a k) s).1

def access (s : StateDB) : Access → Answer × StateDB
  | .read f => (readCell K s f, s)
  | .write x _ => (.done, applyWrite K s x)

def accessAll : List Access → StateDB → List Answer × StateDB
  | [], s => ([], s)
  | x :: xs, s =>
    let (answer, s) := access K s x
    let (answers, s) := accessAll xs s
    (answer :: answers, s)

def Accounts.cell (w : Accounts) : Cell → Answer
  | .nonce a => .nonce (w.nonce a)
  | .balance a => .word (w.balance a)
  | .codeHash a => .word (w.codeHash a)
  | .storage a k => .word (w.storage a k)

def Accounts.access (w : Accounts) : Access → Answer × Accounts
  | .read f => (w.cell f, w)
  | .write x _ => (.done, recordWrite K w x)

def Accounts.accessAll : List Access → Accounts → List Answer × Accounts
  | [], w => ([], w)
  | x :: xs, w =>
    let (answer, w) := w.access K x
    let (answers, w) := accessAll xs w
    (answer :: answers, w)

theorem readCell_eq (s : StateDB) (f : Cell) : readCell K s f = (accounts K s.getVerkleValue).cell f := by
  cases f <;> simp only [readCell, Accounts.cell, StateDB.exec_denote, denote_getNonce, denote_getBalance,
    denote_getCodeHash, denote_getState]

theorem Write.stored_eq {x : Write} (h : x.SmallNonce) : x.stored = x := by
  cases x with
  | nonce a n => exact congrArg (Write.nonce a) (storedNonce_eq_iff.mpr h.le)
  | balance | state | code => rfl

theorem access_eq (s : StateDB) (x : Access) :
    (access K s x).1 = ((accounts K s.getVerkleValue).access K x).1 ∧
      accounts K (access K s x).2.getVerkleValue = ((accounts K s.getVerkleValue).access K x).2 := by
  cases x with
  | read f => exact ⟨readCell_eq K s f, rfl⟩
  | write x small =>
    refine ⟨rfl, ?_⟩
    change accounts K (applyWrite K s x).getVerkleValue = recordWrite K (accounts K s.getVerkleValue) x
    rw [accounts_applyWrite, Write.stored_eq small]

theorem accessAll_eq (xs : List Access) (s : StateDB) :
    (accessAll K xs s).1 = (Accounts.accessAll K xs (accounts K s.getVerkleValue)).1 ∧
      accounts K (accessAll K xs s).2.getVerkleValue =
        (Accounts.accessAll K xs (accounts K s.getVerkleValue)).2 := by
  induction xs generalizing s with
  | nil => exact ⟨rfl, rfl⟩
  | cons x xs ih =>
    obtain ⟨hanswer, hstate⟩ := access_eq K s x
    obtain ⟨hanswers, hfinal⟩ := ih (access K s x).2
    rw [hstate] at hanswers hfinal
    constructor
    · exact congrArg₂ List.cons hanswer hanswers
    · exact hfinal

theorem access_overlay (parent : StateDB) (own : Own) (x : Access) :
    ∃ own', (access K (.overlay parent own) x).2 = .overlay parent own' := by
  cases x with
  | read f => exact ⟨own, rfl⟩
  | write x small => exact applyWrite_overlay K parent own x

theorem accessAll_overlay (parent : StateDB) (own : Own) (xs : List Access) :
    ∃ own', (accessAll K xs (.overlay parent own)).2 = .overlay parent own' := by
  induction xs generalizing own with
  | nil => exact ⟨own, rfl⟩
  | cons x xs ih =>
    obtain ⟨own', h⟩ := access_overlay K parent own x
    obtain ⟨own'', h'⟩ := ih own'
    refine ⟨own'', ?_⟩
    change (accessAll K xs (access K (.overlay parent own) x).2).2 = _
    rw [h, h']

theorem getVerkleValue_mergeIn (parent : StateDB) (own : Own) {dirty : List (Σ _ : Bytes, Bytes)}
    (h : dirty.Perm own.dirty.entries) (code : List (Σ _ : Hash, Bytes)) :
    (StateDB.mergeIn (.overlay parent own) dirty code).getVerkleValue =
      (StateDB.overlay parent own).getVerkleValue := by
  have hn : dirty.NodupKeys := (List.perm_nodupKeys h).mpr own.dirty.nodupKeys
  funext k
  change ((parent.setAll dirty).addCode code).getVerkleValue k = _
  rw [StateDB.getVerkleValue_addCode, StateDB.getVerkleValue_setAll _ _ hn, List.perm_dlookup k hn h]
  rfl

theorem overlay_refines (parent : StateDB) (own : Own) (xs : List Access) :
    (accessAll K xs (.overlay parent own)).2.lower = (StateDB.overlay parent own).lower ∧
      (accessAll K xs (.overlay parent own)).1 = (Accounts.accessAll K xs
        (accounts K (StateDB.overlay parent own).getVerkleValue)).1 ∧
      accounts K (accessAll K xs (.overlay parent own)).2.getVerkleValue = (Accounts.accessAll K xs
        (accounts K (StateDB.overlay parent own).getVerkleValue)).2 ∧
      ∀ dirty code, dirty.Perm (accessAll K xs (.overlay parent own)).2.own.dirty.entries →
        ((accessAll K xs (.overlay parent own)).2.mergeIn dirty code).getVerkleValue =
          (accessAll K xs (.overlay parent own)).2.getVerkleValue := by
  obtain ⟨own', h⟩ := accessAll_overlay K parent own xs
  obtain ⟨hanswers, hstate⟩ := accessAll_eq K xs (.overlay parent own)
  refine ⟨?_, hanswers, hstate, fun dirty code hd => ?_⟩
  · rw [h]
    rfl
  · rw [h] at hd ⊢
    exact getVerkleValue_mergeIn parent own' hd code

end Access

end Zephyria
