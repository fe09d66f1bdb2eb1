import Zephyria.Overlays

namespace Zephyria

inductive Write where
  | balance (a : Address) (v : U256)
  | nonce (a : Address) (n : UInt64)
  | state (a : Address) (k v : Hash)
  | code (a : Address) (bs : Bytes)

/-- An operation on the live state. A merged overlay is given by the writes made on it, whatever it
read to compute them. -/
inductive Op where
  | write (w : Write)
  | addBalance (a : Address) (v : U256)
  | subBalance (a : Address) (v : U256)
  | selfDestruct (a : Address)
  | merge (ws : List Write)
  | commit

def keccak256Hash (K : Keccak256) (code : Bytes) : Hash := bytesToHash (K.sum code)

section LiveReads

variable (K : Keccak256)

def Write.key : Write → Bytes
  | .balance a _ => balanceKey K a
  | .nonce a _ => nonceKey K a
  | .state a k _ => storageKey K a k
  | .code a _ => codeHashKey K a

def Write.value : Write → Bytes
  | .balance _ v => BigEndian.minimal 32 v.toNat
  | .nonce _ n => BigEndian.minimal 8 (nonceMagnitude n)
  | .state _ _ v => hashBytes v
  | .code _ bs => hashBytes (keccak256Hash K bs)

def Write.codes : Write → List (Σ _ : Hash, Bytes)
  | .code _ bs => [⟨keccak256Hash K bs, bs⟩]
  | _ => []

/-- What a write leaves to be read: a large nonce comes back by its magnitude. -/
def Write.stored : Write → Write
  | .nonce a n => .nonce a (storedNonce n)
  | x => x

def applyWrite (s : StateDB) : Write → StateDB
  | .balance a v => (StateDB.exec (setBalance K a v) s).2
  | .nonce a n => (StateDB.exec (setNonce K a n) s).2
  | .state a k v => (StateDB.exec (setState K a k v) s).2
  | .code a bs => s.setCode K a bs

def applyOp (s : StateDB) : Op → StateDB
  | .write w => applyWrite K s w
  | .addBalance a v => (StateDB.exec (addBalance K a v) s).2
  | .subBalance a v => (StateDB.exec (subBalance K a v) s).2
  | .selfDestruct a => (StateDB.exec (selfDestruct K a) s).2
  | .merge ws => (ws.foldl (applyWrite K) s.newOverlay).merge
  | .commit => s.commit.1

def recordWrite (w : Accounts) : Write → Accounts
  | .balance a v => w.setBalance a v
  | .nonce a n => w.setNonce a n
  | .state a k v => w.setState a k v
  | .code a bs => w.setCodeHash a (bytesToHash (K.sum bs))

def recordOp (w : Accounts) : Op → Accounts
  | .write x => recordWrite K w x
  | .addBalance a v => w.setBalance a (w.balance a + v)
  | .subBalance a v => w.setBalance a (w.balance a - v)
  | .selfDestruct a => w.setBalance a 0
  | .merge ws => ws.foldl (recordWrite K) w
  | .commit => w

def Agrees (s : StateDB) (w : Accounts) : Prop :=
  (∀ a, (StateDB.exec (getBalance K a) s).1 = w.balance a) ∧
    (∀ a k, (StateDB.exec (getState K a k) s).1 = w.storage a k) ∧
    ∀ a, (StateDB.exec (getCodeHash K a) s).1 = w.codeHash a

def ZeroesInTree : StateDB → Prop
  | .base tree own => ∀ a, own.dirty.lookup (balanceKey K a) = some [] →
      decodeBalance (tree.get (balanceKey K a)) = 0
  | .overlay _ _ => True

def SameReads (w w' : Accounts) : Prop :=
  w.balance = w'.balance ∧ w.storage = w'.storage ∧ w.codeHash = w'.codeHash

theorem SameReads.trans {w w' w'' : Accounts} (h : SameReads w w') (h' : SameReads w' w'') :
    SameReads w w'' := by
  obtain ⟨hb, hs, hc⟩ := h
  obtain ⟨hb', hs', hc'⟩ := h'
  exact ⟨hb.trans hb', hs.trans hs', hc.trans hc'⟩

theorem agrees_iff (s : StateDB) (w : Accounts) :
    Agrees K s w ↔ SameReads (accounts K s.getVerkleValue) w := by
  simp only [Agrees, SameReads, StateDB.exec_denote, denote_getBalance, denote_getState,
    denote_getCodeHash, funext_iff]

theorem sameReads_recordWrite {w w' : Accounts} (h : SameReads w w') (x : Write) :
    SameReads (recordWrite K w x) (recordWrite K w' x) := by
  obtain ⟨hb, hs, hc⟩ := h
  cases x <;> simp [recordWrite, SameReads, Accounts.setBalance, Accounts.setNonce, Accounts.setState,
    Accounts.setCodeHash, hb, hs, hc]

theorem sameReads_recordWrites {w w' : Accounts} (h : SameReads w w') (ws : List Write) :
    SameReads (ws.foldl (recordWrite K) w) (ws.foldl (recordWrite K) w') := by
  induction ws generalizing w w' with
  | nil => exact h
  | cons x ws ih => exact ih (sameReads_recordWrite K h x)

theorem sameReads_recordOp {w w' : Accounts} (h : SameReads w w') (op : Op) :
    SameReads (recordOp K w op) (recordOp K w' op) := by
  cases op with
  | write x => exact sameReads_recordWrite K h x
  | merge ws => exact sameReads_recordWrites K h ws
  | commit => exact h
  | addBalance a v | subBalance a v | selfDestruct a =>
    obtain ⟨hb, hs, hc⟩ := h
    simp [recordOp, SameReads, Accounts.setBalance, hb, hs, hc]

theorem applyWrite_eq (s : StateDB) (x : Write) :
    applyWrite K s x = (s.setVerkleValue (x.key K) (x.value K)).addCode (x.codes K) := by
  have hnil (t : StateDB) : t = t.addCode [] := by cases t <;> rfl
  cases x with
  | balance a v => exact hnil (s.setVerkleValue (balanceKey K a) (BigEndian.minimal 32 v.toNat))
  | nonce a n => exact hnil (s.setVerkleValue (nonceKey K a) (BigEndian.minimal 8 (nonceMagnitude n)))
  | state a k v => exact hnil (s.setVerkleValue (storageKey K a k) (hashBytes v))
  | code a bs => rfl

theorem accounts_write (m : Bytes → Bytes) (x : Write) :
    accounts K (Function.update m (x.key K) (x.value K)) = recordWrite K (accounts K m) x.stored := by
  cases x with
  | balance a v => exact accounts_setBalance K m a v
  | nonce a n => exact accounts_setNonce K m a n
  | state a k v => exact accounts_setState K m a k v
  | code a bs => exact accounts_setCodeHash K m a (keccak256Hash K bs)

theorem accounts_applyWrite (s : StateDB) (x : Write) :
    accounts K (applyWrite K s x).getVerkleValue = recordWrite K (accounts K s.getVerkleValue) x.stored := by
  rw [applyWrite_eq, StateDB.getVerkleValue_addCode, StateDB.getVerkleValue_setVerkleValue, accounts_write]

theorem sameReads_stored (w : Accounts) (x : Write) : SameReads (recordWrite K w x.stored) (recordWrite K w x) := by
  cases x <;> exact ⟨rfl, rfl, rfl⟩

theorem sameReads_applyWrite (s : StateDB) (x : Write) :
    SameReads (accounts K (applyWrite K s x).getVerkleValue)
      (recordWrite K (accounts K s.getVerkleValue) x) := by
  rw [accounts_applyWrite]
  exact sameReads_stored K _ x

theorem sameReads_applyWrites (s : StateDB) (ws : List Write) :
    SameReads (accounts K (ws.foldl (applyWrite K) s).getVerkleValue)
      (ws.foldl (recordWrite K) (accounts K s.getVerkleValue)) := by
  induction ws generalizing s with
  | nil => exact ⟨rfl, rfl, rfl⟩
  | cons x ws ih =>
    exact (ih (applyWrite K s x)).trans (sameReads_recordWrites K (sameReads_applyWrite K s x) ws)

theorem applyWrite_overlay (parent : StateDB) (own : Own) (x : Write) :
    ∃ own', applyWrite K (.overlay parent own) x = .overlay parent own' := by
  cases x <;> exact ⟨_, rfl⟩

theorem applyWrites_overlay (parent : StateDB) (own : Own) (ws : List Write) :
    ∃ own', ws.foldl (applyWrite K) (.overlay parent own) = .overlay parent own' := by
  induction ws generalizing own with
  | nil => exact ⟨own, rfl⟩
  | cons x ws ih =>
    obtain ⟨own', h⟩ := applyWrite_overlay K parent own x
    rw [List.foldl_cons, h]
    exact ih own'

theorem getVerkleValue_merge_overlay (parent : StateDB) (own : Own) :
    (StateDB.merge (.overlay parent own)).getVerkleValue =
      (StateDB.overlay parent own).getVerkleValue :=
  funext fun k => StateDB.getVerkleValue_merge parent own k

theorem sameReads_applyOp (s : StateDB) {op : Op} (hop : op ≠ .commit) :
    SameReads (accounts K (applyOp K s op).getVerkleValue)
      (recordOp K (accounts K s.getVerkleValue) op) := by
  cases op with
  | write x => exact sameReads_applyWrite K s x
  | addBalance a v => simp [applyOp, recordOp, StateDB.exec_denote, SameReads]
  | subBalance a v =>
    simp [applyOp, recordOp, StateDB.exec_denote, SameReads, BitVec.sub_eq_add_neg]
  | selfDestruct a => simp [applyOp, recordOp, StateDB.exec_denote, SameReads, selfDestruct]
  | merge ws =>
    have h := sameReads_applyWrites K s.newOverlay ws
    obtain ⟨own, ho⟩ := applyWrites_overlay K s .empty ws
    change SameReads (accounts K (ws.foldl (applyWrite K) (.overlay s .empty)).merge.getVerkleValue) _
    rw [ho, getVerkleValue_merge_overlay, ← ho]
    exact h
  | commit => exact absurd rfl hop

def Coherent : StateDB → Prop
  | .base tree own => ∀ k v, own.dirty.lookup k = some v → v ≠ [] → tree.get k = v
  | .overlay _ _ => False

def Cell.IsHash : Cell → Prop
  | .codeHash _ => True
  | .storage _ _ => True
  | _ => False

def Own.Filled (own : Own) : Prop := ∀ f : Cell, f.IsHash → own.dirty.lookup (f.key K) ≠ some []

def Fits (key value : Bytes) : Prop := ∀ f : Cell, f.IsHash → key = f.key K → value ≠ []

theorem coherent_setVerkleValue {s : StateDB} (h : Coherent s) (key value : Bytes) :
    Coherent (s.setVerkleValue key value) := by
  cases s with
  | overlay parent own => exact h
  | base tree own =>
    intro k v hk hv
    rw [VerkleTree.get_insert]
    by_cases hkey : k = key
    · subst hkey
      obtain rfl : value = v := by simpa using hk
      rw [if_pos ⟨hv, rfl⟩]
    · rw [AList.lookup_insert_ne hkey] at hk
      rw [if_neg fun hc => hkey hc.2]
      exact h k v hk hv

theorem filled_setVerkleValue {s : StateDB} (h : s.own.Filled K) {key value : Bytes}
    (hf : Fits K key value) : (s.setVerkleValue key value).own.Filled K := by
  intro f hhash
  have hdirty : (s.setVerkleValue key value).own.dirty = s.own.dirty.insert key value := by
    cases s <;> rfl
  rw [hdirty]
  by_cases hk : f.key K = key
  · rw [hk, AList.lookup_insert]
    intro he
    exact hf f hhash hk.symm (by simpa using he)
  · rw [AList.lookup_insert_ne hk]
    exact h f hhash

theorem fits_balance (a : Address) (v : Bytes) : Fits K (balanceKey K a) v := by
  intro f hf hk
  rw [← Cell.key_injective K (show (Cell.balance a).key K = f.key K from hk)] at hf
  cases hf

theorem fits_nonce (a : Address) (v : Bytes) : Fits K (nonceKey K a) v := by
  intro f hf hk
  rw [← Cell.key_injective K (show (Cell.nonce a).key K = f.key K from hk)] at hf
  cases hf

theorem fits_hashBytes (key : Bytes) (h : Hash) : Fits K key (hashBytes h) :=
  fun _ _ _ => hashBytes_ne_nil h

structure Steady (s : StateDB) : Prop where
  coherent : Coherent s
  filled : s.own.Filled K

theorem steady_new (db : Database) : Steady K (StateDB.new db) where
  coherent k v h := by cases h
  filled f _ h := by cases h

variable {K}

theorem Steady.setVerkleValue {s : StateDB} (h : Steady K s) {key value : Bytes}
    (hf : Fits K key value) : Steady K (s.setVerkleValue key value) :=
  ⟨coherent_setVerkleValue h.coherent key value, filled_setVerkleValue K h.filled hf⟩

theorem Steady.addCode {s : StateDB} (h : Steady K s) (entries : List (Σ _ : Hash, Bytes)) :
    Steady K (s.addCode entries) := by
  obtain ⟨hc, hf⟩ := h
  cases s with
  | base tree own => exact ⟨hc, hf⟩
  | overlay parent own => exact absurd hc id

theorem Steady.setAll {s : StateDB} (h : Steady K s) (entries : List (Σ _ : Bytes, Bytes))
    (hf : ∀ e ∈ entries, Fits K e.1 e.2) : Steady K (s.setAll entries) := by
  induction entries generalizing s with
  | nil => exact h
  | cons e entries ih =>
    exact ih (h.setVerkleValue (hf e List.mem_cons_self)) fun e' he' => hf e' (List.mem_cons_of_mem e he')

theorem Steady.commit {s : StateDB} (h : Steady K s) : Steady K s.commit.1 := by
  obtain ⟨hc, hf⟩ := h
  cases s with
  | base tree own => exact ⟨fun k v hk => (by cases hk), fun f _ hk => (by cases hk)⟩
  | overlay parent own => exact absurd hc id

variable (K)

theorem Write.fits (x : Write) : Fits K (x.key K) (x.value K) := by
  cases x with
  | balance a v => exact fits_balance K a _
  | nonce a n => exact fits_nonce K a _
  | state a k v => exact fits_hashBytes K _ v
  | code a bs => exact fits_hashBytes K _ _

theorem Steady.applyWrite {s : StateDB} (h : Steady K s) (x : Write) :
    Steady K (applyWrite K s x) := by
  rw [applyWrite_eq]
  exact (h.setVerkleValue (x.fits K)).addCode (x.codes K)

theorem filled_applyWrites {s : StateDB} (h : s.own.Filled K) (ws : List Write) :
    (ws.foldl (Zephyria.applyWrite K) s).own.Filled K := by
  refine foldl_invariant (I := fun s : StateDB => s.own.Filled K) ?_ h
  intro s x _ hs f hhash
  have hown (t : StateDB) : (t.addCode (x.codes K)).own.dirty = t.own.dirty := by cases t <;> rfl
  rw [applyWrite_eq, hown]
  exact filled_setVerkleValue K hs (x.fits K) f hhash

theorem Steady.merge {s : StateDB} (h : Steady K s) {own : Own} (hf : own.Filled K) :
    Steady K (StateDB.merge (.overlay s own)) := by
  refine (h.setAll own.dirty.entries ?_).addCode own.code.entries
  intro e he f hhash hk hv
  have hl : own.dirty.lookup e.1 = some e.2 := AList.mem_lookup_iff.mpr he
  exact hf f hhash (by rw [← hk, hl, hv])

theorem Steady.applyOp {s : StateDB} (h : Steady K s) (op : Op) : Steady K (applyOp K s op) := by
  cases op with
  | write x => exact h.applyWrite K x
  | addBalance a v => exact h.setVerkleValue (fits_balance K a _)
  | subBalance a v => exact h.setVerkleValue (fits_balance K a _)
  | selfDestruct a => exact h.setVerkleValue (fits_balance K a _)
  | merge ws =>
    obtain ⟨own, ho⟩ := applyWrites_overlay K s .empty ws
    have hf := filled_applyWrites K (s := s.newOverlay) (fun f _ hk => by cases hk) ws
    change Steady K (ws.foldl (Zephyria.applyWrite K) (.overlay s .empty)).merge
    change (ws.foldl (Zephyria.applyWrite K) (.overlay s .empty)).own.Filled K at hf
    rw [ho] at hf ⊢
    exact h.merge K hf
  | commit => exact h.commit

theorem Steady.run {s : StateDB} (h : Steady K s) (ops : List Op) :
    Steady K (ops.foldl (Zephyria.applyOp K) s) :=
  foldl_invariant (fun _ op _ hs => hs.applyOp K op) h

theorem getVerkleValue_commit {s : StateDB} (h : Coherent s) {k : Bytes}
    (hk : s.own.dirty.lookup k ≠ some []) : s.commit.1.getVerkleValue k = s.getVerkleValue k := by
  cases s with
  | overlay parent own => exact absurd h id
  | base tree own =>
    change tree.get k = (own.dirty.lookup k).getD (tree.get k)
    cases hl : own.dirty.lookup k with
    | none => rfl
    | some v =>
      have hv : v ≠ [] := by
        rintro rfl
        exact hk hl
      exact h k v hl hv

theorem sameReads_commit_iff {s : StateDB} (h : Steady K s) :
    SameReads (accounts K s.commit.1.getVerkleValue) (accounts K s.getVerkleValue) ↔
      ZeroesInTree K s := by
  obtain ⟨tree, own, rfl⟩ : ∃ tree own, s = .base tree own := by
    cases s with
    | base tree own => exact ⟨tree, own, rfl⟩
    | overlay parent own => exact absurd h.coherent id
  constructor
  · rintro ⟨hb, -, -⟩ a ha
    have hdirty : (StateDB.base tree own).getVerkleValue (balanceKey K a) = [] := by
      simp [StateDB.getVerkleValue, ha]
    have hread := congrFun hb a
    simp only [accounts, hdirty] at hread
    exact hread
  · intro hz
    refine ⟨funext fun a => ?_, funext fun a => funext fun k => ?_, funext fun a => ?_⟩
    · by_cases ha : own.dirty.lookup (balanceKey K a) = some []
      · have hdirty : (StateDB.base tree own).getVerkleValue (balanceKey K a) = [] := by
          simp [StateDB.getVerkleValue, ha]
        simp only [accounts, hdirty]
        exact hz a ha
      · exact congrArg decodeBalance (getVerkleValue_commit h.coherent ha)
    · exact congrArg decodeHash (getVerkleValue_commit h.coherent (h.filled (.storage a k) trivial))
    · exact congrArg decodeHash (getVerkleValue_commit h.coherent (h.filled (.codeHash a) trivial))

theorem agrees_applyOp {s : StateDB} (h : Steady K s) {w : Accounts} (ha : Agrees K s w) {op : Op}
    (hz : op = .commit → ZeroesInTree K s) : Agrees K (applyOp K s op) (recordOp K w op) := by
  rw [agrees_iff] at ha ⊢
  have hstep : SameReads (accounts K (applyOp K s op).getVerkleValue)
      (recordOp K (accounts K s.getVerkleValue) op) := by
    by_cases hop : op = .commit
    · subst hop
      exact (sameReads_commit_iff K h).mpr (hz rfl)
    · exact sameReads_applyOp K s hop
  exact hstep.trans (sameReads_recordOp K ha op)

theorem live_reads_iff (db : Database) (ops : List Op) :
    (∀ pre, pre <+: ops → Agrees K (pre.foldl (applyOp K) (.new db))
        (pre.foldl (recordOp K) (accounts K (StateDB.new db).getVerkleValue))) ↔
      ∀ pre, pre ++ [Op.commit] <+: ops → ZeroesInTree K (pre.foldl (applyOp K) (.new db)) := by
  constructor
  · intro hall pre hpre
    have hbefore := (agrees_iff K _ _).mp (hall pre ((List.prefix_append pre _).trans hpre))
    have hafter := (agrees_iff K _ _).mp (hall _ hpre)
    simp only [List.foldl_append, List.foldl_cons, List.foldl_nil, recordOp] at hafter
    apply (sameReads_commit_iff K ((steady_new K db).run K pre)).mp
    obtain ⟨hb, hs, hc⟩ := hbefore
    obtain ⟨hb', hs', hc'⟩ := hafter
    exact ⟨hb'.trans hb.symm, hs'.trans hs.symm, hc'.trans hc.symm⟩
  · intro hall pre
    induction pre using List.reverseRecOn with
    | nil => exact fun _ => (agrees_iff K _ _).mpr ⟨rfl, rfl, rfl⟩
    | append_singleton pre op ih =>
      intro hpre
      have hsteady := (steady_new K db).run K pre
      have hbefore := ih ((List.prefix_append pre _).trans hpre)
      simp only [List.foldl_append, List.foldl_cons, List.foldl_nil]
      exact agrees_applyOp K hsteady hbefore fun hop => hall pre (hop ▸ hpre)

end LiveReads

theorem zeroed_balance_returns :
    ¬∀ pre, pre <+: [Op.write (.balance 7 5), .commit, .selfDestruct 7, .commit] →
      Agrees .ideal (pre.foldl (applyOp .ideal) (.new .empty))
        (pre.foldl (recordOp .ideal) (accounts .ideal (StateDB.new .empty).getVerkleValue)) := by
  intro h
  have hread := (h _ List.prefix_rfl).1 7
  revert hread
  decide

end Zephyria
