import Zephyria.Codes

namespace Zephyria

structure Book extends Accounts where
  code : Address → Bytes

section Book

variable (K : Keccak256)

namespace Book

def write (b : Book) (x : Write) : Book where
  toAccounts := recordWrite K b.toAccounts x
  code :=
    match x with
    | .code a bs => Function.update b.code a bs
    | _ => b.code

def call (b : Book) : StateCall → Book
  | .write x => b.write K x
  | .getCode _ => b

def act (b : Book) : Act → Book
  | .call c => b.call K c
  | .merge cs => cs.foldl (call K) b
  | .commit => b

end Book

def Store.book (st : Store) : Book where
  toAccounts := accounts K st.state.getVerkleValue
  code a := (st.state.getCode K st.db a).1

def Store.Matches (st : Store) (b : Book) : Prop :=
  Agrees K st.state b.toAccounts ∧ ∀ a, (st.state.getCode K st.db a).1 = b.code a

def shadow (t : Table Bytes Bytes) (m : Bytes → Bytes) (key : Bytes) : Bytes := (t.lookup key).getD (m key)

def Store.durable (st : Store) : Bytes → Bytes := shadow st.state.own.dirty (StateDB.new st.db).getVerkleValue

def StateCall.dirty (t : Table Bytes Bytes) : StateCall → Table Bytes Bytes
  | .write x => t.insert (x.key K) (x.value K)
  | .getCode _ => t

theorem shadow_insert (t : Table Bytes Bytes) (m : Bytes → Bytes) (key value : Bytes) :
    shadow (t.insert key value) m = Function.update (shadow t m) key value := by
  funext k
  rw [Function.update_apply, shadow, lookup_insert_ite]
  split <;> rfl

theorem sameReads_call {t : Table Bytes Bytes} {m : Bytes → Bytes} {b : Book}
    (h : SameReads (accounts K (shadow t m)) b.toAccounts) (c : StateCall) :
    SameReads (accounts K (shadow (c.dirty K t) m)) (b.call K c).toAccounts := by
  cases c with
  | getCode a => exact h
  | write x =>
    rw [StateCall.dirty, shadow_insert, accounts_write]
    exact (sameReads_stored K _ x).trans (sameReads_recordWrite K h x)

theorem sameReads_calls {t : Table Bytes Bytes} {m : Bytes → Bytes} {b : Book}
    (h : SameReads (accounts K (shadow t m)) b.toAccounts) (cs : List StateCall) :
    SameReads (accounts K (shadow (cs.foldl (StateCall.dirty K) t) m)) (cs.foldl (Book.call K) b).toAccounts := by
  induction cs generalizing t b with
  | nil => exact h
  | cons c cs ih => exact ih (sameReads_call K h c)

theorem dirty_call (db : Database) (s : StateDB) (c : StateCall) :
    (s.call K db c).own.dirty = c.dirty K s.own.dirty := by
  cases c with
  | write x =>
    rw [StateDB.call, applyWrite_eq, own_addCode, own_setVerkleValue]
    rfl
  | getCode a =>
    unfold StateDB.call StateDB.getCode
    dsimp only
    split
    · rfl
    · split
      · rfl
      · split
        · rw [own_addCode]
          rfl
        · rfl

theorem dirty_calls (db : Database) (s : StateDB) (cs : List StateCall) :
    (cs.foldl (StateDB.call K db) s).own.dirty = cs.foldl (StateCall.dirty K) s.own.dirty := by
  induction cs generalizing s with
  | nil => rfl
  | cons c cs ih => rw [List.foldl_cons, ih, dirty_call, List.foldl_cons]

end Book

section Durable

variable {K : Keccak256} {C : Set Bytes} {st : Store}

theorem durable_merge (h : Sound K C st) {cs : List StateCall} (hcs : ∀ c ∈ cs, c.Uses C) :
    (st.act K (.merge cs)).durable = shadow (cs.foldl (StateCall.dirty K) ∅) st.durable := by
  obtain ⟨own, ho, -⟩ := calls_overlay h.db st.state .empty .none hcs
  have hdirty : own.dirty = cs.foldl (StateCall.dirty K) ∅ := by
    have hd := dirty_calls K st.db (.overlay st.state .empty) cs
    rwa [ho] at hd
  funext key
  rw [Store.durable, Store.act, StateDB.newOverlay, ho, ← hdirty]
  change ((((st.state.setAll own.dirty.entries).addCode own.code.entries).own.dirty.lookup key).getD _) = _
  rw [own_addCode, own_setAll, lookup_replay _ own.dirty.nodupKeys]
  change ((own.dirty.lookup key).or (st.state.own.dirty.lookup key)).getD _ =
    (own.dirty.lookup key).getD ((st.state.own.dirty.lookup key).getD _)
  cases own.dirty.lookup key <;> rfl

theorem durable_commit (st : Store) : (st.act K .commit).durable = st.durable ∧
    (StateDB.new (st.act K .commit).db).getVerkleValue = st.durable := by
  have hread : (StateDB.new (st.act K .commit).db).getVerkleValue = st.durable := by
    funext key
    change ((st.db.write st.state.commit.2).leaf key).getD [] =
      (st.state.own.dirty.lookup key).getD ((st.db.leaf key).getD [])
    rw [Database.leaf_write_commit]
    cases st.state.own.dirty.lookup key <;> rfl
  refine ⟨?_, hread⟩
  rw [Store.durable, hread, show (st.act K .commit).state.own = _ from own_commit st.state]
  rfl

theorem durable_act (h : Sound K C st) {b : Book} (hb : SameReads (accounts K st.durable) b.toAccounts)
    {x : Act} (hx : x.Uses C) : SameReads (accounts K (st.act K x).durable) (b.act K x).toAccounts := by
  cases x with
  | call c =>
    rw [Store.durable, Store.act, dirty_call]
    exact sameReads_call K hb c
  | merge cs =>
    rw [durable_merge h hx]
    exact sameReads_calls K (t := ∅) hb cs
  | commit =>
    rw [(durable_commit st).1]
    exact hb

def Book.Keyed (K : Keccak256) (C : Set Bytes) (b : Book) : Prop := ∀ a, CodeOf K C (b.codeHash a) (b.code a)

theorem Book.Keyed.call {b : Book} (h : b.Keyed K C) {c : StateCall} (hc : c.Uses C) : (b.call K c).Keyed K C := by
  intro a
  cases c with
  | getCode => exact h a
  | write x =>
    cases x with
    | code a' bs =>
      change CodeOf K C (Function.update b.codeHash a' (keccak256Hash K bs) a) (Function.update b.code a' bs a)
      by_cases ha : a = a'
      · subst ha
        rw [Function.update_self, Function.update_self]
        exact Or.inr ⟨hc, rfl⟩
      · rw [Function.update_of_ne ha, Function.update_of_ne ha]
        exact h a
    | balance | nonce | state => exact h a

theorem Book.Keyed.act {b : Book} (h : b.Keyed K C) {x : Act} (hx : x.Uses C) : (b.act K x).Keyed K C := by
  cases x with
  | call c => exact h.call hx
  | commit => exact h
  | merge cs =>
    change (cs.foldl (Book.call K) b).Keyed K C
    have hx : ∀ c ∈ cs, c.Uses C := hx
    induction cs generalizing b with
    | nil => exact h
    | cons c cs ih =>
      obtain ⟨hc, hcs⟩ := List.forall_mem_cons.mp hx
      exact ih (h.call hc) hcs hcs

structure Session (K : Keccak256) (C : Set Bytes) (st : Store) (b : Book) : Prop where
  sound : Sound K C st
  reads : SameReads (accounts K st.durable) b.toAccounts
  keyed : b.Keyed K C

theorem Session.run {b : Book} (h : Session K C st b) {acts : List Act} (hacts : ∀ x ∈ acts, x.Uses C) :
    Session K C (acts.foldl (Store.act K) st) (acts.foldl (Book.act K) b) := by
  induction acts generalizing st b with
  | nil => exact h
  | cons x acts ih =>
    obtain ⟨hx, hacts⟩ := List.forall_mem_cons.mp hacts
    apply ih _ hacts
    exact ⟨h.sound.act hx, durable_act h.sound h.reads hx, h.keyed.act hx⟩

theorem durable_writes (hC : CodesApart K C) (h : Produced K C st) {acts : List Act}
    (hacts : ∀ x ∈ acts, x.Uses C) :
    Store.Matches K (.reload ((acts ++ [Act.commit]).foldl (Store.act K) (.reload st.db)).db)
      (acts.foldl (Book.act K) (Store.book K (.reload st.db))) := by
  have hstart : Sound K C (.reload st.db) := .reload h.sound.db
  have hbegin : Session K C (.reload st.db) (Store.book K (.reload st.db)) :=
    ⟨hstart, ⟨rfl, rfl, rfl⟩, hstart.codeOf hC⟩
  have hrun := hbegin.run hacts
  have hlast : Sound K C (.reload ((acts ++ [Act.commit]).foldl (Store.act K) (.reload st.db)).db) := by
    rw [List.foldl_append]
    exact .reload hrun.sound.commit.db
  have hreads : SameReads (accounts K (StateDB.new
      ((acts ++ [Act.commit]).foldl (Store.act K) (.reload st.db)).db).getVerkleValue)
      (acts.foldl (Book.act K) (Store.book K (.reload st.db))).toAccounts := by
    rw [List.foldl_append, List.foldl_cons, List.foldl_nil, (durable_commit _).2]
    exact hrun.reads
  refine ⟨(agrees_iff K _ _).mpr hreads, fun a => ?_⟩
  have hcode := hlast.codeOf hC a
  rw [show (accounts K (Store.reload _).state.getVerkleValue).codeHash a = _ from congrFun hreads.2.2 a] at hcode
  exact hcode.unique hC (hrun.keyed a)

end Durable

section Sample

def oneCode : Set Bytes := {[0x60]}

theorem oneCode_apart : CodesApart .ideal oneCode := by
  constructor
  · rintro code rfl code' rfl -
    rfl
  · rintro code rfl h
    exact absurd h (by decide +kernel)
  · rintro code rfl h
    exact absurd h (by decide +kernel)

def sampleSession : List Act :=
  [.call (.write (.balance 7 5)), .commit, .merge [.write (.balance 7 0), .write (.code 8 [0x60])]]

theorem zeroed_balance_durable : ∃ db : Database,
    (StateDB.exec (getBalance .ideal 7) (StateDB.new db)).1 = 0 ∧
      ((StateDB.new db).getCode .ideal db 8).1 = [0x60] := by
  have huses : ∀ x ∈ sampleSession, x.Uses oneCode := by
    simp [sampleSession, Act.Uses, StateCall.Uses, Write.Uses, oneCode]
  obtain ⟨⟨hbalance, -, -⟩, hcode⟩ := durable_writes oneCode_apart .empty huses
  exact ⟨_, (hbalance 7).trans rfl, (hcode 8).trans rfl⟩

end Sample

end Zephyria
