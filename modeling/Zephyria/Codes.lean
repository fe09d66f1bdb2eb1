import Zephyria.LiveReads
import Zephyria.Blockchain

namespace Zephyria

namespace Database

def leaf (db : Database) (key : Bytes) : Option Bytes := db.getRaw (StateDB.leafPrefix :: key)

def code (db : Database) (hash : Hash) : Option Bytes := db.getRaw (StateDB.codePrefix :: hashBytes hash)

end Database

section Calls

variable (K : Keccak256)

def StateDB.getCode (db : Database) (s : StateDB) (addr : Address) : Bytes × StateDB :=
  let hash := (StateDB.exec (getCodeHash K addr) s).1
  if hash = emptyCodeHash then ([], s)
  else
    match s.own.code.lookup hash with
    | some code => (code, s)
    | none =>
      match db.code hash with
      | some code => (code, s.addCode [⟨hash, code⟩])
      | none => ([], s)

def StateDB.getCodeSize (db : Database) (s : StateDB) (addr : Address) : ℕ := (s.getCode K db addr).1.length

inductive StateCall where
  | write (x : Write)
  | getCode (a : Address)

inductive Act where
  | call (c : StateCall)
  | merge (cs : List StateCall)
  | commit

structure Store where
  state : StateDB
  db : Database

def StateDB.call (db : Database) (s : StateDB) : StateCall → StateDB
  | .write x => applyWrite K s x
  | .getCode a => (s.getCode K db a).2

namespace Store

def reload (db : Database) : Store := ⟨.new db, db⟩

def act (st : Store) : Act → Store
  | .call c => { st with state := st.state.call K st.db c }
  | .merge cs => { st with state := (cs.foldl (StateDB.call K st.db) st.state.newOverlay).merge }
  | .commit => ⟨(persistState st.state st.db).1, (persistState st.state st.db).2⟩

end Store

def Write.Uses (C : Set Bytes) : Write → Prop
  | .code _ bs => bs ∈ C
  | _ => True

def StateCall.Uses (C : Set Bytes) : StateCall → Prop
  | .write x => x.Uses C
  | .getCode _ => True

def Act.Uses (C : Set Bytes) : Act → Prop
  | .call c => c.Uses C
  | .merge cs => ∀ c ∈ cs, c.Uses C
  | .commit => True

/-- What this code leaves behind if it sets no code outside `C`: states are changed and committed,
blocks stored, the node restarted at any time. -/
inductive Produced (C : Set Bytes) : Store → Prop
  | empty : Produced C (.reload .empty)
  | act {st : Store} {x : Act} (h : Produced C st) (hx : x.Uses C) : Produced C (st.act K x)
  | reload {st : Store} (h : Produced C st) : Produced C (.reload st.db)
  | storeBlock {st : Store} (h : Produced C st) (hash : Hash) (b : Block)
      (receipts : Option (List Receipt)) : Produced C { st with db := st.db.storeBlock hash b receipts }
  | writeHeadBlockHash {st : Store} (h : Produced C st) (hash : Hash) :
      Produced C { st with db := st.db.writeHeadBlockHash hash }
  | writeCanonicalHash {st : Store} (h : Produced C st) (number : UInt64) (hash : Hash) :
      Produced C { st with db := st.db.writeCanonicalHash number hash }

end Calls

namespace Database

theorem getRaw_put (db : Database) (key v key' : Bytes) :
    (db.put key (.raw v)).getRaw key' = if key' = key then some v else db.getRaw key' := by
  by_cases h : key' = key
  · subst h
    rw [if_pos rfl, getRaw, put_self]
  · rw [if_neg h, getRaw, put_ne db h, getRaw]

theorem leaf_put_leaf (db : Database) (key v key' : Bytes) :
    (db.put (StateDB.leafPrefix :: key) (.raw v)).leaf key' = if key' = key then some v else db.leaf key' := by
  rw [leaf, getRaw_put, leaf]
  simp only [List.cons.injEq, true_and]

theorem code_put_code (db : Database) (hash : Hash) (v : Bytes) (hash' : Hash) :
    (db.put (StateDB.codePrefix :: hashBytes hash) (.raw v)).code hash' =
      if hash' = hash then some v else db.code hash' := by
  rw [code, getRaw_put, code]
  by_cases h : hash' = hash
  · rw [if_pos h, if_pos (by rw [h])]
  · rw [if_neg h, if_neg fun hk => h (hashBytes_injective (List.cons.inj hk).2)]

structure SameState (db db' : Database) : Prop where
  leaf : db'.leaf = db.leaf
  code : db'.code = db.code

theorem sameState_of_eq {db db' : Database} (h : ∀ p rest, p = StateDB.leafPrefix ∨ p = StateDB.codePrefix →
    db' (p :: rest) = db (p :: rest)) : SameState db db' := by
  constructor
  · funext key
    rw [Database.leaf, Database.leaf, getRaw, getRaw, h _ _ (Or.inl rfl)]
  · funext hash
    rw [Database.code, Database.code, getRaw, getRaw, h _ _ (Or.inr rfl)]

theorem sameState_put (db : Database) {p : UInt8} (hleaf : p ≠ StateDB.leafPrefix)
    (hcode : p ≠ StateDB.codePrefix) (rest : Bytes) (r : Record) : SameState db (db.put (p :: rest) r) := by
  apply sameState_of_eq
  rintro q rest' (rfl | rfl)
  · exact put_ne db (fun h => hleaf (List.cons.inj h).1.symm) r
  · exact put_ne db (fun h => hcode (List.cons.inj h).1.symm) r

theorem sameState_writeHeadBlockHash (db : Database) (hash : Hash) :
    SameState db (db.writeHeadBlockHash hash) :=
  sameState_put db (by decide) (by decide) _ _

theorem sameState_writeCanonicalHash (db : Database) (number : UInt64) (hash : Hash) :
    SameState db (db.writeCanonicalHash number hash) :=
  sameState_put db (by decide) (by decide) _ _

theorem sameState_storeBlock (db : Database) (hash : Hash) (b : Block) (receipts : Option (List Receipt)) :
    SameState db (db.storeBlock hash b receipts) := by
  apply sameState_of_eq
  rintro q rest (rfl | rfl)
  · exact storeBlock_ne db hash b receipts (by decide) (by decide) rest
      fun h => absurd (List.cons.inj h).1 (by decide)
  · exact storeBlock_ne db hash b receipts (by decide) (by decide) rest
      fun h => absurd (List.cons.inj h).1 (by decide)

theorem leaf_write_commit (db : Database) (s : StateDB) (key : Bytes) :
    (db.write s.commit.2).leaf key = (s.own.dirty.lookup key).or (db.leaf key) := by
  have hcode (db : Database) : (s.own.code.entries.foldl
      (fun db e => db.put (StateDB.codePrefix :: hashBytes e.1) (.raw e.2)) db).leaf key = db.leaf key := by
    rw [leaf, getRaw, foldl_put_ne db _ _ _ fun _ _ h => absurd (List.cons.inj h).1 (by decide)]
    rfl
  rw [StateDB.commit, write, List.foldl_append, List.foldl_map, List.foldl_map, hcode,
    look_replay leaf (fun db key v => db.put (StateDB.leafPrefix :: key) (.raw v)) some leaf_put_leaf
      s.own.dirty.nodupKeys]
  change ((s.own.dirty.lookup key).map some).getD _ = _
  cases s.own.dirty.lookup key <;> rfl

theorem code_write_commit (db : Database) (s : StateDB) (hash : Hash) :
    (db.write s.commit.2).code hash = (s.own.code.lookup hash).or (db.code hash) := by
  have hleaf (db : Database) : (s.own.dirty.entries.foldl
      (fun db e => db.put (StateDB.leafPrefix :: e.1) (.raw e.2)) db).code hash = db.code hash := by
    rw [code, getRaw, foldl_put_ne db _ _ _ fun _ _ h => absurd (List.cons.inj h).1 (by decide)]
    rfl
  rw [StateDB.commit, write, List.foldl_append, List.foldl_map, List.foldl_map,
    look_replay code (fun db hash v => db.put (StateDB.codePrefix :: hashBytes hash) (.raw v)) some
      code_put_code s.own.code.nodupKeys, hleaf]
  change ((s.own.code.lookup hash).map some).getD _ = _
  cases s.own.code.lookup hash <;> rfl

end Database

section Coded

variable (K : Keccak256) (C : Set Bytes)

structure CodesApart : Prop where
  injective : ∀ code ∈ C, ∀ code' ∈ C, keccak256Hash K code = keccak256Hash K code' → code = code'
  empty : ∀ code ∈ C, keccak256Hash K code = emptyCodeHash → code = []
  ne_zero : ∀ code ∈ C, keccak256Hash K code ≠ 0

structure Coded (leaf : Bytes → Option Bytes) (code : Hash → Option Bytes) : Prop where
  keyed : ∀ hash bs, code hash = some bs → bs ∈ C ∧ keccak256Hash K bs = hash
  leaf : ∀ a v, leaf (codeHashKey K a) = some v →
    ∃ bs, v = hashBytes (keccak256Hash K bs) ∧ code (keccak256Hash K bs) = some bs

def CodeOf (hash : Hash) (bs : Bytes) : Prop := hash = 0 ∧ bs = [] ∨ bs ∈ C ∧ keccak256Hash K bs = hash

variable {K C} {leaf leaf' : Bytes → Option Bytes} {code code' : Hash → Option Bytes}

theorem zero_ne_emptyCodeHash : (0 : Hash) ≠ emptyCodeHash := by
  decide +kernel

theorem CodeOf.unique (hC : CodesApart K C) {hash : Hash} {bs bs' : Bytes} (h : CodeOf K C hash bs)
    (h' : CodeOf K C hash bs') : bs = bs' := by
  rcases h with ⟨hzero, rfl⟩ | ⟨hmem, hhash⟩
  · rcases h' with ⟨-, rfl⟩ | ⟨hmem', hhash'⟩
    · rfl
    · exact absurd (hhash'.trans hzero) (hC.ne_zero bs' hmem')
  · rcases h' with ⟨hzero, rfl⟩ | ⟨hmem', hhash'⟩
    · exact absurd (hhash.trans hzero) (hC.ne_zero bs hmem)
    · exact hC.injective bs hmem bs' hmem' (hhash.trans hhash'.symm)

theorem Coded.none : Coded K C (fun _ => none) (fun _ => none) :=
  ⟨fun _ _ h => (nomatch h), fun _ _ h => (nomatch h)⟩

theorem Coded.single {hash : Hash} {bs : Bytes} (hmem : bs ∈ C) (hhash : keccak256Hash K bs = hash) :
    Coded K C (fun _ => .none) (fun h => [(⟨hash, bs⟩ : Σ _ : Hash, Bytes)].dlookup h) := by
  refine ⟨fun h bs' hfound => ?_, fun _ _ h => (nomatch h)⟩
  obtain ⟨rfl, rfl⟩ := dlookup_singleton hfound
  exact ⟨hmem, hhash⟩

theorem Coded.or (h : Coded K C leaf code) (h' : Coded K C leaf' code') :
    Coded K C (fun key => (leaf key).or (leaf' key)) (fun hash => (code hash).or (code' hash)) := by
  constructor
  · intro hash bs hfound
    rcases Option.or_eq_some_iff.mp hfound with hfound | ⟨-, hfound⟩
    · exact h.keyed hash bs hfound
    · exact h'.keyed hash bs hfound
  · intro a v hfound
    rcases Option.or_eq_some_iff.mp hfound with hfound | ⟨-, hfound⟩
    · obtain ⟨bs, hv, hbs⟩ := h.leaf a v hfound
      exact ⟨bs, hv, by rw [hbs, Option.some_or]⟩
    · obtain ⟨bs, hv, hbs⟩ := h'.leaf a v hfound
      -- The upper table may hold another code with this hash; then that one is found.
      cases hupper : code (keccak256Hash K bs) with
      | none => exact ⟨bs, hv, by rw [hupper, Option.none_or, hbs]⟩
      | some top =>
        obtain ⟨-, hhash⟩ := h.keyed _ top hupper
        exact ⟨top, by rw [hhash, hv], by rw [hhash, hupper, Option.some_or]⟩

theorem Coded.codeOf (hC : CodesApart K C) (h : Coded K C leaf code) (a : Address) {hash : Hash}
    (hhash : hash = decodeHash ((leaf (codeHashKey K a)).getD [])) :
    CodeOf K C hash (if hash = emptyCodeHash then [] else (code hash).getD []) := by
  cases hleaf : leaf (codeHashKey K a) with
  | none =>
    rw [hleaf] at hhash
    obtain rfl : hash = 0 := hhash
    have hnone : code 0 = .none := by
      by_contra hne
      obtain ⟨bs, hbs⟩ := Option.ne_none_iff_exists'.mp hne
      obtain ⟨hmem, hzero⟩ := h.keyed 0 bs hbs
      exact hC.ne_zero bs hmem hzero
    rw [if_neg zero_ne_emptyCodeHash, hnone]
    exact Or.inl ⟨rfl, rfl⟩
  | some v =>
    obtain ⟨bs, hv, hbs⟩ := h.leaf a v hleaf
    obtain ⟨hmem, -⟩ := h.keyed _ bs hbs
    rw [hleaf, Option.getD_some, hv, decodeHash_hashBytes] at hhash
    rw [hhash, hbs]
    by_cases hempty : keccak256Hash K bs = emptyCodeHash
    · obtain rfl := hC.empty bs hmem hempty
      rw [if_pos hempty]
      exact Or.inr ⟨hmem, rfl⟩
    · rw [if_neg hempty]
      exact Or.inr ⟨hmem, rfl⟩

theorem Write.coded {x : Write} (hx : x.Uses C) : Coded K C
    (fun key => [(⟨x.key K, x.value K⟩ : Σ _ : Bytes, Bytes)].dlookup key)
    (fun hash => (x.codes K).dlookup hash) := by
  cases x with
  | code b bs =>
    refine ⟨(Coded.single hx rfl).keyed, fun a v hfound => ?_⟩
    obtain ⟨-, hv⟩ := dlookup_singleton hfound
    exact ⟨bs, hv, List.dlookup_cons_eq _ _ _⟩
  | balance b v =>
    refine ⟨fun _ _ h => (nomatch h), fun a v hfound => ?_⟩
    obtain ⟨hkey, -⟩ := dlookup_singleton hfound
    cases Cell.key_injective K (show (Cell.codeHash a).key K = (Cell.balance b).key K from hkey)
  | nonce b n =>
    refine ⟨fun _ _ h => (nomatch h), fun a v hfound => ?_⟩
    obtain ⟨hkey, -⟩ := dlookup_singleton hfound
    cases Cell.key_injective K (show (Cell.codeHash a).key K = (Cell.nonce b).key K from hkey)
  | state b k v =>
    refine ⟨fun _ _ h => (nomatch h), fun a v hfound => ?_⟩
    obtain ⟨hkey, -⟩ := dlookup_singleton hfound
    cases Cell.key_injective K (show (Cell.codeHash a).key K = (Cell.storage b k).key K from hkey)

end Coded

section Absorb

variable {K : Keccak256} {C : Set Bytes}

theorem own_setVerkleValue (s : StateDB) (key value : Bytes) :
    (s.setVerkleValue key value).own = { s.own with dirty := s.own.dirty.insert key value } := by
  cases s <;> rfl

theorem own_setAll (s : StateDB) (entries : List (Σ _ : Bytes, Bytes)) : (s.setAll entries).own =
    { s.own with dirty := entries.foldl (fun t e => t.insert e.1 e.2) s.own.dirty } := by
  induction entries generalizing s with
  | nil => rfl
  | cons e entries ih =>
    change ((s.setVerkleValue e.1 e.2).setAll entries).own = _
    rw [ih, own_setVerkleValue]
    rfl

theorem own_addCode (s : StateDB) (entries : List (Σ _ : Hash, Bytes)) : (s.addCode entries).own =
    { s.own with code := entries.foldl (fun t e => t.insert e.1 e.2) s.own.code } := by
  cases s <;> rfl

theorem own_commit (s : StateDB) : s.commit.1.own = { s.own with dirty := ∅ } := by
  cases s <;> rfl

structure Entries (K : Keccak256) (C : Set Bytes) where
  dirty : List (Σ _ : Bytes, Bytes)
  code : List (Σ _ : Hash, Bytes)
  nodup_dirty : dirty.NodupKeys
  nodup_code : code.NodupKeys
  coded : Coded K C (fun key => dirty.dlookup key) (fun hash => code.dlookup hash)

def StateDB.absorb (s : StateDB) (es : Entries K C) : StateDB := (s.setAll es.dirty).addCode es.code

theorem dirty_absorb (s : StateDB) (es : Entries K C) (key : Bytes) :
    (s.absorb es).own.dirty.lookup key = (es.dirty.dlookup key).or (s.own.dirty.lookup key) := by
  rw [StateDB.absorb, own_addCode, own_setAll]
  exact lookup_replay s.own.dirty es.nodup_dirty key

theorem code_absorb (s : StateDB) (es : Entries K C) (hash : Hash) :
    (s.absorb es).own.code.lookup hash = (es.code.dlookup hash).or (s.own.code.lookup hash) := by
  rw [StateDB.absorb, own_addCode, own_setAll]
  exact lookup_replay s.own.code es.nodup_code hash

theorem getVerkleValue_absorb (s : StateDB) (es : Entries K C) (key : Bytes) :
    (s.absorb es).getVerkleValue key = (es.dirty.dlookup key).getD (s.getVerkleValue key) := by
  rw [StateDB.absorb, StateDB.getVerkleValue_addCode, StateDB.getVerkleValue_setAll _ _ es.nodup_dirty]

def Own.Coded (K : Keccak256) (C : Set Bytes) (own : Own) : Prop :=
  Zephyria.Coded K C (fun key => own.dirty.lookup key) (fun hash => own.code.lookup hash)

def Database.Coded (K : Keccak256) (C : Set Bytes) (db : Database) : Prop := Zephyria.Coded K C db.leaf db.code

theorem Own.Coded.absorb {s : StateDB} (h : s.own.Coded K C) (es : Entries K C) :
    (s.absorb es).own.Coded K C := by
  have hor := es.coded.or h
  simp only [← dirty_absorb, ← code_absorb] at hor
  exact hor

def Write.entries (K : Keccak256) {x : Write} (hx : x.Uses C) : Entries K C where
  dirty := [⟨x.key K, x.value K⟩]
  code := x.codes K
  nodup_dirty := List.nodupKeys_singleton _
  nodup_code := by cases x <;> simp [Write.codes]
  coded := x.coded hx

theorem applyWrite_absorb (s : StateDB) {x : Write} (hx : x.Uses C) :
    applyWrite K s x = s.absorb (Write.entries K hx) := by
  rw [applyWrite_eq]
  rfl

theorem call_absorb {db : Database} (hdb : db.Coded K C) (s : StateDB) {c : StateCall} (hc : c.Uses C) :
    ∃ es : Entries K C, s.call K db c = s.absorb es := by
  cases c with
  | write x => exact ⟨_, applyWrite_absorb s hc⟩
  | getCode a =>
    let none : Entries K C := ⟨[], [], List.nodupKeys_nil, List.nodupKeys_nil, .none⟩
    have hnone : s = s.absorb none := by cases s <;> rfl
    unfold StateDB.call StateDB.getCode
    dsimp only
    split
    · exact ⟨none, hnone⟩
    · split
      · exact ⟨none, hnone⟩
      · split
        next bs hfound =>
          obtain ⟨hmem, hhash⟩ := hdb.keyed _ bs hfound
          exact ⟨⟨[], _, List.nodupKeys_nil, List.nodupKeys_singleton _, .single hmem hhash⟩, rfl⟩
        · exact ⟨none, hnone⟩

theorem absorb_overlay (parent : StateDB) (own : Own) (es : Entries K C) :
    ∃ own', (StateDB.overlay parent own).absorb es = .overlay parent own' := by
  have hall (entries : List (Σ _ : Bytes, Bytes)) (own : Own) :
      ∃ own', (StateDB.overlay parent own).setAll entries = .overlay parent own' := by
    induction entries generalizing own with
    | nil => exact ⟨own, rfl⟩
    | cons e entries ih => exact ih _
  obtain ⟨own', h⟩ := hall es.dirty own
  rw [StateDB.absorb, h]
  exact ⟨_, rfl⟩

theorem calls_overlay {db : Database} (hdb : db.Coded K C) (parent : StateDB) (own : Own)
    (hown : own.Coded K C) {cs : List StateCall} (hcs : ∀ c ∈ cs, c.Uses C) :
    ∃ own' : Own, cs.foldl (StateDB.call K db) (.overlay parent own) = .overlay parent own' ∧
      own'.Coded K C := by
  induction cs generalizing own with
  | nil => exact ⟨own, rfl, hown⟩
  | cons c cs ih =>
    obtain ⟨hc, hcs⟩ := List.forall_mem_cons.mp hcs
    obtain ⟨es, hes⟩ := call_absorb hdb (.overlay parent own) hc
    obtain ⟨own', hown'⟩ := absorb_overlay parent own es
    have hcoded : own'.Coded K C := by
      have h := Own.Coded.absorb (s := .overlay parent own) hown es
      rwa [hown'] at h
    rw [List.foldl_cons, hes, hown']
    exact ih own' hcoded hcs

theorem act_absorb {st : Store} (hdb : st.db.Coded K C) {x : Act} (hx : x.Uses C) :
    x = .commit ∨ ∃ es : Entries K C, st.act K x = { st with state := st.state.absorb es } := by
  cases x with
  | commit => exact Or.inl rfl
  | call c =>
    obtain ⟨es, hes⟩ := call_absorb hdb st.state hx
    refine Or.inr ⟨es, ?_⟩
    rw [Store.act, hes]
  | merge cs =>
    obtain ⟨own, ho, hown⟩ := calls_overlay hdb st.state .empty .none hx
    refine Or.inr ⟨⟨own.dirty.entries, own.code.entries, own.dirty.nodupKeys, own.code.nodupKeys, hown⟩, ?_⟩
    rw [Store.act, StateDB.newOverlay, ho]
    rfl

end Absorb

structure Sound (K : Keccak256) (C : Set Bytes) (st : Store) : Prop where
  own : st.state.own.Coded K C
  db : st.db.Coded K C
  coherent : Coherent st.state
  live : ∀ a, st.state.getVerkleValue (codeHashKey K a) =
    ((st.state.own.dirty.lookup (codeHashKey K a)).or (st.db.leaf (codeHashKey K a))).getD []

section Sound

variable {K : Keccak256} {C : Set Bytes} {st : Store}

theorem coherent_addCode {s : StateDB} (h : Coherent s) (entries : List (Σ _ : Hash, Bytes)) :
    Coherent (s.addCode entries) := by
  cases s with
  | base tree own => exact h
  | overlay parent own => exact absurd h id

theorem coherent_commit {s : StateDB} (h : Coherent s) : Coherent s.commit.1 := by
  cases s with
  | base tree own => exact fun _ _ hk => (nomatch hk)
  | overlay parent own => exact absurd h id

theorem coherent_absorb {s : StateDB} (h : Coherent s) (es : Entries K C) : Coherent (s.absorb es) := by
  apply coherent_addCode
  exact StateDB.setAll_invariant (I := Coherent)
    (fun s key value hs => coherent_setVerkleValue hs key value) h es.dirty

theorem Sound.reload {db : Database} (h : db.Coded K C) : Sound K C (.reload db) where
  own := .none
  db := h
  coherent _ _ hk := (nomatch hk)
  live _ := rfl

theorem Sound.absorb (h : Sound K C st) (es : Entries K C) :
    Sound K C { st with state := st.state.absorb es } where
  own := Own.Coded.absorb h.own es
  db := h.db
  coherent := coherent_absorb h.coherent es
  live a := by
    dsimp only
    rw [getVerkleValue_absorb, dirty_absorb, h.live]
    cases es.dirty.dlookup (codeHashKey K a) <;> rfl

theorem Sound.commit (h : Sound K C st) : Sound K C (st.act K .commit) where
  own := by
    rw [Own.Coded, show (st.act K .commit).state.own = _ from own_commit st.state]
    exact ⟨h.own.keyed, fun _ _ hk => (nomatch hk)⟩
  db := by
    have hor := Coded.or h.own h.db
    simp only [← Database.leaf_write_commit, ← Database.code_write_commit] at hor
    exact hor
  coherent := coherent_commit h.coherent
  live a := by
    have hfull : st.state.own.dirty.lookup (codeHashKey K a) ≠ some [] := by
      intro hnil
      obtain ⟨bs, hv, -⟩ := h.own.leaf a [] hnil
      exact hashBytes_ne_nil _ hv.symm
    have hread : (st.act K .commit).state.getVerkleValue (codeHashKey K a) = _ :=
      getVerkleValue_commit h.coherent hfull
    have hleaf := Database.leaf_write_commit st.db st.state (codeHashKey K a)
    rw [hread, show (st.act K .commit).state.own = _ from own_commit st.state, h.live, ← hleaf]
    rfl

theorem Sound.sameState {db : Database} (h : Sound K C st) (hs : st.db.SameState db) :
    Sound K C { st with db := db } where
  own := h.own
  db := by
    have hdb := h.db
    rwa [Database.Coded, ← hs.leaf, ← hs.code] at hdb
  coherent := h.coherent
  live a := by
    have hlive := h.live a
    rwa [← hs.leaf] at hlive

theorem Sound.act (h : Sound K C st) {x : Act} (hx : x.Uses C) : Sound K C (st.act K x) := by
  rcases act_absorb h.db hx with rfl | ⟨es, hes⟩
  · exact h.commit
  · rw [hes]
    exact h.absorb es

theorem Produced.sound (h : Produced K C st) : Sound K C st := by
  induction h with
  | empty => exact .reload .none
  | act _ hx ih => exact ih.act hx
  | reload _ ih => exact .reload ih.db
  | storeBlock _ hash b receipts ih => exact ih.sameState (Database.sameState_storeBlock _ hash b receipts)
  | writeHeadBlockHash _ hash ih => exact ih.sameState (Database.sameState_writeHeadBlockHash _ hash)
  | writeCanonicalHash _ number hash ih =>
    exact ih.sameState (Database.sameState_writeCanonicalHash _ number hash)

theorem getCode_fst (K : Keccak256) (db : Database) (s : StateDB) (a : Address) :
    (s.getCode K db a).1 = if (accounts K s.getVerkleValue).codeHash a = emptyCodeHash then []
      else ((s.own.code.lookup ((accounts K s.getVerkleValue).codeHash a)).or
        (db.code ((accounts K s.getVerkleValue).codeHash a))).getD [] := by
  have hhash : (StateDB.exec (getCodeHash K a) s).1 = (accounts K s.getVerkleValue).codeHash a :=
    (StateDB.exec_denote (getCodeHash K a) s).1
  unfold StateDB.getCode
  rw [hhash]
  dsimp only
  split
  · rfl
  · cases s.own.code.lookup ((accounts K s.getVerkleValue).codeHash a) with
    | some code => rfl
    | none => cases db.code ((accounts K s.getVerkleValue).codeHash a) <;> rfl

theorem Sound.codeOf (hC : CodesApart K C) (h : Sound K C st) (a : Address) :
    CodeOf K C ((accounts K st.state.getVerkleValue).codeHash a) (st.state.getCode K st.db a).1 := by
  rw [getCode_fst]
  exact (Coded.or h.own h.db).codeOf hC a (congrArg decodeHash (h.live a))

end Sound

end Zephyria
