import Zephyria.Lib.Keccak
import Zephyria.Lib.StoreProgram
import Zephyria.Types

namespace Zephyria

/-- `crypto.Keccak256`, with the assumption that no two of the keys derived from it collide. -/
structure Keccak256 where
  sum : Bytes → Bytes
  stem_injective : ∀ a b : Address,
    (sum (addressBytes a)).take 31 = (sum (addressBytes b)).take 31 → a = b
  storage_injective : ∀ (a b : Address) (k l : Hash),
    sum (addressBytes a ++ hashBytes k) = sum (addressBytes b ++ hashBytes l) → a = b ∧ k = l
  stem_ne_storage : ∀ (a b : Address) (suffix : UInt8) (k : Hash),
    (sum (addressBytes a)).take 31 ++ [suffix] ≠ sum (addressBytes b ++ hashBytes k)

/-- Keccak-256 on the views of the consensus, and free of collisions on everything longer. -/
def idealSum (bs : Bytes) : Bytes := if bs.length ≤ 8 then Keccak.keccak256 bs else bs

theorem idealSum_addressBytes (a : Address) : idealSum (addressBytes a) = addressBytes a :=
  if_neg (by simp [addressBytes, BigEndian.fixed_length])

theorem idealSum_storage (a : Address) (k : Hash) :
    idealSum (addressBytes a ++ hashBytes k) = addressBytes a ++ hashBytes k :=
  if_neg (by simp [addressBytes, hashBytes, BigEndian.fixed_length])

def Keccak256.ideal : Keccak256 where
  sum := idealSum
  stem_injective a b h := by
    have ht (x : Address) : (idealSum (addressBytes x)).take 31 = addressBytes x := by
      rw [idealSum_addressBytes, List.take_of_length_le (by simp [addressBytes, BigEndian.fixed_length])]
    exact addressBytes_injective (by simpa only [ht] using h)
  storage_injective a b k l h := by
    rw [idealSum_storage, idealSum_storage] at h
    obtain ⟨ha, hk⟩ := List.append_inj h (by simp [addressBytes, BigEndian.fixed_length])
    exact ⟨addressBytes_injective ha, hashBytes_injective hk⟩
  stem_ne_storage a b suffix k h := by
    rw [idealSum_storage, idealSum_addressBytes] at h
    have hl := congrArg List.length h
    simp [addressBytes, hashBytes, BigEndian.fixed_length] at hl

/-- The Verkle tree as the map it answers, with the stems of its leaves. Updating a leaf skips
zero-length values, but the leaf is there, and its commitment enters the root. -/
structure VerkleTree where
  values : Bytes → Bytes
  stems : Set Bytes

def VerkleTree.empty : VerkleTree := ⟨fun _ => [], ∅⟩

def VerkleTree.get (t : VerkleTree) (key : Bytes) : Bytes := t.values key

def VerkleTree.insert (t : VerkleTree) (key value : Bytes) : VerkleTree where
  values := if value = [] then t.values else Function.update t.values key value
  stems := Insert.insert (key.take 31) t.stems

abbrev Table (κ ν : Type) := AList (fun _ : κ => ν)

structure Own where
  dirty : Table Bytes Bytes
  code : Table Hash Bytes

def Own.empty : Own := ⟨∅, ∅⟩

inductive StateDB where
  | base (tree : VerkleTree) (own : Own)
  | overlay (parent : StateDB) (own : Own)

namespace StateDB

def own : StateDB → Own
  | .base _ own => own
  | .overlay _ own => own

def setOwn : StateDB → Own → StateDB
  | .base tree _, own => .base tree own
  | .overlay parent _, own => .overlay parent own

def newOverlay (s : StateDB) : StateDB := .overlay s .empty

def getVerkleValue : StateDB → Bytes → Bytes
  | .base tree own, key => (own.dirty.lookup key).getD (tree.get key)
  | .overlay parent own, key => (own.dirty.lookup key).getD (parent.getVerkleValue key)

def setVerkleValue : StateDB → Bytes → Bytes → StateDB
  | .base tree own, key, value =>
    .base (tree.insert key value) { own with dirty := own.dirty.insert key value }
  | .overlay parent own, key, value => .overlay parent { own with dirty := own.dirty.insert key value }

def setAll (s : StateDB) (entries : List (Σ _ : Bytes, Bytes)) : StateDB :=
  entries.foldl (fun s e => s.setVerkleValue e.1 e.2) s

def addCode (s : StateDB) (entries : List (Σ _ : Hash, Bytes)) : StateDB :=
  s.setOwn { s.own with code := entries.foldl (fun c e => c.insert e.1 e.2) s.own.code }

def merge : StateDB → StateDB
  | .base tree own => .base tree own
  | .overlay parent own => (parent.setAll own.dirty.entries).addCode own.code.entries

def leafPrefix : UInt8 := 118 -- 'v'

def codePrefix : UInt8 := 99 -- 'c'

def storedStems (db : Database) : Set Bytes := {stem | ∃ key, key.take 31 = stem ∧ db.getRaw (leafPrefix :: key) ≠ none}

/-- `state.New` inserts every stored leaf once into an empty tree and ignores the root it is given. -/
def new (db : Database) : StateDB :=
  .base ⟨fun key => (db.getRaw (leafPrefix :: key)).getD [], storedStems db⟩ .empty

def commit (s : StateDB) : StateDB × List (Bytes × Bytes) :=
  (s.setOwn { s.own with dirty := ∅ },
    s.own.dirty.entries.map (fun e => (leafPrefix :: e.1, e.2)) ++
      s.own.code.entries.map (fun e => (codePrefix :: hashBytes e.1, e.2)))

def exec {α : Type} : Prog Bytes Bytes α → StateDB → α × StateDB
  | .ret a, s => (a, s)
  | .get key next, s => exec (next (s.getVerkleValue key)) s
  | .set key value next, s => exec next (s.setVerkleValue key value)

end StateDB

abbrev StateM := Prog Bytes Bytes

section Accessors

variable (K : Keccak256)

def accountStem (addr : Address) : Bytes := (K.sum (addressBytes addr)).take 31

def nonceKey (addr : Address) : Bytes := accountStem K addr ++ [0]

def balanceKey (addr : Address) : Bytes := accountStem K addr ++ [1]

def codeHashKey (addr : Address) : Bytes := accountStem K addr ++ [2]

def storageKey (addr : Address) (key : Hash) : Bytes := K.sum (addressBytes addr ++ hashBytes key)

def getBalance (addr : Address) : StateM U256 := do
  let val ← Prog.read (balanceKey K addr)
  pure (if val.length = 0 then 0 else BitVec.ofNat 256 (BigEndian.value val))

def setBalance (addr : Address) (amount : U256) : StateM Unit :=
  Prog.write (balanceKey K addr) (BigEndian.minimal 32 amount.toNat)

def addBalance (addr : Address) (amount : U256) : StateM U256 := do
  let cur ← getBalance K addr
  setBalance K addr (cur + amount)
  pure (cur + amount)

def subBalance (addr : Address) (amount : U256) : StateM U256 := addBalance K addr (-amount)

def getNonce (addr : Address) : StateM UInt64 := do
  let val ← Prog.read (nonceKey K addr)
  pure (if val.length = 0 then 0 else UInt64.ofNat (BigEndian.value val))

def nonceMagnitude (nonce : UInt64) : ℕ :=
  if nonce.toNat < 2 ^ 63 then nonce.toNat else 2 ^ 64 - nonce.toNat

def setNonce (addr : Address) (nonce : UInt64) : StateM Unit :=
  Prog.write (nonceKey K addr) (BigEndian.minimal 8 (nonceMagnitude nonce))

def getCodeHash (addr : Address) : StateM Hash := do
  let val ← Prog.read (codeHashKey K addr)
  pure (if val.length = 0 then 0 else bytesToHash val)

def setCodeHash (addr : Address) (hash : Hash) : StateM Unit :=
  Prog.write (codeHashKey K addr) (hashBytes hash)

def getState (addr : Address) (key : Hash) : StateM Hash := do
  let val ← Prog.read (storageKey K addr key)
  pure (if val.length = 0 then 0 else bytesToHash val)

def setState (addr : Address) (key value : Hash) : StateM Hash := do
  let oldVal ← getState K addr key
  Prog.write (storageKey K addr key) (hashBytes value)
  pure oldVal

def selfDestruct (addr : Address) : StateM U256 := do
  let bal ← getBalance K addr
  setBalance K addr 0
  pure bal

def emptyCodeHash : Hash := 0xc5d2460186f7233c927e7db2dcc703c0e500b653ca82273b7bfad8045d85a470

/-- `codes` is where the state looks a code hash up: on an overlay that has set no code, only the
database. -/
def getCode (codes : Hash → Option Bytes) (addr : Address) : StateM Bytes := do
  let hash ← getCodeHash K addr
  pure (if hash = emptyCodeHash then [] else (codes hash).getD [])

def StateDB.setCode (s : StateDB) (addr : Address) (code : Bytes) : StateDB :=
  let h := bytesToHash (K.sum code)
  (StateDB.exec (setCodeHash K addr h) s).2.addCode [⟨h, code⟩]

end Accessors

end Zephyria
