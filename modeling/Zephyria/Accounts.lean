import Zephyria.StateDB

namespace Zephyria

/-- What the state is for: an account book, independent of how keys and values are encoded. -/
@[ext]
structure Accounts where
  balance : Address → U256
  nonce : Address → UInt64
  codeHash : Address → Hash
  storage : Address → Hash → Hash

namespace Accounts

def setBalance (w : Accounts) (a : Address) (v : U256) : Accounts :=
  { w with balance := Function.update w.balance a v }

def setNonce (w : Accounts) (a : Address) (n : UInt64) : Accounts :=
  { w with nonce := Function.update w.nonce a n }

def setCodeHash (w : Accounts) (a : Address) (h : Hash) : Accounts :=
  { w with codeHash := Function.update w.codeHash a h }

def setState (w : Accounts) (a : Address) (k v : Hash) : Accounts :=
  { w with storage := Function.update w.storage a (Function.update (w.storage a) k v) }

def codeOf (w : Accounts) (codes : Hash → Option Bytes) (a : Address) : Bytes :=
  if w.codeHash a = emptyCodeHash then [] else (codes (w.codeHash a)).getD []

section Frame

variable (w : Accounts) (a : Address)

@[simp]
theorem balance_setBalance (v : U256) : (w.setBalance a v).balance = Function.update w.balance a v := rfl

@[simp]
theorem storage_setBalance (v : U256) : (w.setBalance a v).storage = w.storage := rfl

@[simp]
theorem balance_setState (k v : Hash) : (w.setState a k v).balance = w.balance := rfl

@[simp]
theorem nonce_setState (k v : Hash) : (w.setState a k v).nonce = w.nonce := rfl

@[simp]
theorem codeHash_setState (k v : Hash) : (w.setState a k v).codeHash = w.codeHash := rfl

@[simp]
theorem storage_setState_same (k v : Hash) :
    (w.setState a k v).storage a = Function.update (w.storage a) k v := by
  simp [setState]

@[simp]
theorem storage_setState_ne (k v : Hash) {b : Address} (h : b ≠ a) :
    (w.setState a k v).storage b = w.storage b := by
  simp [setState, h]

end Frame

end Accounts

inductive Cell where
  | nonce (a : Address)
  | balance (a : Address)
  | codeHash (a : Address)
  | storage (a : Address) (k : Hash)
deriving DecidableEq

section Keys

variable (K : Keccak256)

def Cell.key : Cell → Bytes
  | .nonce a => nonceKey K a
  | .balance a => balanceKey K a
  | .codeHash a => codeHashKey K a
  | .storage a k => storageKey K a k

theorem stem_append_injective {a b : Address} {s t : UInt8}
    (h : accountStem K a ++ [s] = accountStem K b ++ [t]) : a = b ∧ s = t := by
  obtain ⟨hab, hst⟩ := List.append_inj' h rfl
  exact ⟨K.stem_injective a b hab, by simpa using hst⟩

theorem Cell.key_injective {f g : Cell} (h : f.key K = g.key K) : f = g := by
  cases f with
  | storage a k =>
    cases g with
    | storage b l =>
      obtain ⟨rfl, rfl⟩ := K.storage_injective a b k l h
      rfl
    | nonce b => exact absurd h.symm (K.stem_ne_storage b a 0 k)
    | balance b => exact absurd h.symm (K.stem_ne_storage b a 1 k)
    | codeHash b => exact absurd h.symm (K.stem_ne_storage b a 2 k)
  | nonce a =>
    cases g with
    | storage b l => exact absurd h (K.stem_ne_storage a b 0 l)
    | _ => obtain ⟨rfl, hs⟩ := stem_append_injective K h; simp_all
  | balance a =>
    cases g with
    | storage b l => exact absurd h (K.stem_ne_storage a b 1 l)
    | _ => obtain ⟨rfl, hs⟩ := stem_append_injective K h; simp_all
  | codeHash a =>
    cases g with
    | storage b l => exact absurd h (K.stem_ne_storage a b 2 l)
    | _ => obtain ⟨rfl, hs⟩ := stem_append_injective K h; simp_all

theorem update_key (m : Bytes → Bytes) (f g : Cell) (v : Bytes) :
    Function.update m (f.key K) v (g.key K) = if g = f then v else m (g.key K) := by
  rw [Function.update_apply]
  by_cases h : g = f
  · rw [if_pos h, if_pos (congrArg (Cell.key K) h)]
  · rw [if_neg h, if_neg fun hk => h (Cell.key_injective K hk)]

end Keys

def decodeBalance (val : Bytes) : U256 := if val.length = 0 then 0 else BitVec.ofNat 256 (BigEndian.value val)

def decodeNonce (val : Bytes) : UInt64 := if val.length = 0 then 0 else UInt64.ofNat (BigEndian.value val)

def decodeHash (val : Bytes) : Hash := if val.length = 0 then 0 else bytesToHash val

theorem decodeBalance_eq (val : Bytes) : decodeBalance val = BitVec.ofNat 256 (BigEndian.value val) := by
  cases val with
  | nil => rfl
  | cons b bs => simp [decodeBalance]

theorem decodeNonce_eq (val : Bytes) : decodeNonce val = UInt64.ofNat (BigEndian.value val) := by
  cases val with
  | nil => rfl
  | cons b bs => simp [decodeNonce]

theorem decodeHash_eq (val : Bytes) : decodeHash val = bytesToHash val := by
  cases val with
  | nil => rfl
  | cons b bs => simp [decodeHash]

@[simp]
theorem decodeBalance_minimal (v : U256) : decodeBalance (BigEndian.minimal 32 v.toNat) = v := by
  have hv : v.toNat % 256 ^ 32 = v.toNat := Nat.mod_eq_of_lt v.isLt
  rw [decodeBalance_eq, BigEndian.value_minimal, hv, BitVec.ofNat_toNat, BitVec.setWidth_eq]

@[simp]
theorem decodeHash_hashBytes (h : Hash) : decodeHash (hashBytes h) = h := by
  rw [decodeHash_eq, bytesToHash_hashBytes]

def storedNonce (n : UInt64) : UInt64 := UInt64.ofNat (nonceMagnitude n)

theorem nonceMagnitude_lt (n : UInt64) : nonceMagnitude n < 2 ^ 64 := by
  have hn := n.toNat_lt
  unfold nonceMagnitude
  split <;> omega

theorem toNat_storedNonce (n : UInt64) : (storedNonce n).toNat = nonceMagnitude n :=
  UInt64.toNat_ofNat_of_lt (nonceMagnitude_lt n)

theorem storedNonce_eq_iff {n : UInt64} : storedNonce n = n ↔ n.toNat ≤ 2 ^ 63 := by
  have hn := n.toNat_lt
  rw [← UInt64.toNat_inj, toNat_storedNonce, nonceMagnitude]
  split <;> omega

@[simp]
theorem decodeNonce_minimal (n : UInt64) :
    decodeNonce (BigEndian.minimal 8 (nonceMagnitude n)) = storedNonce n := by
  have hm : nonceMagnitude n < 256 ^ 8 := nonceMagnitude_lt n
  rw [decodeNonce_eq, BigEndian.value_minimal, Nat.mod_eq_of_lt hm, storedNonce]

section View

variable (K : Keccak256) (m : Bytes → Bytes)

def accounts : Accounts where
  balance a := decodeBalance (m (balanceKey K a))
  nonce a := decodeNonce (m (nonceKey K a))
  codeHash a := decodeHash (m (codeHashKey K a))
  storage a k := decodeHash (m (storageKey K a k))

@[simp]
theorem denote_getBalance (a : Address) : (getBalance K a).denote m = ((accounts K m).balance a, m) := (rfl)

@[simp]
theorem denote_getNonce (a : Address) : (getNonce K a).denote m = ((accounts K m).nonce a, m) := (rfl)

@[simp]
theorem denote_getCodeHash (a : Address) :
    (getCodeHash K a).denote m = ((accounts K m).codeHash a, m) := (rfl)

@[simp]
theorem denote_getState (a : Address) (k : Hash) :
    (getState K a k).denote m = ((accounts K m).storage a k, m) := (rfl)

@[simp]
theorem accounts_ite {α : Type} {c : Prop} [Decidable c] (x y : α × (Bytes → Bytes)) :
    accounts K (if c then x else y).2 = if c then accounts K x.2 else accounts K y.2 := by
  split <;> rfl

theorem accounts_update (f : Cell) (v : Bytes) : accounts K (Function.update m (f.key K) v) =
    match f with
    | .nonce a => (accounts K m).setNonce a (decodeNonce v)
    | .balance a => (accounts K m).setBalance a (decodeBalance v)
    | .codeHash a => (accounts K m).setCodeHash a (decodeHash v)
    | .storage a k => (accounts K m).setState a k (decodeHash v) := by
  have hb (b : Address) := update_key K m f (.balance b) v
  have hn (b : Address) := update_key K m f (.nonce b) v
  have hc (b : Address) := update_key K m f (.codeHash b) v
  have hs (b : Address) (l : Hash) := update_key K m f (.storage b l) v
  have he : accounts K (Function.update m (f.key K) v) =
      { balance := fun b => decodeBalance (if Cell.balance b = f then v else m (balanceKey K b))
        nonce := fun b => decodeNonce (if Cell.nonce b = f then v else m (nonceKey K b))
        codeHash := fun b => decodeHash (if Cell.codeHash b = f then v else m (codeHashKey K b))
        storage := fun b l => decodeHash (if Cell.storage b l = f then v else m (storageKey K b l)) } := by
    simp only [accounts, Accounts.mk.injEq]
    exact ⟨funext fun b => congrArg _ (hb b), funext fun b => congrArg _ (hn b),
      funext fun b => congrArg _ (hc b), funext fun b => funext fun l => congrArg _ (hs b l)⟩
  rw [he]
  cases f with
  | nonce a =>
    simp only [accounts, Accounts.setNonce, Accounts.mk.injEq, reduceCtorEq, if_false, true_and, and_true]
    funext b
    by_cases h : b = a <;> simp [h]
  | balance a =>
    simp only [accounts, Accounts.setBalance, Accounts.mk.injEq, reduceCtorEq, if_false, and_true]
    funext b
    by_cases h : b = a <;> simp [h]
  | codeHash a =>
    simp only [accounts, Accounts.setCodeHash, Accounts.mk.injEq, reduceCtorEq, if_false, true_and, and_true]
    funext b
    by_cases h : b = a <;> simp [h]
  | storage a k =>
    simp only [accounts, Accounts.setState, Accounts.mk.injEq, reduceCtorEq, if_false, true_and]
    funext b l
    by_cases h : b = a
    · by_cases hl : l = k <;> simp [h, hl]
    · simp [h]

@[simp]
theorem accounts_setBalance (a : Address) (v : U256) :
    accounts K ((setBalance K a v).denote m).2 = (accounts K m).setBalance a v := by
  have h := accounts_update K m (.balance a) (BigEndian.minimal 32 v.toNat)
  rwa [decodeBalance_minimal] at h

@[simp]
theorem accounts_setNonce (a : Address) (n : UInt64) :
    accounts K ((setNonce K a n).denote m).2 = (accounts K m).setNonce a (storedNonce n) := by
  have h := accounts_update K m (.nonce a) (BigEndian.minimal 8 (nonceMagnitude n))
  rwa [decodeNonce_minimal] at h

@[simp]
theorem accounts_setCodeHash (a : Address) (v : Hash) :
    accounts K ((setCodeHash K a v).denote m).2 = (accounts K m).setCodeHash a v := by
  have h := accounts_update K m (.codeHash a) (hashBytes v)
  rwa [decodeHash_hashBytes] at h

@[simp]
theorem accounts_setState (a : Address) (k v : Hash) :
    accounts K ((setState K a k v).denote m).2 = (accounts K m).setState a k v := by
  have h := accounts_update K m (.storage a k) (hashBytes v)
  rwa [decodeHash_hashBytes] at h

@[simp]
theorem denote_setState_fst (a : Address) (k v : Hash) :
    ((setState K a k v).denote m).1 = (accounts K m).storage a k := (rfl)

@[simp]
theorem denote_getCode (codes : Hash → Option Bytes) (a : Address) :
    (getCode K codes a).denote m = ((accounts K m).codeOf codes a, m) := (rfl)

@[simp]
theorem denote_addBalance_fst (a : Address) (v : U256) :
    ((addBalance K a v).denote m).1 = (accounts K m).balance a + v := (rfl)

@[simp]
theorem accounts_addBalance (a : Address) (v : U256) :
    accounts K ((addBalance K a v).denote m).2 =
      (accounts K m).setBalance a ((accounts K m).balance a + v) := by
  simp [addBalance]

@[simp]
theorem accounts_subBalance (a : Address) (v : U256) :
    accounts K ((subBalance K a v).denote m).2 =
      (accounts K m).setBalance a ((accounts K m).balance a + -v) :=
  accounts_addBalance K m a (-v)

end View

end Zephyria
