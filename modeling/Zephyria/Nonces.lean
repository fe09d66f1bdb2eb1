import Zephyria.OverlayRefinement

namespace Zephyria

open Relation

/-- A merge that leaves the key alone: the state is merged into its parent, or an overlay on it that
has not written the key is merged into it. -/
inductive StateDB.Merged (key : Bytes) : StateDB → StateDB → Prop
  | own (s : StateDB) {dirty : List (Σ _ : Bytes, Bytes)} (h : dirty.Perm s.own.dirty.entries)
      (code : List (Σ _ : Hash, Bytes)) : Merged key s (s.mergeIn dirty code)
  | child (s : StateDB) {own : Own} (unwritten : own.dirty.lookup key = none)
      {dirty : List (Σ _ : Bytes, Bytes)} (h : dirty.Perm own.dirty.entries) (code : List (Σ _ : Hash, Bytes)) :
      Merged key s ((StateDB.overlay s own).mergeIn dirty code)

section Nonces

variable (K : Keccak256)

def StateDB.nonce (s : StateDB) (addr : Address) : UInt64 := (exec (getNonce K addr) s).1

def incrementNonce (addr : Address) : StateM Unit := do
  let nonce ← getNonce K addr
  setNonce K addr (nonce + 1)

structure NonceFaithful (s : StateDB) (addr : Address) (n : UInt64) : Prop where
  kept : ∀ t, ReflTransGen (StateDB.Merged (nonceKey K addr)) (StateDB.exec (setNonce K addr n) s).2 t →
    t.nonce K addr = n
  increases : n.toNat < 2 ^ 64 - 1 → ∀ t, t.nonce K addr = n → ∀ t',
    ReflTransGen (StateDB.Merged (nonceKey K addr)) (StateDB.exec (incrementNonce K addr) t).2 t' →
      n < t'.nonce K addr

variable {K} {s t : StateDB} {addr : Address} {n : UInt64}

theorem StateDB.Merged.getVerkleValue {key : Bytes} (h : StateDB.Merged key s t) :
    t.getVerkleValue key = s.getVerkleValue key := by
  cases h with
  | own h code =>
    cases s with
    | base tree own => rfl
    | overlay parent own => rw [getVerkleValue_mergeIn parent own h]
  | child unwritten h code =>
    rw [getVerkleValue_mergeIn s _ h]
    rw [StateDB.getVerkleValue, unwritten, Option.getD_none]

theorem nonce_eq (s : StateDB) (addr : Address) :
    s.nonce K addr = (accounts K s.getVerkleValue).nonce addr :=
  (StateDB.exec_denote (getNonce K addr) s).1

theorem nonce_of_merged (h : ReflTransGen (StateDB.Merged (nonceKey K addr)) s t) :
    t.nonce K addr = s.nonce K addr := by
  induction h with
  | refl => rfl
  | tail _ hmerged ih =>
    rw [← ih, nonce_eq, nonce_eq]
    exact congrArg decodeNonce hmerged.getVerkleValue

theorem nonce_setNonce (s : StateDB) (addr : Address) (n : UInt64) :
    (StateDB.exec (setNonce K addr n) s).2.nonce K addr = storedNonce n := by
  rw [nonce_eq, (StateDB.exec_denote _ _).2, accounts_setNonce]
  exact Function.update_self _ _ _

theorem nonce_incrementNonce (s : StateDB) (addr : Address) :
    (StateDB.exec (incrementNonce K addr) s).2.nonce K addr = storedNonce (s.nonce K addr + 1) := by
  rw [incrementNonce, StateDB.exec_bind]
  exact nonce_setNonce s addr _

theorem lt_storedNonce_succ_iff (h : n.toNat < 2 ^ 64 - 1) : n < storedNonce (n + 1) ↔ n.toNat < 2 ^ 63 := by
  have hsucc : (n + 1).toNat = n.toNat + 1 := by
    rw [UInt64.toNat_add, UInt64.toNat_one]
    omega
  rw [UInt64.lt_iff_toNat_lt, toNat_storedNonce, nonceMagnitude, hsucc]
  split <;> omega

theorem nonce_faithful_iff (K : Keccak256) (s : StateDB) (addr : Address) (n : UInt64) :
    NonceFaithful K s addr n ↔ n.toNat < 2 ^ 63 := by
  constructor
  · intro h
    have hread := h.kept _ .refl
    have hle : n.toNat ≤ 2 ^ 63 := storedNonce_eq_iff.mp ((nonce_setNonce s addr n).symm.trans hread)
    -- At the boundary itself the nonce is still read, but the next one is not.
    have hlt := h.increases (by omega) _ hread _ .refl
    rw [nonce_incrementNonce, hread] at hlt
    exact (lt_storedNonce_succ_iff (by omega)).mp hlt
  · intro hn
    constructor
    · intro t ht
      rw [nonce_of_merged ht, nonce_setNonce]
      exact storedNonce_eq_iff.mpr hn.le
    · intro hmax t hread t' ht'
      rw [nonce_of_merged ht', nonce_incrementNonce, hread]
      exact (lt_storedNonce_succ_iff hmax).mpr hn

theorem greatest_nonce_lost :
    (StateDB.exec (setNonce .ideal 2 (-1)) (.new .empty)).2.nonce .ideal 2 = 1 ∧
      (StateDB.exec (incrementNonce .ideal 2)
        (StateDB.exec (setNonce .ideal 2 0x8000000000000000) (.new .empty)).2).2.nonce .ideal 2 =
          0x7fffffffffffffff ∧
      ¬NonceFaithful .ideal (.new .empty) 2 (-1) := by
  have hgreatest : (StateDB.exec (setNonce .ideal 2 (-1)) (.new .empty)).2.nonce .ideal 2 = 1 :=
    nonce_setNonce _ _ _
  refine ⟨hgreatest, ?_, fun h => ?_⟩
  · rw [nonce_incrementNonce, nonce_setNonce]
    decide
  · have hread := h.kept _ .refl
    rw [hgreatest] at hread
    exact absurd hread (by decide)

end Nonces

end Zephyria
