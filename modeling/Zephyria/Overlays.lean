import Zephyria.Accounts
import Zephyria.Lib.Replay
import Zephyria.Lib.Runs

namespace Zephyria

theorem VerkleTree.get_insert (t : VerkleTree) (key value k : Bytes) :
    (t.insert key value).get k = if value ≠ [] ∧ k = key then value else t.get k := by
  by_cases hv : value = []
  · simp [VerkleTree.insert, VerkleTree.get, hv]
  · by_cases hk : k = key <;> simp [VerkleTree.insert, VerkleTree.get, hv, hk]

theorem VerkleTree.stems_insert (t : VerkleTree) (key value : Bytes) :
    (t.insert key value).stems = Insert.insert (key.take 31) t.stems :=
  rfl

theorem VerkleTree.insert_comm {key key' : Bytes} (hne : key ≠ key') (t : VerkleTree) (value value' : Bytes) :
    (t.insert key value).insert key' value' = (t.insert key' value').insert key value := by
  simp only [VerkleTree.insert, VerkleTree.mk.injEq]
  refine ⟨?_, Set.insert_comm _ _ _⟩
  split <;> split <;> try rfl
  rw [Function.update_comm hne]

namespace StateDB

theorem getVerkleValue_setVerkleValue (s : StateDB) (key value : Bytes) :
    (s.setVerkleValue key value).getVerkleValue = Function.update s.getVerkleValue key value := by
  funext k
  rw [Function.update_apply]
  cases s with
  | base tree own =>
    simp only [setVerkleValue, getVerkleValue]
    by_cases h : k = key
    · subst h
      simp
    · rw [AList.lookup_insert_ne h, if_neg h, VerkleTree.get_insert, if_neg fun hk => h hk.2]
  | overlay parent own =>
    simp only [setVerkleValue, getVerkleValue]
    by_cases h : k = key
    · subst h
      simp
    · rw [AList.lookup_insert_ne h, if_neg h]

@[simp]
theorem getVerkleValue_setOwn_code (s : StateDB) (code : Table Hash Bytes) :
    (s.setOwn { s.own with code := code }).getVerkleValue = s.getVerkleValue := by
  cases s <;> rfl

@[simp]
theorem getVerkleValue_addCode (s : StateDB) (entries : List (Σ _ : Hash, Bytes)) :
    (s.addCode entries).getVerkleValue = s.getVerkleValue :=
  getVerkleValue_setOwn_code s _

theorem getVerkleValue_setAll (s : StateDB) (entries : List (Σ _ : Bytes, Bytes))
    (hn : entries.NodupKeys) (k : Bytes) :
    (s.setAll entries).getVerkleValue k = (entries.dlookup k).getD (s.getVerkleValue k) := by
  have hput (s : StateDB) (key value k' : Bytes) : (s.setVerkleValue key value).getVerkleValue k' =
      if k' = key then id value else s.getVerkleValue k' := by
    rw [getVerkleValue_setVerkleValue, Function.update_apply]
    rfl
  have h := look_replay getVerkleValue setVerkleValue id hput hn s k
  rwa [Option.map_id_fun] at h

theorem getVerkleValue_merge (parent : StateDB) (own : Own) (k : Bytes) :
    (merge (.overlay parent own)).getVerkleValue k =
      (own.dirty.lookup k).getD (parent.getVerkleValue k) := by
  rw [merge, getVerkleValue_addCode, getVerkleValue_setAll _ _ own.dirty.nodupKeys]
  rfl

theorem exec_denote {α : Type} (p : StateM α) (s : StateDB) :
    (exec p s).1 = (p.denote s.getVerkleValue).1 ∧
      (exec p s).2.getVerkleValue = (p.denote s.getVerkleValue).2 := by
  induction p generalizing s with
  | ret a => exact ⟨rfl, rfl⟩
  | get k next ih => exact ih _ s
  | set k v next ih =>
    have h := ih (s.setVerkleValue k v)
    rwa [getVerkleValue_setVerkleValue] at h

theorem exec_bind {α β : Type} (p : StateM α) (f : α → StateM β) (s : StateDB) :
    exec (p >>= f) s = exec (f (exec p s).1) (exec p s).2 := by
  induction p generalizing s with
  | ret a => rfl
  | get k next ih => exact ih _ s
  | set k v next ih => exact ih _

theorem exec_invariant {I : StateDB → Prop} (hset : ∀ s key value, I s → I (s.setVerkleValue key value))
    {α : Type} (p : StateM α) {s : StateDB} (hs : I s) : I (exec p s).2 := by
  induction p generalizing s with
  | ret a => exact hs
  | get k next ih => exact ih _ hs
  | set k v next ih => exact ih (hset s k v hs)

theorem setAll_invariant {I : StateDB → Prop} (hset : ∀ s key value, I s → I (s.setVerkleValue key value))
    {s : StateDB} (hs : I s) (entries : List (Σ _ : Bytes, Bytes)) : I (s.setAll entries) :=
  foldl_invariant (fun s e _ hs => hset s e.1 e.2 hs) hs

end StateDB

def overlayBuffer : Buffer Own Bytes Bytes where
  fresh := .empty
  find own key := own.dirty.lookup key
  write own key value := { own with dirty := own.dirty.insert key value }
  find_fresh _ := rfl
  find_write own key value k := lookup_insert_ite own.dirty key value k

theorem exec_overlay {α : Type} (p : StateM α) (parent : StateDB) (own : Own) :
    StateDB.exec p (.overlay parent own) =
      ((overlayBuffer.run parent.getVerkleValue p own).1,
        .overlay parent (overlayBuffer.run parent.getVerkleValue p own).2) := by
  induction p generalizing own with
  | ret a => rfl
  | get k next ih => exact ih _ own
  | set k v next ih => exact ih _

end Zephyria
