import Zephyria.Codes
import Zephyria.Lib.Loops
import Zephyria.VerkleRuns

/-!
A base state with the tree it owns, beside the database that its commits go to and its restarts read from.
-/

namespace Zephyria.Verkle

structure TreeStore (P : Type) where
  tree : VerkleNode P
  dirty : Table Bytes Bytes
  db : Database

/-- `Merge` sets the entries of an overlay one after the other. A restart reads the stored leaves in the order
in which the iterator hands them out. -/
inductive StoreOp where
  | set (key value : Bytes)
  | commit
  | restart (leaves : List (Bytes × Bytes))

def StoreOp.Fits (st : Store) : StoreOp → Prop
  | .set key value => key.length = 32 ∧ value.length ≤ 32
  | .commit => True
  | .restart leaves => Enumerates (fun e e' => e.1 < e'.1) (fun e => st.db.leaf e.1 = some e.2) leaves

def Store.op (st : Store) : StoreOp → Store
  | .set key value => { st with state := st.state.setVerkleValue key value }
  | .commit => ⟨(persistState st.state st.db).1, (persistState st.state st.db).2⟩
  | .restart _ => .reload st.db

def StoreOp.Keeps (st : Store) : StoreOp → Prop
  | .set key value => value = [] → st.state.getVerkleValue key = []
  | _ => True

def Along (ok : Store → StoreOp → Prop) : List StoreOp → Store → Prop
  | [], _ => True
  | op :: ops, st => ok st op ∧ Along ok ops (Store.op st op)

namespace TreeStore

variable {F P : Type} [CommRing F] [DecidableEq F] [AddCommGroup P] [Module F P] (cfg : Config F P)

def new (leaves : List (Bytes × Bytes)) : Option (VerkleNode P) :=
  leaves.foldlM (fun n e => n.insert cfg e.1 e.2) VerkleNode.newInternalNode

def getVerkleValue (st : TreeStore P) (key : Bytes) : Bytes :=
  (st.dirty.lookup key).getD ((st.tree.get key).getD [])

def op (st : TreeStore P) : StoreOp → Option (TreeStore P)
  | .set key value => do
    let tree ← st.tree.insert cfg key value
    some { st with tree := tree, dirty := st.dirty.insert key value }
  | .commit => some
    ⟨st.tree.commit cfg, ∅, st.db.write (st.dirty.entries.map fun e => (StateDB.leafPrefix :: e.1, e.2))⟩
  | .restart leaves => do
    let tree ← new cfg leaves
    some { st with tree := tree, dirty := ∅ }

def start : TreeStore P := ⟨VerkleNode.newInternalNode, ∅, .empty⟩

def run (ops : List StoreOp) : Option (TreeStore P) := ops.foldlM (op cfg) start

structure Refines (c : TreeStore P) (st : Store) (t : VerkleTree) : Prop where
  db : c.db = st.db
  state : st.state = .base t ⟨c.dirty, ∅⟩
  tree : Represents cfg c.tree t
  dirty_fits : ∀ key value, c.dirty.lookup key = some value → key.length = 32 ∧ value.length ≤ 32
  leaf_fits : ∀ key value, c.db.leaf key = some value → key.length = 32 ∧ value.length ≤ 32

variable {cfg} {c : TreeStore P} {st : Store} {t : VerkleTree}

omit [DecidableEq F] in
variable (cfg) in
theorem refines_start : Refines cfg start (.reload .empty) .empty where
  db := rfl
  state := by
    have hstems : StateDB.storedStems .empty = ∅ :=
      Set.eq_empty_of_forall_notMem fun stem ⟨key, _, hne⟩ => hne rfl
    rw [Store.reload, StateDB.new, hstems]
    rfl
  tree := represents_new
  dirty_fits _ _ h := by cases h
  leaf_fits _ _ h := by cases h

section Leaves

variable {leaves : List (Bytes × Bytes)}

theorem get_foldl_of_ne {key : Bytes} (h : ∀ e ∈ leaves, e.1 ≠ key) (t : VerkleTree) :
    (leaves.foldl (fun t e => t.insert e.1 e.2) t).get key = t.get key := by
  induction leaves generalizing t with
  | nil => rfl
  | cons e leaves ih =>
    rw [List.foldl_cons, ih (fun e' he' => h e' (List.mem_cons_of_mem e he')), VerkleTree.get_insert,
      if_neg fun hkey => h e List.mem_cons_self hkey.2.symm]

theorem get_foldl_leaves (hdistinct : leaves.Pairwise fun e e' => e.1 ≠ e'.1) {key : Bytes} {o : Option Bytes}
    (h : ∀ v, (key, v) ∈ leaves ↔ o = some v) {t : VerkleTree} (ht : t.get key = []) :
    (leaves.foldl (fun t e => t.insert e.1 e.2) t).get key = o.getD [] := by
  induction leaves generalizing t with
  | nil =>
    cases o with
    | none => exact ht
    | some v => cases (h v).mpr rfl
  | cons e leaves ih =>
    obtain ⟨hfirst, hrest⟩ := List.pairwise_cons.mp hdistinct
    by_cases hkey : e.1 = key
    · have ho : o = some e.2 := (h e.2).mp (by rw [← hkey]; exact List.mem_cons_self)
      rw [List.foldl_cons, get_foldl_of_ne fun e' he' heq => hfirst e' he' (hkey.trans heq.symm), ho,
        VerkleTree.get_insert, Option.getD_some]
      by_cases hv : e.2 = []
      · rw [if_neg fun hc => hc.1 hv, ht, hv]
      · rw [if_pos ⟨hv, hkey.symm⟩]
    · refine ih hrest (fun v => ?_) ?_
      · rw [← h v, List.mem_cons, or_iff_right]
        rintro rfl
        exact hkey rfl
      · rw [VerkleTree.get_insert, if_neg fun hc => hkey hc.2.symm, ht]

theorem mem_stems_foldl (t : VerkleTree) (stem : Stem) :
    stem ∈ (leaves.foldl (fun t e => t.insert e.1 e.2) t).stems ↔
      stem ∈ t.stems ∨ ∃ e ∈ leaves, e.1.take 31 = stem := by
  induction leaves generalizing t with
  | nil => simp
  | cons e leaves ih =>
    rw [List.foldl_cons, ih, VerkleTree.stems_insert, Set.mem_insert_iff, List.exists_mem_cons_iff, eq_comm]
    tauto

variable (cfg) in
theorem exists_new {db : Database} (hleaves : Enumerates (fun e e' => e.1 < e'.1) (fun e => db.leaf e.1 = some e.2) leaves)
    (hfits : ∀ key value, db.leaf key = some value → key.length = 32 ∧ value.length ≤ 32) :
    ∃ n, new cfg leaves = some n ∧ Represents cfg n ⟨fun key => (db.leaf key).getD [], StateDB.storedStems db⟩ := by
  have hops : ∀ op ∈ leaves.map fun e => TreeOp.insert e.1 e.2, op.Fits := by
    intro op hop
    obtain ⟨e, he, rfl⟩ := List.mem_map.mp hop
    exact hfits e.1 e.2 ((hleaves.mem_iff e).mp he)
  obtain ⟨n, hrun, h⟩ := exists_run cfg hops
  rw [Verkle.run, List.foldlM_map] at hrun
  rw [List.foldl_map] at h
  have hdistinct : leaves.Pairwise fun e e' => e.1 ≠ e'.1 := by
    refine hleaves.ordered.imp ?_
    intro e e' hlt heq
    rw [heq] at hlt
    exact List.lt_irrefl _ hlt
  refine ⟨n, hrun, h.valid, fun stem suffix hstem => ?_, fun stem hstem => ?_⟩
  · rw [h.values stem suffix hstem]
    exact get_foldl_leaves hdistinct (fun v => hleaves.mem_iff _) rfl
  · rw [h.stems stem hstem]
    refine (mem_stems_foldl .empty stem).trans ?_
    rw [or_iff_right (show stem ∉ VerkleTree.empty.stems from id)]
    constructor
    · rintro ⟨e, he, hstem⟩
      have hleaf : db.leaf e.1 = some e.2 := (hleaves.mem_iff e).mp he
      exact ⟨e.1, hstem, fun hnone => by cases hleaf.symm.trans hnone⟩
    · rintro ⟨key, hstem, hne⟩
      obtain ⟨v, hv⟩ := Option.ne_none_iff_exists'.mp hne
      exact ⟨(key, v), (hleaves.mem_iff _).mpr hv, hstem⟩

end Leaves

def durable (c : TreeStore P) (key : Bytes) : Option Bytes := (c.dirty.lookup key).or (c.db.leaf key)

theorem lookup_insert_eq (t : Table Bytes Bytes) (key value key' : Bytes) :
    (t.insert key value).lookup key' = if key' = key then some value else t.lookup key' := by
  by_cases h : key' = key
  · rw [h, AList.lookup_insert, if_pos rfl]
  · rw [AList.lookup_insert_ne h, if_neg h]

theorem Refines.exists_set (h : Refines cfg c st t) {key value : Bytes} (hop : (StoreOp.set key value).Fits st) :
    ∃ c', op cfg c (.set key value) = some c' ∧ c'.dirty = c.dirty.insert key value ∧ c'.db = c.db ∧
      Refines cfg c' (Store.op st (.set key value)) (t.insert key value) := by
  obtain ⟨tree, hinsert, htree⟩ := h.tree.exists_insert hop.1 hop.2
  refine ⟨⟨tree, c.dirty.insert key value, c.db⟩, ?_, rfl, rfl, h.db, ?_, htree, ?_, h.leaf_fits⟩
  · rw [op, hinsert]
    rfl
  · rw [Store.op, h.state]
    rfl
  · intro key' value' hlookup
    rw [lookup_insert_eq] at hlookup
    split at hlookup
    next heq =>
      obtain rfl := Option.some.inj hlookup
      exact heq ▸ hop
    next => exact h.dirty_fits key' value' hlookup

theorem Refines.exists_commit (h : Refines cfg c st t) :
    ∃ c', op cfg c .commit = some c' ∧ c'.dirty = ∅ ∧ c'.db.leaf = c.durable ∧
      Refines cfg c' (Store.op st .commit) t := by
  have hdb : st.db.write st.state.commit.2 =
      c.db.write (c.dirty.entries.map fun e => (StateDB.leafPrefix :: e.1, e.2)) := by
    rw [h.state, ← h.db]
    simp [StateDB.commit, StateDB.own]
  have hleaf : (c.db.write (c.dirty.entries.map fun e => (StateDB.leafPrefix :: e.1, e.2))).leaf = c.durable := by
    funext key
    rw [← hdb, Database.leaf_write_commit, h.state, ← h.db]
    rfl
  refine ⟨_, rfl, rfl, hleaf, hdb.symm, ?_, h.tree.commit, fun _ _ hlookup => ?_, fun key value hvalue => ?_⟩
  · rw [Store.op, persistState, h.state]
    rfl
  · cases hlookup
  · rw [hleaf, durable, Option.or_eq_some_iff] at hvalue
    obtain hdirty | ⟨-, hstored⟩ := hvalue
    · exact h.dirty_fits key value hdirty
    · exact h.leaf_fits key value hstored

theorem Refines.exists_restart (h : Refines cfg c st t) {leaves : List (Bytes × Bytes)}
    (hop : (StoreOp.restart leaves).Fits st) :
    ∃ c', op cfg c (.restart leaves) = some c' ∧ c'.dirty = ∅ ∧ c'.db = c.db ∧
      Refines cfg c' (Store.op st (.restart leaves)) ⟨fun key => (c.db.leaf key).getD [], StateDB.storedStems c.db⟩ := by
  obtain ⟨tree, hnew, htree⟩ := exists_new cfg (by rw [h.db]; exact hop) h.leaf_fits
  refine ⟨⟨tree, ∅, c.db⟩, ?_, rfl, rfl, h.db, ?_, htree, fun _ _ hlookup => ?_, h.leaf_fits⟩
  · rw [op, hnew]
    rfl
  · rw [Store.op, ← h.db]
    rfl
  · cases hlookup

theorem Refines.exists_op (h : Refines cfg c st t) {o : StoreOp} (ho : o.Fits st) :
    ∃ c' t', op cfg c o = some c' ∧ Refines cfg c' (Store.op st o) t' := by
  cases o with
  | set key value =>
    obtain ⟨c', hop, -, -, h'⟩ := h.exists_set ho
    exact ⟨c', _, hop, h'⟩
  | commit =>
    obtain ⟨c', hop, -, -, h'⟩ := h.exists_commit
    exact ⟨c', _, hop, h'⟩
  | restart leaves =>
    obtain ⟨c', hop, -, -, h'⟩ := h.exists_restart ho
    exact ⟨c', _, hop, h'⟩

theorem Refines.exists_run (h : Refines cfg c st t) {ops : List StoreOp} (hops : Along StoreOp.Fits ops st) :
    ∃ c' t', ops.foldlM (op cfg) c = some c' ∧ Refines cfg c' (ops.foldl Store.op st) t' := by
  induction ops generalizing c st t with
  | nil => exact ⟨c, t, rfl, h⟩
  | cons o ops ih =>
    obtain ⟨c', t', hop, h'⟩ := h.exists_op hops.1
    obtain ⟨c'', t'', hrun, h''⟩ := ih h' hops.2
    refine ⟨c'', t'', ?_, h''⟩
    rw [List.foldlM_cons, hop]
    exact hrun

omit [DecidableEq F] in
/-- The root is that of the map and its stems, as `Executor.rootHash` takes it. -/
theorem Refines.root_eq {c' : TreeStore P} {st' : Store} (h : Refines cfg c st t) (h' : Refines cfg c' st' t) :
    c.tree.intermediateRoot cfg = c'.tree.intermediateRoot cfg :=
  h.tree.root_eq h'.tree rfl fun _ _ => SameLeaf.refl _

omit [DecidableEq F] in
theorem Refines.getVerkleValue_eq (h : Refines cfg c st t) {key : Bytes} (hkey : key.length = 32) :
    c.getVerkleValue key = st.state.getVerkleValue key := by
  rw [getVerkleValue, h.tree.get_eq hkey, h.state]
  rfl

variable (cfg) in
theorem treeStore_answers {ops : List StoreOp} (hops : Along StoreOp.Fits ops (.reload .empty)) :
    ∃ c, run cfg ops = some c ∧ c.db = (ops.foldl Store.op (.reload .empty)).db ∧
      ∀ key, key.length = 32 →
        c.getVerkleValue key = (ops.foldl Store.op (.reload .empty)).state.getVerkleValue key := by
  obtain ⟨c, t, hrun, h⟩ := (refines_start cfg).exists_run hops
  exact ⟨c, hrun, h.db, fun key hkey => h.getVerkleValue_eq hkey⟩

structure Kept (c : TreeStore P) (t : VerkleTree) : Prop where
  values : ∀ key, t.get key = (c.durable key).getD []
  stems : ∀ stem, stem ∈ t.stems ↔ ∃ key, key.take 31 = stem ∧ c.durable key ≠ none

omit [AddCommGroup P] in
theorem Kept.set (h : Kept c t) {key value : Bytes} (hempty : value = [] → t.get key = []) {c' : TreeStore P}
    (hdirty : c'.dirty = c.dirty.insert key value) (hdb : c'.db = c.db) :
    Kept c' (t.insert key value) := by
  have hdurable (key' : Bytes) : c'.durable key' = if key' = key then some value else c.durable key' := by
    rw [durable, hdirty, hdb, lookup_insert_eq]
    split
    next => rfl
    next => rfl
  constructor
  · intro key'
    rw [hdurable, VerkleTree.get_insert]
    by_cases hkey : key' = key
    · rw [if_pos hkey, Option.getD_some]
      by_cases hv : value = []
      · rw [if_neg fun hc => hc.1 hv, hkey, hempty hv, hv]
      · rw [if_pos ⟨hv, hkey⟩]
    · rw [if_neg fun hc => hkey hc.2, if_neg hkey, h.values]
  · intro stem
    rw [VerkleTree.stems_insert, Set.mem_insert_iff, h.stems]
    constructor
    · rintro (rfl | ⟨key', hstem, hne⟩)
      · exact ⟨key, rfl, by rw [hdurable, if_pos rfl]; simp⟩
      · refine ⟨key', hstem, ?_⟩
        rw [hdurable]
        split
        · simp
        · exact hne
    · rintro ⟨key', hstem, hne⟩
      rw [hdurable] at hne
      by_cases hkey : key' = key
      · exact .inl (hkey ▸ hstem.symm)
      · rw [if_neg hkey] at hne
        exact .inr ⟨key', hstem, hne⟩

omit [DecidableEq F] in
theorem Kept.get_eq (h : Kept c t) (href : Refines cfg c st t) (key : Bytes) :
    t.get key = st.state.getVerkleValue key := by
  have hread : st.state.getVerkleValue key = (c.dirty.lookup key).getD (t.get key) := by
    rw [href.state]
    rfl
  rw [hread, h.values, durable]
  cases c.dirty.lookup key <;> rfl

omit [AddCommGroup P] in
theorem durable_of_clean (h : c.dirty = ∅) (key : Bytes) : c.durable key = c.db.leaf key := by
  rw [durable, h]
  rfl

theorem Kept.exists_op (h : Kept c t) (href : Refines cfg c st t) {o : StoreOp} (hfits : o.Fits st)
    (hkeeps : o.Keeps st) :
    ∃ c' t', op cfg c o = some c' ∧ Refines cfg c' (Store.op st o) t' ∧ Kept c' t' := by
  cases o with
  | set key value =>
    obtain ⟨c', hop, hdirty, hdb, href'⟩ := href.exists_set hfits
    exact ⟨c', _, hop, href', h.set (fun hv => (h.get_eq href key).trans (hkeeps hv)) hdirty hdb⟩
  | commit =>
    obtain ⟨c', hop, hdirty, hleaf, href'⟩ := href.exists_commit
    refine ⟨c', _, hop, href', ?_, ?_⟩
    · intro key
      rw [durable_of_clean hdirty, hleaf, h.values]
    · intro stem
      simp only [durable_of_clean hdirty, hleaf, h.stems]
  | restart leaves =>
    obtain ⟨c', hop, hdirty, hdb, href'⟩ := href.exists_restart hfits
    refine ⟨c', _, hop, href', ?_, ?_⟩
    · intro key
      rw [durable_of_clean hdirty, hdb]
      rfl
    · intro stem
      simp only [durable_of_clean hdirty, hdb]
      rfl

theorem Kept.exists_run (h : Kept c t) (href : Refines cfg c st t) {ops : List StoreOp}
    (hfits : Along StoreOp.Fits ops st) (hkeeps : Along StoreOp.Keeps ops st) :
    ∃ c' t', ops.foldlM (op cfg) c = some c' ∧ Refines cfg c' (ops.foldl Store.op st) t' ∧ Kept c' t' := by
  induction ops generalizing c st t with
  | nil => exact ⟨c, t, rfl, href, h⟩
  | cons o ops ih =>
    obtain ⟨c', t', hop, href', h'⟩ := h.exists_op href hfits.1 hkeeps.1
    obtain ⟨c'', t'', hrun, href'', h''⟩ := ih h' href' hfits.2 hkeeps.2
    refine ⟨c'', t'', ?_, href'', h''⟩
    rw [List.foldlM_cons, hop]
    exact hrun

theorem kept_start : Kept (start : TreeStore P) .empty where
  values _ := rfl
  stems _ := by simp [durable, start, Database.leaf, Database.getRaw, Database.empty, VerkleTree.empty]

theorem along_append {ok : Store → StoreOp → Prop} {ops ops' : List StoreOp} {st : Store} :
    Along ok (ops ++ ops') st ↔ Along ok ops st ∧ Along ok ops' (ops.foldl Store.op st) := by
  induction ops generalizing st with
  | nil => simp [Along]
  | cons o ops ih => rw [List.cons_append, Along, Along, List.foldl_cons, ih, and_assoc]

variable (cfg) in
theorem root_after_restart {ops : List StoreOp} {leaves : List (Bytes × Bytes)}
    (hfits : Along StoreOp.Fits (ops ++ [.commit, .restart leaves]) (.reload .empty))
    (hkeeps : Along StoreOp.Keeps ops (.reload .empty)) :
    ∃ c c', run cfg ops = some c ∧ run cfg (ops ++ [.commit, .restart leaves]) = some c' ∧
      c'.tree.intermediateRoot cfg = c.tree.intermediateRoot cfg := by
  obtain ⟨hfits, -, hrestart, -⟩ := along_append.mp hfits
  obtain ⟨c, t, hrun, href, hkept⟩ := kept_start.exists_run (refines_start cfg) hfits hkeeps
  obtain ⟨d, hcommit, -, hleaf, hd⟩ := href.exists_commit
  obtain ⟨c', hop, -, -, hc'⟩ := hd.exists_restart hrestart
  refine ⟨c, c', hrun, ?_, ?_⟩
  · rw [run, List.foldlM_append, hrun]
    change ([StoreOp.commit, .restart leaves].foldlM (op cfg) c) = _
    rw [List.foldlM_cons, hcommit]
    change ([StoreOp.restart leaves].foldlM (op cfg) d) = _
    rw [List.foldlM_cons, hop]
    rfl
  · have hstems : StateDB.storedStems d.db = t.stems := by
      ext stem
      rw [hkept.stems, ← hleaf]
      rfl
    refine hc'.tree.root_eq href.tree hstems fun key _ => ?_
    rw [hkept.values, ← hleaf]
    exact SameLeaf.refl _

section Merge

variable {entries entries' : List (Bytes × Bytes)}

def mergeOps (entries : List (Bytes × Bytes)) : List StoreOp := entries.map fun e => .set e.1 e.2

theorem Refines.exists_merge (h : Refines cfg c st t) (hfits : ∀ e ∈ entries, e.1.length = 32 ∧ e.2.length ≤ 32) :
    ∃ c', (mergeOps entries).foldlM (op cfg) c = some c' ∧ c'.db = c.db ∧
      Refines cfg c' ((mergeOps entries).foldl Store.op st) (entries.foldl (fun t e => t.insert e.1 e.2) t) := by
  induction entries generalizing c st t with
  | nil => exact ⟨c, rfl, rfl, h⟩
  | cons e entries ih =>
    obtain ⟨c', hop, -, hdb, h'⟩ := h.exists_set (hfits e List.mem_cons_self)
    obtain ⟨c'', hrun, hdb', h''⟩ := ih h' fun e' he' => hfits e' (List.mem_cons_of_mem e he')
    refine ⟨c'', ?_, hdb'.trans hdb, h''⟩
    rw [mergeOps, List.map_cons, List.foldlM_cons, hop]
    exact hrun

theorem foldl_insert_perm (hperm : entries.Perm entries') (hdistinct : (entries.map Prod.fst).Nodup) (t : VerkleTree) :
    entries.foldl (fun t e => t.insert e.1 e.2) t = entries'.foldl (fun t e => t.insert e.1 e.2) t := by
  refine hperm.foldl_eq' (fun e he e' he' t => ?_) t
  by_cases hne : e.1 = e'.1
  · rw [List.inj_on_of_nodup_map hdistinct he he' hne]
  · exact VerkleTree.insert_comm hne t e.2 e'.2

variable (cfg) in
theorem merge_root_perm {ops : List StoreOp} (hops : Along StoreOp.Fits ops (.reload .empty))
    (hfits : ∀ e ∈ entries, e.1.length = 32 ∧ e.2.length ≤ 32) (hdistinct : (entries.map Prod.fst).Nodup)
    (hperm : entries.Perm entries') :
    ∃ c c', run cfg (ops ++ mergeOps entries) = some c ∧ run cfg (ops ++ mergeOps entries') = some c' ∧
      c.tree.intermediateRoot cfg = c'.tree.intermediateRoot cfg := by
  obtain ⟨d, t, hrun, h⟩ := (refines_start cfg).exists_run hops
  obtain ⟨c, hmerge, -, hc⟩ := h.exists_merge hfits
  obtain ⟨c', hmerge', -, hc'⟩ := h.exists_merge fun e he => hfits e (hperm.mem_iff.mpr he)
  have happend {entries : List (Bytes × Bytes)} {c : TreeStore P}
      (h : (mergeOps entries).foldlM (op cfg) d = some c) : run cfg (ops ++ mergeOps entries) = some c := by
    rw [run, List.foldlM_append, hrun]
    exact h
  refine ⟨c, c', happend hmerge, happend hmerge', ?_⟩
  rw [foldl_insert_perm hperm hdistinct] at hc
  exact hc.root_eq hc'

end Merge

section Samples

def siblingKey : Bytes := List.replicate 31 1 ++ [2]

def sampleStoreOps : List StoreOp :=
  [.set sampleKey [5], .set siblingKey [6], .commit, .set otherKey [], .set sampleKey [7]]

def sampleLeaves : List (Bytes × Bytes) := [(sampleKey, [7]), (siblingKey, [6]), (otherKey, [])]

def restartedOps : List StoreOp := sampleStoreOps ++ [.commit, .restart sampleLeaves]

theorem sampleStoreOps_fit : Along StoreOp.Fits sampleStoreOps (.reload .empty) := by
  simp [sampleStoreOps, Along, StoreOp.Fits, sampleKey, siblingKey, otherKey]

theorem leaf_sampleStoreOps (key : Bytes) :
    (Store.op (sampleStoreOps.foldl Store.op (.reload .empty)) .commit).db.leaf key =
      if key = sampleKey then some [7] else if key = otherKey then some [] else
        if key = siblingKey then some [6] else none := by
  have hcommit (st : Store) (key : Bytes) :
      (Store.op st .commit).db.leaf key = (st.state.own.dirty.lookup key).or (st.db.leaf key) :=
    Database.leaf_write_commit st.db st.state key
  have hfirst : (Store.op (Store.op (Store.op (.reload .empty) (.set sampleKey [5])) (.set siblingKey [6])) .commit).db.leaf
      key = if key = siblingKey then some [6] else if key = sampleKey then some [5] else none := by
    rw [hcommit]
    change ((((∅ : Table Bytes Bytes).insert sampleKey [5]).insert siblingKey [6]).lookup key).or none = _
    rw [Option.or_none, lookup_insert_eq, lookup_insert_eq]
    rfl
  rw [hcommit]
  change ((((∅ : Table Bytes Bytes).insert otherKey []).insert sampleKey [7]).lookup key).or
    ((Store.op (Store.op (Store.op (.reload .empty) (.set sampleKey [5])) (.set siblingKey [6])) .commit).db.leaf key) = _
  rw [hfirst, lookup_insert_eq, lookup_insert_eq]
  by_cases hsample : key = sampleKey
  · simp [hsample]
  · simp only [if_neg hsample]
    split <;> rfl

theorem restartedOps_fit : Along StoreOp.Fits restartedOps (.reload .empty) := by
  refine along_append.mpr ⟨sampleStoreOps_fit, trivial, ⟨by decide, fun e => ?_⟩, trivial⟩
  rw [leaf_sampleStoreOps]
  have hkeys : sampleKey ≠ otherKey ∧ sampleKey ≠ siblingKey ∧ otherKey ≠ siblingKey := by decide
  simp only [sampleLeaves, List.mem_cons, List.not_mem_nil, or_false, Prod.ext_iff]
  grind

theorem treeStore_answers_sample : ∃ c, run Config.sums restartedOps = some c ∧
    c.db = (restartedOps.foldl Store.op (.reload .empty)).db ∧ ∀ key, key.length = 32 →
      c.getVerkleValue key = (restartedOps.foldl Store.op (.reload .empty)).state.getVerkleValue key :=
  treeStore_answers Config.sums restartedOps_fit

theorem root_after_restart_sample : ∃ c c', run Config.sums sampleStoreOps = some c ∧
    run Config.sums restartedOps = some c' ∧
    c'.tree.intermediateRoot Config.sums = c.tree.intermediateRoot Config.sums :=
  root_after_restart Config.sums restartedOps_fit ⟨nofun, nofun, trivial, fun _ => by decide +kernel, nofun, trivial⟩

theorem merge_root_perm_sample : ∃ c c',
    run Config.sums (sampleStoreOps ++ mergeOps [(sampleKey, [7]), (otherKey, [8])]) = some c ∧
    run Config.sums (sampleStoreOps ++ mergeOps [(otherKey, [8]), (sampleKey, [7])]) = some c' ∧
    c.tree.intermediateRoot Config.sums = c'.tree.intermediateRoot Config.sums :=
  merge_root_perm Config.sums (along_append.mp restartedOps_fit).1 (by simp [sampleKey, otherKey]) (by decide)
    (List.Perm.swap _ _ _)

end Samples

end TreeStore

end Zephyria.Verkle
