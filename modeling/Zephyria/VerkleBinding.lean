import Zephyria.VerkleRuns

/-!
What the root of a tree says about its stems and values: all but the zeros at the ends of the values, unless
two of the vectors that the tree commits to have one hash.
-/

namespace Zephyria.Verkle

section Binding

variable {F P : Type} [CommRing F] [AddCommGroup P] [Module F P] {cfg : Config F P} {n : VerkleNode P}
  {t : VerkleTree} {S : Set Stem}

def vectors (cfg : Config F P) (n : VerkleNode P) : Set (UInt8 → F) :=
  insert 0 (cfg.committed (leafVector cfg) [] (n.shape 0)) ∪
    {u | ∃ stem values half, (n.shape 0).find stem = some values ∧ u = suffixPoly half values}

theorem Config.nontrivial (cfg : Config F P) : Nontrivial F := by
  refine ⟨0, 1, fun h => ?_⟩
  have hcast := cfg.natCast_injective 0 1 (by norm_num) (by norm_num) (by simpa using h)
  cases hcast

theorem stem_eq_of_leafVector {stem stem' : Stem} {values values' : Values} (hlen : stem.length = 31)
    (hlen' : stem'.length = 31) (h : leafVector cfg stem values = leafVector cfg stem' values') : stem = stem' := by
  have hlt {stem : Stem} (hlen : stem.length = 31) : littleEndian stem < 2 ^ 248 :=
    (littleEndian_lt stem).trans_eq (by rw [hlen]; norm_num)
  exact littleEndian_injective (hlen.trans hlen'.symm)
    (cfg.natCast_injective _ _ (hlt hlen) (hlt hlen') (congrFun h 1))

theorem suffixPoly_eq_or_broken {X : Set (UInt8 → F)} {stem : Stem} {values values' : Values}
    (hX : ∀ half, suffixPoly half values ∈ X ∧ suffixPoly half values' ∈ X)
    (h : leafVector cfg stem values = leafVector cfg stem values') :
    ((suffixPoly 0 values : UInt8 → F) = suffixPoly 0 values' ∧
      (suffixPoly 128 values : UInt8 → F) = suffixPoly 128 values') ∨ cfg.Broken X := by
  obtain h1 | hbroken := VectorCommitment.eq_or_broken (hX 0).1 (hX 0).2 (congrFun h 2)
  · obtain h2 | hbroken := VectorCommitment.eq_or_broken (hX 128).1 (hX 128).2 (congrFun h 3)
    · exact .inl ⟨h1, h2⟩
    · exact .inr hbroken
  · exact .inr hbroken

theorem sameLeaf_of_suffixPoly {values values' : Values} (hvalues : ∀ i, (values i).length ≤ 32)
    (hvalues' : ∀ i, (values' i).length ≤ 32) (cfg : Config F P)
    (h1 : (suffixPoly 0 values : UInt8 → F) = suffixPoly 0 values')
    (h2 : (suffixPoly 128 values : UInt8 → F) = suffixPoly 128 values') (i : UInt8) :
    SameLeaf (values i) (values' i) := by
  have hhalf {half : UInt8} (hi : half + i % 128 = i)
      (h : (suffixPoly half values : UInt8 → F) = suffixPoly half values') : SameLeaf (values i) (values' i) := by
    have hm : i % 128 < 128 := UInt8.mod_lt i (by decide)
    have hlo := congrFun h (2 * (i % 128))
    have hhi := congrFun h (2 * (i % 128) + 1)
    rw [suffixPoly_two_mul hm, suffixPoly_two_mul hm, hi] at hlo
    rw [suffixPoly_two_mul_add_one hm, suffixPoly_two_mul_add_one hm, hi] at hhi
    exact sameLeaf_of_comms_eq cfg (hvalues i) (hvalues' i) hlo hhi
  by_cases hlow : i < 128
  · exact hhalf (half_of_lt hlow).1 h1
  · exact hhalf (half_of_not_lt hlow).1 h2

theorem Represents.binds {n' : VerkleNode P} {t' : VerkleTree} (h : Represents cfg n t)
    (h' : Represents cfg n' t') (hlen : ∀ key, (t.get key).length ≤ 32) (hlen' : ∀ key, (t'.get key).length ≤ 32)
    (hroot : n.intermediateRoot cfg = n'.intermediateRoot cfg) :
    ((∀ stem, stem.length = 31 → (stem ∈ t.stems ↔ stem ∈ t'.stems)) ∧
      ∀ key, key.length = 32 → SameLeaf (t.get key) (t'.get key)) ∨ cfg.Broken (vectors cfg n ∪ vectors cfg n') := by
  rw [h.valid.intermediateRoot_eq, h'.valid.intermediateRoot_eq] at hroot
  have hnontrivial := cfg.nontrivial
  have hcommitted (n : VerkleNode P) : insert 0 (cfg.committed (leafVector cfg) [] (n.shape 0)) ⊆ vectors cfg n :=
    Set.subset_union_left
  by_cases hbroken : cfg.Broken (vectors cfg n ∪ vectors cfg n')
  · exact .inr hbroken
  have hagree := (VectorCommitment.find_agree_or_broken (m := 0) (k := 31) (fun _ _ => rfl)
    (fun _ _ _ _ => stem_eq_of_leafVector) rfl (.inl (hcommitted n (Set.mem_insert 0 _)))
    ((Set.subset_insert 0 _).trans ((hcommitted n).trans Set.subset_union_left))
    ((Set.subset_insert 0 _).trans ((hcommitted n').trans Set.subset_union_right))
    h.valid.uniform h'.valid.uniform (cfg.bytesLE_injective hroot)).resolve_right hbroken
  left
  constructor
  · intro stem hstem
    rw [← h.stems stem hstem, ← h'.stems stem hstem, ne_eq, ne_eq, ← Option.map_eq_none_iff, hagree stem,
      Option.map_eq_none_iff]
  · intro key hkey
    obtain ⟨hstem, hkeyEq⟩ : (key.take 31).length = 31 ∧ key.take 31 ++ [key.getD 31 0] = key :=
      ⟨by rw [List.length_take, hkey]; rfl, take_append_getD hkey⟩
    have hstemAgree := hagree (key.take 31)
    have hvalues (i : UInt8) := h.values (key.take 31) i hstem
    have hvalues' (i : UInt8) := h'.values (key.take 31) i hstem
    rw [← hkeyEq, ← hvalues, ← hvalues']
    cases hfind : (n.shape 0).find (key.take 31) with
    | none =>
      rw [hfind, Option.map_none, eq_comm, Option.map_eq_none_iff] at hstemAgree
      rw [hstemAgree]
      exact SameLeaf.refl _
    | some values =>
      rw [hfind] at hstemAgree hvalues
      cases hfind' : (n'.shape 0).find (key.take 31) with
      | none =>
        rw [hfind'] at hstemAgree
        cases hstemAgree
      | some values' =>
        rw [hfind'] at hstemAgree hvalues'
        have hlengths (i : UInt8) : (values i).length ≤ 32 := by
          rw [show values i = _ from hvalues i]
          exact hlen _
        have hlengths' (i : UInt8) : (values' i).length ≤ 32 := by
          rw [show values' i = _ from hvalues' i]
          exact hlen' _
        obtain ⟨h1, h2⟩ := (suffixPoly_eq_or_broken (fun half => ⟨.inl (.inr ⟨_, values, half, hfind, rfl⟩),
          .inr (.inr ⟨_, values', half, hfind', rfl⟩)⟩) (Option.some.inj hstemAgree)).resolve_right hbroken
        exact sameLeaf_of_suffixPoly hlengths hlengths' cfg h1 h2 _

theorem length_get_foldl {ops : List TreeOp} (hops : ∀ op ∈ ops, op.Fits) {t : VerkleTree}
    (ht : ∀ key, (t.get key).length ≤ 32) (key : Bytes) : ((ops.foldl TreeOp.apply t).get key).length ≤ 32 := by
  induction ops generalizing t with
  | nil => exact ht key
  | cons op ops ih =>
    refine ih (fun o ho => hops o (List.mem_cons_of_mem op ho)) fun key => ?_
    cases op with
    | commit => exact ht key
    | insert k value =>
      rw [TreeOp.apply, VerkleTree.get_insert]
      split
      · exact (hops (.insert k value) List.mem_cons_self).2
      · exact ht key

theorem length_of_mem_stems {ops : List TreeOp} (hops : ∀ op ∈ ops, op.Fits) {S : Set Stem}
    (hS : ∀ stem ∈ S, stem.length = 31) : ∀ stem ∈ ops.foldl TreeOp.stems S, stem.length = 31 := by
  induction ops generalizing S with
  | nil => exact hS
  | cons op ops ih =>
    refine ih (fun o ho => hops o (List.mem_cons_of_mem op ho)) fun stem hstem => ?_
    cases op with
    | commit => exact hS stem hstem
    | insert key value =>
      obtain rfl | hstem := hstem
      · rw [List.length_take, (hops (.insert key value) List.mem_cons_self).1]
        rfl
      · exact hS stem hstem

/-- One root for two runs: they have written to the same stems and left the same values, up to zeros at
their ends, or vectors of the two trees have shown a collision. -/
theorem contents_of_root_eq [DecidableEq F] {ops ops' : List TreeOp} (hops : ∀ op ∈ ops, op.Fits) (hops' : ∀ op ∈ ops', op.Fits)
    {n n' : VerkleNode P} (hrun : run cfg ops = some n) (hrun' : run cfg ops' = some n')
    (hroot : n.intermediateRoot cfg = n'.intermediateRoot cfg) :
    (ops.foldl TreeOp.stems ∅ = ops'.foldl TreeOp.stems ∅ ∧ ∀ key, key.length = 32 →
      SameLeaf ((ops.foldl TreeOp.apply .empty).get key) ((ops'.foldl TreeOp.apply .empty).get key)) ∨
      cfg.Broken (vectors cfg n ∪ vectors cfg n') := by
  obtain ⟨m, hm, h⟩ := exists_run cfg hops
  obtain ⟨m', hm', h'⟩ := exists_run cfg hops'
  obtain rfl := Option.some.inj (hrun.symm.trans hm)
  obtain rfl := Option.some.inj (hrun'.symm.trans hm')
  have hempty (key : Bytes) : (VerkleTree.empty.get key).length ≤ 32 := Nat.zero_le _
  obtain ⟨hstems, hvalues⟩ | hbroken := h.binds h' (length_get_foldl hops hempty) (length_get_foldl hops' hempty) hroot
  · refine .inl ⟨Set.ext fun stem => ?_, hvalues⟩
    rw [TreeOp.stems_foldl, TreeOp.stems_foldl] at hstems
    by_cases hstem : stem.length = 31
    · exact hstems stem hstem
    · constructor
      · exact fun hmem => absurd (length_of_mem_stems hops (fun _ h => h.elim) stem hmem) hstem
      · exact fun hmem => absurd (length_of_mem_stems hops' (fun _ h => h.elim) stem hmem) hstem
  · exact .inr hbroken

theorem contents_of_root_eq_reordered : ∃ n n', run Config.sums sampleOps = some n ∧
    run Config.sums reorderedOps = some n' ∧ n.intermediateRoot Config.sums = n'.intermediateRoot Config.sums ∧
    ((sampleOps.foldl TreeOp.stems ∅ = reorderedOps.foldl TreeOp.stems ∅ ∧ ∀ key, key.length = 32 →
      SameLeaf ((sampleOps.foldl TreeOp.apply .empty).get key) ((reorderedOps.foldl TreeOp.apply .empty).get key)) ∨
      Config.sums.Broken (vectors Config.sums n ∪ vectors Config.sums n')) := by
  obtain ⟨n, hrun, h⟩ := exists_run Config.sums sampleOps_fit
  obtain ⟨n', hrun', h'⟩ := exists_run Config.sums reorderedOps_fit
  have hstems := (TreeOp.stems_foldl sampleOps .empty).trans
    (sampleOps_stems.trans (TreeOp.stems_foldl reorderedOps .empty).symm)
  have hroot := h.root_eq h' hstems fun key _ => by
    rw [sampleOps_get]
    exact SameLeaf.refl _
  exact ⟨n, n', hrun, hrun', hroot, contents_of_root_eq sampleOps_fit reorderedOps_fit hrun hrun' hroot⟩

end Binding

section Scaling

theorem SameLeaf.insert {t t' : VerkleTree} (h : ∀ key, SameLeaf (t.get key) (t'.get key)) {value value' : Bytes}
    (hvalue : SameLeaf value value') (key k : Bytes) :
    SameLeaf ((t.insert key value).get k) ((t'.insert key value').get k) := by
  rw [VerkleTree.get_insert, VerkleTree.get_insert]
  by_cases hk : k = key
  · by_cases hv : value = []
    · rw [if_neg fun hc => hc.1 hv, if_neg fun hc => hc.1 (hvalue.1.mp hv)]
      exact h k
    · rw [if_pos ⟨hv, hk⟩, if_pos ⟨fun hv' => hv (hvalue.1.mpr hv'), hk⟩]
      exact hvalue
  · rw [if_neg fun hc => hk hc.2, if_neg fun hc => hk hc.2]
    exact h k

theorem SameLeaf.foldl {t t' : VerkleTree} (h : ∀ key, SameLeaf (t.get key) (t'.get key)) (ops : List TreeOp)
    (key : Bytes) : SameLeaf ((ops.foldl TreeOp.apply t).get key) ((ops.foldl TreeOp.apply t').get key) := by
  induction ops generalizing t t' with
  | nil => exact h key
  | cons op ops ih =>
    apply ih
    cases op with
    | insert k value => exact SameLeaf.insert h (SameLeaf.refl value) k
    | commit => exact h

theorem sameLeaf_append_zeros {val : Bytes} {j : ℕ} (hne : val ≠ []) (h : val.length + j ≤ 32) :
    SameLeaf val (val ++ List.replicate j 0) := by
  refine ⟨by simp [hne], ?_⟩
  rw [pad, pad, List.append_assoc, List.replicate_append_replicate, List.length_append, List.length_replicate]
  congr 2
  omega

def balanceWrite (K : Keccak256) (addr : Address) (amount : U256) : TreeOp :=
  .insert (balanceKey K addr) (BigEndian.minimal 32 amount.toNat)

theorem sameLeaf_minimal {b c : U256} {j : ℕ} (hb : b ≠ 0) (hc : c.toNat = b.toNat * 256 ^ j) :
    SameLeaf (BigEndian.minimal 32 b.toNat) (BigEndian.minimal 32 c.toNat) := by
  have hpos : 0 < b.toNat := Nat.pos_of_ne_zero fun h => hb (BitVec.eq_of_toNat_eq h)
  have hlt : b.toNat * 256 ^ j < 256 ^ 32 := hc ▸ c.isLt
  have hbytes := BigEndian.minimal_mul_pow hpos hlt
  have hlen := BigEndian.length_minimal_le 32 (b.toNat * 256 ^ j)
  have hne : BigEndian.minimal 32 b.toNat ≠ [] := by
    intro hnil
    have hvalue := BigEndian.value_minimal 32 b.toNat
    have hlt : b.toNat < 256 ^ 32 := b.isLt
    rw [hnil, Nat.mod_eq_of_lt hlt] at hvalue
    exact hpos.ne hvalue
  rw [hbytes, List.length_append, List.length_replicate] at hlen
  rw [hc, hbytes]
  exact sameLeaf_append_zeros hne hlen

variable {F P : Type} [CommRing F] [DecidableEq F] [AddCommGroup P] [Module F P]

theorem root_scaled_balance (cfg : Config F P) (K : Keccak256) {addr : Address}
    (hkey : (balanceKey K addr).length = 32) {b c : U256} {j : ℕ} (hb : b ≠ 0) (hc : c.toNat = b.toNat * 256 ^ j)
    {ops ops' : List TreeOp} (hops : ∀ op ∈ ops, op.Fits) (hops' : ∀ op ∈ ops', op.Fits) :
    ∃ n n', run cfg (ops ++ balanceWrite K addr b :: ops') = some n ∧
      run cfg (ops ++ balanceWrite K addr c :: ops') = some n' ∧
      n.intermediateRoot cfg = n'.intermediateRoot cfg := by
  have hfits (amount : U256) : ∀ op ∈ ops ++ balanceWrite K addr amount :: ops', op.Fits := by
    intro op hop
    rw [List.mem_append, List.mem_cons] at hop
    obtain hop | rfl | hop := hop
    · exact hops op hop
    · exact ⟨hkey, BigEndian.length_minimal_le 32 amount.toNat⟩
    · exact hops' op hop
  obtain ⟨n, hrun, h⟩ := exists_run cfg (hfits b)
  obtain ⟨n', hrun', h'⟩ := exists_run cfg (hfits c)
  have happly (amount : U256) (t : VerkleTree) :
      (balanceWrite K addr amount).apply t = t.insert (balanceKey K addr) (BigEndian.minimal 32 amount.toNat) := rfl
  rw [List.foldl_append, List.foldl_cons, happly] at h h'
  refine ⟨n, n', hrun, hrun', h.root_eq h' ?_ fun key _ => ?_⟩
  · rw [TreeOp.stems_foldl, TreeOp.stems_foldl, VerkleTree.stems_insert, VerkleTree.stems_insert]
  · exact SameLeaf.foldl (SameLeaf.insert (fun key => SameLeaf.refl _) (sameLeaf_minimal hb hc) _) ops' key

def paddedSum (bs : Bytes) : Bytes := if bs.length = 20 then bs ++ List.replicate 12 0 else bs

theorem take_paddedSum (a : Address) : (paddedSum (addressBytes a)).take 31 = addressBytes a ++ List.replicate 11 0 := by
  have hlen : (addressBytes a).length = 20 := BigEndian.fixed_length 20 a.toNat
  rw [paddedSum, if_pos hlen, List.take_append, List.take_of_length_le (by omega), hlen, List.take_replicate]
  rfl

theorem paddedSum_storage (a : Address) (k : Hash) :
    paddedSum (addressBytes a ++ hashBytes k) = addressBytes a ++ hashBytes k :=
  if_neg (by simp [addressBytes, hashBytes, BigEndian.fixed_length])

def paddedKeccak : Keccak256 where
  sum := paddedSum
  stem_injective a b h := by
    rw [take_paddedSum, take_paddedSum] at h
    exact addressBytes_injective (List.append_cancel_right h)
  storage_injective a b k l h := by
    rw [paddedSum_storage, paddedSum_storage] at h
    obtain ⟨ha, hk⟩ := List.append_inj h (by simp [addressBytes, BigEndian.fixed_length])
    exact ⟨addressBytes_injective ha, hashBytes_injective hk⟩
  stem_ne_storage a b suffix k h := by
    rw [take_paddedSum, paddedSum_storage] at h
    have hlen := congrArg List.length h
    simp [addressBytes, hashBytes, BigEndian.fixed_length] at hlen

theorem length_balanceKey_padded (a : Address) : (balanceKey paddedKeccak a).length = 32 := by
  have hsum : paddedKeccak.sum = paddedSum := rfl
  rw [balanceKey, accountStem, hsum, take_paddedSum, List.length_append, List.length_append, addressBytes, BigEndian.fixed_length,
    List.length_replicate, List.length_singleton]

theorem root_scaled_balance_pair : (balanceKey paddedKeccak 7).length = 32 ∧
    ∃ n n', run Config.sums (sampleOps ++ balanceWrite paddedKeccak 7 1 :: reorderedOps) = some n ∧
      run Config.sums (sampleOps ++ balanceWrite paddedKeccak 7 256 :: reorderedOps) = some n' ∧
      n.intermediateRoot Config.sums = n'.intermediateRoot Config.sums := by
  have hne : (1 : U256) ≠ 0 := by decide
  have hscale : (256 : U256).toNat = (1 : U256).toNat * 256 ^ 1 := by decide
  have hkey := length_balanceKey_padded 7
  exact ⟨hkey, root_scaled_balance Config.sums paddedKeccak hkey hne hscale sampleOps_fit reorderedOps_fit⟩

end Scaling

end Zephyria.Verkle
