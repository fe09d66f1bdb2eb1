import Zephyria.HeaderAgreement

namespace Zephyria

def gasTarget (header : Header) : ℕ := header.gasLimit.toNat / 2

def adjustFee (fee target used : ℕ) : ℕ :=
  if used = target then fee
  else if used > target then fee + max 1 (fee * (used - target) / (target * 8))
  else max initialBaseFee (fee - fee * (target - used) / (target * 8))

structure FeeRule (parent : Header) (fee : ℕ) : Prop where
  floor : ∀ used, ∃ next, calcBaseFee { parent with gasUsed := used } = some next ∧ initialBaseFee ≤ next
  monotone : ∀ used used' next next', used ≤ used' → calcBaseFee { parent with gasUsed := used } = some next →
    calcBaseFee { parent with gasUsed := used' } = some next' → next ≤ next'
  target : ∀ used, used.toNat = gasTarget parent → calcBaseFee { parent with gasUsed := used } = some fee
  above : ∀ used next, gasTarget parent < used.toNat →
    calcBaseFee { parent with gasUsed := used } = some next → fee < next
  near : ∀ used next, used.toNat ≤ 2 * gasTarget parent →
    calcBaseFee { parent with gasUsed := used } = some next →
    next ≤ fee + max 1 (fee / 8) ∧ fee ≤ next + max 1 (fee / 8)

/-- The headers of the chains in which every block after the genesis block has the fee that
`CalcBaseFee` gives for its parent. Nothing else is asked of them. -/
inductive FeeChain (network : Network) : Header → Prop
  | genesis (root : Hash) : FeeChain network
      { (generateGenesisBlock (getNetworkConfig network)).header with verkleRoot := root }
  | child {parent header : Header} (h : FeeChain network parent) (hfee : header.baseFee.isSome)
      (hcalc : header.baseFee = calcBaseFee parent) : FeeChain network header

section Adjustment

variable {fee target used used' : ℕ}

theorem calcBaseFee_eq {parent : Header} (h : parent.baseFee = some fee) (ht : 0 < gasTarget parent) :
    calcBaseFee parent = some (adjustFee fee (gasTarget parent) parent.gasUsed.toNat) := by
  unfold calcBaseFee adjustFee
  rw [h]
  dsimp only
  rw [← gasTarget, if_neg (Nat.ne_of_gt ht)]
  split
  · rfl
  · split <;> rfl

theorem fall_le (fee target used : ℕ) : fee * (target - used) / (target * 8) ≤ fee / 8 := by
  obtain rfl | ht := Nat.eq_zero_or_pos target
  · simp
  · calc fee * (target - used) / (target * 8)
      _ ≤ fee * target / (target * 8) := by
        apply Nat.div_le_div_right
        exact Nat.mul_le_mul_left fee (Nat.sub_le target used)
      _ = fee / 8 := by rw [Nat.mul_comm fee target, Nat.mul_div_mul_left _ _ ht]

theorem rise_le (ht : 0 < target) (h : used ≤ 2 * target) :
    fee * (used - target) / (target * 8) ≤ fee / 8 :=
  calc fee * (used - target) / (target * 8)
    _ ≤ fee * target / (target * 8) := by
      apply Nat.div_le_div_right
      apply Nat.mul_le_mul_left
      omega
    _ = fee / 8 := by rw [Nat.mul_comm fee target, Nat.mul_div_mul_left _ _ ht]

theorem adjustFee_target : adjustFee fee target target = fee := if_pos rfl

theorem adjustFee_above (h : target < used) :
    adjustFee fee target used = fee + max 1 (fee * (used - target) / (target * 8)) := by
  rw [adjustFee, if_neg (by omega), if_pos h]

theorem adjustFee_below (h : used < target) :
    adjustFee fee target used = max initialBaseFee (fee - fee * (target - used) / (target * 8)) := by
  rw [adjustFee, if_neg (by omega), if_neg (by omega)]

theorem adjustFee_floor (hfee : initialBaseFee ≤ fee) : initialBaseFee ≤ adjustFee fee target used := by
  obtain h | rfl | h := Nat.lt_trichotomy used target
  · rw [adjustFee_below h]
    exact Nat.le_max_left _ _
  · rw [adjustFee_target]
    exact hfee
  · rw [adjustFee_above h]
    omega

theorem adjustFee_le (hfee : initialBaseFee ≤ fee) (h : used ≤ target) : adjustFee fee target used ≤ fee := by
  obtain h | rfl := Nat.lt_or_eq_of_le h
  · rw [adjustFee_below h]
    exact Nat.max_le.mpr ⟨hfee, Nat.sub_le _ _⟩
  · rw [adjustFee_target]

theorem lt_adjustFee (h : target < used) : fee < adjustFee fee target used := by
  rw [adjustFee_above h]
  omega

theorem adjustFee_mono (hfee : initialBaseFee ≤ fee) (h : used ≤ used') :
    adjustFee fee target used ≤ adjustFee fee target used' := by
  by_cases hused : target < used
  · have hgap : used - target ≤ used' - target := by omega
    have hrise := Nat.div_le_div_right (c := target * 8) (Nat.mul_le_mul_left fee hgap)
    rw [adjustFee_above hused, adjustFee_above (by omega)]
    omega
  by_cases hused' : target ≤ used'
  · calc adjustFee fee target used
      _ ≤ fee := adjustFee_le hfee (Nat.le_of_not_lt hused)
      _ ≤ adjustFee fee target used' := by
        obtain hlt | rfl := Nat.lt_or_eq_of_le hused'
        · exact (lt_adjustFee hlt).le
        · exact adjustFee_target.ge
  · have hgap : target - used' ≤ target - used := by omega
    have hfall := Nat.div_le_div_right (c := target * 8) (Nat.mul_le_mul_left fee hgap)
    rw [adjustFee_below (by omega), adjustFee_below (by omega)]
    omega

theorem adjustFee_near (hfee : initialBaseFee ≤ fee) (ht : 0 < target) (h : used ≤ 2 * target) :
    adjustFee fee target used ≤ fee + max 1 (fee / 8) ∧ fee ≤ adjustFee fee target used + max 1 (fee / 8) := by
  obtain hlt | rfl | hgt := Nat.lt_trichotomy used target
  · have hle := adjustFee_le hfee hlt.le
    have hfall := fall_le fee target used
    rw [adjustFee_below hlt] at hle ⊢
    omega
  · rw [adjustFee_target]
    omega
  · have hrise : fee * (used - target) / (target * 8) ≤ fee / 8 := rise_le ht h
    rw [adjustFee_above hgt]
    omega

end Adjustment

theorem feeRule_of_floor {parent : Header} {fee : ℕ} (h : parent.baseFee = some fee) (hfee : initialBaseFee ≤ fee)
    (ht : 0 < gasTarget parent) : FeeRule parent fee := by
  have hcalc (used : UInt64) : calcBaseFee { parent with gasUsed := used } =
      some (adjustFee fee (gasTarget parent) used.toNat) := calcBaseFee_eq h ht
  constructor
  · exact fun used => ⟨_, hcalc used, adjustFee_floor hfee⟩
  · intro used used' next next' hle hnext hnext'
    obtain rfl := Option.some.inj ((hcalc used).symm.trans hnext)
    obtain rfl := Option.some.inj ((hcalc used').symm.trans hnext')
    exact adjustFee_mono hfee (UInt64.le_iff_toNat_le.mp hle)
  · intro used hused
    rw [hcalc, hused, adjustFee_target]
  · intro used next hlt hnext
    obtain rfl := Option.some.inj ((hcalc used).symm.trans hnext)
    exact lt_adjustFee hlt
  · intro used next hle hnext
    obtain rfl := Option.some.inj ((hcalc used).symm.trans hnext)
    exact adjustFee_near hfee ht hle

theorem calcBaseFee_floor {parent : Header} {next : ℕ} (h : ∀ fee, parent.baseFee = some fee → initialBaseFee ≤ fee)
    (hcalc : calcBaseFee parent = some next) : initialBaseFee ≤ next := by
  cases hbase : parent.baseFee with
  | none =>
    rw [calcBaseFee, hbase] at hcalc
    exact (Option.some.inj hcalc).le
  | some fee =>
    have hfee := h fee hbase
    obtain ht | ht := Nat.eq_zero_or_pos (gasTarget parent)
    · -- Without a target the fee is passed on, or nothing is returned.
      unfold calcBaseFee at hcalc
      rw [hbase] at hcalc
      dsimp only at hcalc
      rw [← gasTarget, ht, if_pos rfl] at hcalc
      split at hcalc
      · exact hfee.trans (Option.some.inj hcalc).le
      next hne =>
        rw [if_pos (Nat.pos_of_ne_zero hne)] at hcalc
        cases hcalc
    · rw [calcBaseFee_eq hbase ht] at hcalc
      obtain rfl := Option.some.inj hcalc
      exact adjustFee_floor hfee

theorem FeeChain.floor {network : Network} {header : Header} (h : FeeChain network header) {fee : ℕ}
    (hfee : header.baseFee = some fee) : initialBaseFee ≤ fee := by
  induction h generalizing fee with
  | genesis root => cases network <;> cases hfee <;> exact le_rfl
  | child _ _ hcalc ih => exact calcBaseFee_floor (fun _ h => ih h) (hcalc.symm.trans hfee)

theorem base_fee_rule :
    (∀ (parent : Header) (fee : ℕ), parent.baseFee = some fee → initialBaseFee ≤ fee → 0 < gasTarget parent →
      FeeRule parent fee) ∧
    ∀ (network : Network) (header : Header) (fee : ℕ), FeeChain network header → header.baseFee = some fee →
      initialBaseFee ≤ fee :=
  ⟨fun _ _ h hfee ht => feeRule_of_floor h hfee ht, fun _ _ _ h hfee => h.floor hfee⟩

def heavyHeader : Header := { (sampleBlock 1 0 genesisHash).header with gasUsed := 45000000 }

def raisedHeader : Header := { (sampleBlock 2 0 0).header with baseFee := some 1062500000 }

theorem heavy_fee_rule : FeeRule heavyHeader initialBaseFee ∧ FeeChain .simulation raisedHeader ∧
    initialBaseFee ≤ 1062500000 := by
  have hheavy : FeeChain .simulation heavyHeader := .child (.genesis 0) rfl rfl
  have hchain : FeeChain .simulation raisedHeader := .child hheavy rfl (by decide)
  exact ⟨base_fee_rule.1 heavyHeader initialBaseFee rfl le_rfl (by decide), hchain,
    base_fee_rule.2 .simulation raisedHeader _ hchain rfl⟩

structure FeeSafe (header : Header) : Prop where
  returns : ∃ next, calcBaseFee header = some next
  bounded : ∀ next, header.gasUsed.toNat < gasTarget header → calcBaseFee header = some next →
    next ≤ max (header.baseFee.getD 0) initialBaseFee

theorem calcBaseFee_eq_none_iff {header : Header} : calcBaseFee header = none ↔
    header.baseFee ≠ none ∧ header.gasUsed ≠ 0 ∧ header.gasLimit < 2 := by
  have htarget : gasTarget header = 0 ↔ header.gasLimit < 2 := by
    rw [gasTarget, UInt64.lt_iff_toNat_lt]
    change _ ↔ header.gasLimit.toNat < 2
    omega
  have hused : header.gasUsed.toNat = 0 ↔ header.gasUsed = 0 := UInt64.toNat_inj (b := 0)
  rw [← htarget, ne_eq header.gasUsed, ← hused]
  unfold calcBaseFee
  cases header.baseFee with
  | none => simp
  | some fee =>
    dsimp only
    rw [← gasTarget]
    split
    next heq => simp; omega
    next hne =>
      split
      next hgt =>
        split
        next hzero => simp; omega
        next hpos => simp [hpos]
      next hlt => simp; omega

theorem feeSafe_iff (header : Header) :
    FeeSafe header ↔ header.baseFee = none ∨ header.gasUsed = 0 ∨ 2 ≤ header.gasLimit := by
  have hcond : calcBaseFee header ≠ none ↔
      header.baseFee = none ∨ header.gasUsed = 0 ∨ 2 ≤ header.gasLimit := by
    rw [ne_eq, calcBaseFee_eq_none_iff, not_and_or, not_and_or, not_not, not_not, UInt64.not_lt]
  rw [← hcond]
  constructor
  · rintro ⟨⟨next, hnext⟩, -⟩ hnone
    cases hnext.symm.trans hnone
  · intro hne
    refine ⟨Option.ne_none_iff_exists'.mp hne, fun next hlt hnext => ?_⟩
    cases hbase : header.baseFee with
    | none =>
      rw [calcBaseFee, hbase] at hnext
      exact (Option.some.inj hnext).ge.trans (Nat.le_max_right _ _)
    | some fee =>
      rw [calcBaseFee_eq hbase (by omega), adjustFee_below hlt] at hnext
      rw [← Option.some.inj hnext, Option.getD_some]
      exact Nat.max_le.mpr ⟨Nat.le_max_right _ _, (Nat.sub_le _ _).trans (Nat.le_max_left _ _)⟩

def Node.Offers (n n' : Node) (b : Block) : Prop :=
  (∃ hash, n.bc.getBlockByHash hash = none ∧ n'.bc.getBlockByHash hash = some b) ∨
    n.bc.currentBlock ≠ some b ∧ n'.bc.currentBlock = some b

theorem Node.Imports.offers {e : Executor} {S : Sealing} {n n' : Node} {d : Delivery} {res : AppliedBlock}
    (h : Node.Imports e S n d res n') {stored : Block} (hoffers : n.Offers n' stored) :
    stored = { d.block with header := { d.block.header with verkleRoot := res.root } } := by
  obtain ⟨-, -, engine, -, rfl⟩ := h
  have hcases := importBlock_cases S { n with engine := engine } d.block res
  obtain ⟨hash, hnew, hstored⟩ | ⟨hnew, hstored⟩ := hoffers
  · rw [Blockchain.getBlockByHash] at hnew hstored
    obtain ⟨-, hsame⟩ | hadded := hcases
    · rw [hsame.block] at hstored
      cases hnew.symm.trans hstored
    · rw [hadded.block] at hstored
      split at hstored
      next => exact (Block.unmarshal_eq_some.mp hstored).1.symm
      next => cases hnew.symm.trans hstored
  · obtain ⟨-, hsame⟩ | hadded := hcases
    · exact absurd (hsame.current.symm.trans hstored) hnew
    · rw [hadded.current] at hstored
      split at hstored
      next => exact (Option.some.inj hstored).symm
      next => exact absurd hstored hnew

/-- Of the blocks that the handler takes in, those with a gas limit under two and some gas used stop
whoever computes the fee of a child. -/
theorem imported_fee_safe_iff {e : Executor} {S : Sealing} {n n' : Node} {d : Delivery} {res : AppliedBlock}
    (h : Node.Imports e S n d res n') {stored : Block} (hoffers : n.Offers n' stored) :
    FeeSafe stored.header ↔ d.block.header.gasUsed = 0 ∨ 2 ≤ d.block.header.gasLimit := by
  rw [h.offers hoffers, feeSafe_iff]
  exact or_iff_right d.baseFee_ne_none

section Sample

def limitedBlock (gasLimit : UInt64) : Block :=
  { sampleBlock 1 0 genesisHash with
    header := { (sampleBlock 1 0 genesisHash).header with gasLimit := gasLimit, gasUsed := 1 } }

theorem limitedBlock_imported (gasLimit : UInt64) : ∃ n', Node.Imports .ideal sampleSealing sampleNode
      (.syncBlock (limitedBlock gasLimit)) (appliedEmpty (limitedBlock gasLimit)) n' ∧
    n'.bc.currentBlock = some (limitedBlock gasLimit) := by
  obtain ⟨engine, hverify⟩ := sampleNode_accepts (b := limitedBlock gasLimit) rfl
  refine ⟨Node.importBlock sampleSealing { sampleNode with engine := engine } (limitedBlock gasLimit)
      (appliedEmpty (limitedBlock gasLimit)),
    ⟨⟨rfl, engine, hverify⟩, (Executor.ideal.applyBlock_nil _ _ _).mpr rfl, engine, hverify, rfl⟩, ?_⟩
  have hroot : (appliedEmpty (limitedBlock gasLimit)).root = 0 := intermediateRoot_ideal _
  have hadded := sampleNode_importBlock (b := limitedBlock gasLimit) (show 1 % 2 ^ 64 ≠ 0 by decide) engine
    (appliedEmpty (limitedBlock gasLimit))
  rw [hroot] at hadded
  exact sampleNode_moved hadded Nat.zero_lt_one

theorem sampleNode_offers {n' : Node} {gasLimit : UInt64}
    (h : n'.bc.currentBlock = some (limitedBlock gasLimit)) : sampleNode.Offers n' (limitedBlock gasLimit) := by
  refine Or.inr ⟨?_, h⟩
  rw [sampleNode_onlyGenesis.current]
  intro heq
  have hnumber := congrArg (fun b => b.header.number) (Option.some.inj heq)
  cases hnumber

theorem limited_block_fee_safe : ∃ n', Node.start .ideal sampleSealing sampleConfig .empty = some sampleNode ∧
    Node.Imports .ideal sampleSealing sampleNode (.syncBlock (limitedBlock 60000000))
      (appliedEmpty (limitedBlock 60000000)) n' ∧
    sampleNode.Offers n' (limitedBlock 60000000) ∧ FeeSafe (limitedBlock 60000000).header := by
  obtain ⟨n', himports, hcurrent⟩ := limitedBlock_imported 60000000
  have hoffers := sampleNode_offers hcurrent
  exact ⟨n', start_sampleNode, himports, hoffers,
    (imported_fee_safe_iff himports hoffers).mpr (Or.inr (show 2 ≤ (60000000 : UInt64) by decide))⟩

theorem zero_limit_stops_fee : ∃ n' stored, Node.start .ideal sampleSealing sampleConfig .empty = some sampleNode ∧
    Node.Imports .ideal sampleSealing sampleNode (.syncBlock (limitedBlock 0)) (appliedEmpty (limitedBlock 0)) n' ∧
    n'.bc.currentBlock = some stored ∧ calcBaseFee stored.header = none ∧ ¬FeeSafe stored.header := by
  obtain ⟨n', himports, hcurrent⟩ := limitedBlock_imported 0
  have hnone : calcBaseFee (limitedBlock 0).header = none := by decide
  refine ⟨n', _, start_sampleNode, himports, hcurrent, hnone, fun hsafe => ?_⟩
  obtain ⟨next, hnext⟩ := hsafe.returns
  cases hnone.symm.trans hnext

end Sample

end Zephyria
