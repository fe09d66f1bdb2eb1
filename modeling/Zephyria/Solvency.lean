import Zephyria.StakeAccounting
import Zephyria.Supply

namespace Zephyria

structure PaidMessage where
  msg : Message
  data : Bytes
  created : Address

def PaidMessage.recipient (t : PaidMessage) : Address := t.msg.toAddr.getD t.created

section Messages

variable (K : Keccak256) (p : SystemParams)

/-- A message moves its value, then the system contracts run. Without the funds it is refused whole. -/
def payMessage (t : PaidMessage) : StateM Unit := do
  let balance ← getBalance K t.msg.fromAddr
  if balance.toNat < t.msg.value then pure ()
  else
    let _ ← subBalance K t.msg.fromAddr (BitVec.ofNat 256 t.msg.value)
    let _ ← addBalance K t.recipient (BitVec.ofNat 256 t.msg.value)
    processSystemContracts K p t.msg t.data

def payMessages (s : StateDB) (msgs : List PaidMessage) : StateDB :=
  msgs.foldl (fun s t => (StateDB.exec (payMessage K p t) s).2) s

end Messages

namespace Accounts

variable (p : SystemParams) (w : Accounts)

def staked : ℕ := ∑ a : Address, (w.stake p a).toNat

def moved (t : PaidMessage) : Accounts :=
  w.transfer t.msg.fromAddr t.recipient (BitVec.ofNat 256 t.msg.value)

end Accounts

structure PoolSolvent (K : Keccak256) (p : SystemParams) (s : StateDB) (msgs : List PaidMessage) : Prop where
  covers : ∀ pre, pre <+: msgs → (book K (payMessages K p s pre)).staked p ≤
    ((book K (payMessages K p s pre)).balance p.stakingAddr).toNat
  unstakes : ∀ pre t, pre ++ [t] <+: msgs →
    t.msg.value ≤ ((book K (payMessages K p s pre)).balance t.msg.fromAddr).toNat →
    t.msg.toAddr = some p.stakingAddr → t.data = unstakePayload →
    (((book K (payMessages K p s pre)).moved t).deposited p t.msg.fromAddr t.msg.value).stake p
      t.msg.fromAddr ≠ 0 →
    Completes p ((book K (payMessages K p s pre)).moved t) t.msg.fromAddr t.msg.value t.data

section Transfer

variable {p : SystemParams} {w : Accounts} {src dst : Address} {v : U256}

theorem transfer_eq_credit : w.transfer src dst v = (w.credit src (-v)).credit dst v := by
  unfold Accounts.transfer Accounts.credit
  simp only [BitVec.sub_eq_add_neg]

theorem supply_transfer (hv : v ≤ w.balance src) (hs : w.supply < 2 ^ 256) :
    (w.transfer src dst v).supply = w.supply := by
  have hdebit := w.supply_debit src (v := v.toNat) hv
  rw [BitVec.ofNat_toNat, BitVec.setWidth_eq] at hdebit
  have hcredit := (w.credit src (-v)).supply_credit dst (v := v.toNat) (by omega)
  rw [BitVec.ofNat_toNat, BitVec.setWidth_eq] at hcredit
  rw [transfer_eq_credit]
  omega

theorem balance_transfer {b : Address} (hb : b ≠ src) (hv : v ≤ w.balance src) (hs : w.supply < 2 ^ 256) :
    ((w.transfer src dst v).balance b).toNat = (w.balance b).toNat + if b = dst then v.toNat else 0 := by
  have hdebit := w.supply_debit src (v := v.toNat) hv
  rw [BitVec.ofNat_toNat, BitVec.setWidth_eq] at hdebit
  have hle := (w.credit src (-v)).balance_le_supply b
  have hsame : (w.credit src (-v)).balance b = w.balance b := Function.update_of_ne hb _ _
  rw [transfer_eq_credit, Accounts.balance_credit]
  split
  next h =>
    subst h
    rw [hsame] at hle
    rw [Function.update_self, hsame, BitVec.toNat_add, Nat.mod_eq_of_lt (by omega)]
  next h => rw [Function.update_of_ne h, hsame, Nat.add_zero]

theorem transfer_staked : (w.transfer src dst v).staked p = w.staked p := rfl

theorem transfer_balance_src (h : dst ≠ src) (hv : v ≤ w.balance src) :
    ((w.transfer src dst v).balance src).toNat + v.toNat = (w.balance src).toNat := by
  have hle : v.toNat ≤ (w.balance src).toNat := hv
  simp only [Accounts.transfer, Accounts.balance_setBalance, Function.update_of_ne h.symm, Function.update_self]
  rw [BitVec.toNat_sub_of_le hv]
  omega

end Transfer

/-- The invariant of the pool, with `slack` not yet on record. -/
structure Backed (p : SystemParams) (slack : ℕ) (w : Accounts) : Prop where
  supply : w.supply < 2 ^ 256
  pool : w.staked p + slack ≤ (w.balance p.stakingAddr).toNat

section Steps

variable {K : Keccak256} {p : SystemParams} {w : Accounts} {slack : ℕ}

theorem Backed.transfer (h : Backed p 0 w) {src : Address} (dst : Address) {v : U256} (hsrc : p.stakingAddr ≠ src)
    (hv : v ≤ w.balance src) :
    Backed p (if p.stakingAddr = dst then v.toNat else 0) (w.transfer src dst v) := by
  constructor
  · rw [supply_transfer hv h.supply]
    exact h.supply
  · have hpool := h.pool
    rw [balance_transfer hsrc hv h.supply, transfer_staked]
    omega

theorem Backed.weaken (h : Backed p slack w) : Backed p 0 w :=
  ⟨h.supply, le_trans (by omega) h.pool⟩

theorem staked_update {w w' : Accounts} {a : Address} {v : Hash}
    (h : ∀ b, w'.stake p b = Function.update (w.stake p) a v b) :
    w'.staked p + (w.stake p a).toNat = w.staked p + v.toNat := by
  unfold Accounts.staked
  simp only [h]
  exact sum_toNat_update (w.stake p) a v

theorem stake_le_staked (w : Accounts) (a : Address) : (w.stake p a).toNat ≤ w.staked p :=
  Finset.single_le_sum (f := fun a => (w.stake p a).toNat) (fun _ _ => Nat.zero_le _) (Finset.mem_univ a)

theorem deposited_staked (hp : p.stakingAddr ≠ p.validatorAddr) (w : Accounts) (sender : Address) (value : ℕ) :
    (w.deposited p sender value).staked p ≤ w.staked p + value := by
  by_cases hv : value > 0
  · have hstake (b : Address) : (w.deposited p sender value).stake p b =
        Function.update (w.stake p) sender (bigToHash value) b := by
      rw [deposited_stake hp, Function.update_apply]
      simp only [hv, and_true]
    have hstaked := staked_update hstake
    have hle : (bigToHash value).toNat ≤ value := by
      rw [bigToHash, BitVec.toNat_ofNat]
      exact Nat.mod_le _ _
    omega
  · rw [Accounts.deposited, if_neg hv]
    omega

theorem Backed.covers (hp : p.stakingAddr ≠ p.validatorAddr) {value : ℕ} (h : Backed p value w)
    (sender a : Address) :
    ((w.deposited p sender value).stake p a).toNat ≤ (w.balance p.stakingAddr).toNat :=
  calc ((w.deposited p sender value).stake p a).toNat
    _ ≤ (w.deposited p sender value).staked p := stake_le_staked _ a
    _ ≤ w.staked p + value := deposited_staked hp w sender value
    _ ≤ (w.balance p.stakingAddr).toNat := h.pool

theorem Backed.stakingContract (hp : p.stakingAddr ≠ p.validatorAddr) {value : ℕ} (h : Backed p value w)
    {sender : Address} (hsender : sender ≠ p.stakingAddr) (data : Bytes) :
    Backed p 0 (w.stakingContract p sender value data) := by
  have hdeposited := deposited_staked hp w sender value
  have hpool := h.pool
  by_cases hc : Completes p w sender value data
  · have hamount : (w.deposited p sender value).stake p sender ≤ w.balance p.stakingAddr :=
      h.covers hp sender sender
    have hbalance := stakingContract_balance hc
    have hpaid := transfer_balance_src (w := w) hsender hamount
    have hstake (b : Address) : (w.stakingContract p sender value data).stake p b =
        Function.update ((w.deposited p sender value).stake p) sender 0 b := by
      rw [stakingContract_stake hp, Function.update_apply]
      simp only [hc, and_true]
    have hremoved := staked_update hstake
    constructor
    · rw [Accounts.supply_congr hbalance, supply_transfer hamount h.supply]
      exact h.supply
    · have hzero : (0 : Hash).toNat = 0 := rfl
      rw [hbalance]
      omega
  · rw [stakingContract_eq, if_neg hc]
    have hbalance := deposited_balance (w := w) (p := p) sender value
    constructor
    · rw [Accounts.supply_congr hbalance]
      exact h.supply
    · rw [hbalance]
      omega

def RewardPaid (p : SystemParams) (w w' : Accounts) : Prop :=
  w' = w ∨ ∃ target amt, amt ≤ w.balance p.rewardAddr ∧ w' = w.transfer p.rewardAddr target amt

variable (K p) in
theorem rewardPaid_distributeReward (m : Bytes → Bytes) (value : ℕ) (data : Bytes) :
    RewardPaid p (accounts K m) (accounts K ((distributeReward K p value data).denote m).2) := by
  rw [accounts_distributeReward]
  unfold Accounts.distributeReward Accounts.payReward
  cases rewardOrder value data with
  | none => exact Or.inl rfl
  | some order =>
    rw [Option.map_some, Option.getD_some]
    split
    next => exact Or.inl rfl
    next hpool => exact Or.inr ⟨order.1, order.2, BitVec.not_lt.mp hpool, rfl⟩

theorem Backed.processSystemContracts (hp : p.stakingAddr ≠ p.validatorAddr) (hr : p.stakingAddr ≠ p.rewardAddr)
    {m : Bytes → Bytes} {t : PaidMessage} (hsender : t.msg.fromAddr ≠ p.stakingAddr)
    (h : Backed p (if p.stakingAddr = t.recipient then t.msg.value else 0) (accounts K m)) :
    Backed p 0 (accounts K ((processSystemContracts K p t.msg t.data).denote m).2) := by
  simp only [Zephyria.processSystemContracts, Prog.denote_bind]
  by_cases hto : t.msg.toAddr = some p.stakingAddr
  · have hrecipient : p.stakingAddr = t.recipient := by rw [PaidMessage.recipient, hto, Option.getD_some]
    have hother : ¬t.msg.toAddr = some p.rewardAddr := by
      rw [hto]
      exact fun heq => hr (Option.some.inj heq)
    rw [if_pos hrecipient] at h
    rw [if_pos hto, if_neg hother, Prog.denote_pure, accounts_stakingContract]
    exact h.stakingContract hp hsender t.data
  · rw [if_neg hto, Prog.denote_pure]
    split
    next =>
      obtain hsame | ⟨target, amt, hamt, hmoved⟩ := rewardPaid_distributeReward K p m t.msg.value t.data
      · rw [hsame]
        exact h.weaken
      · rw [hmoved]
        exact (h.weaken.transfer target hr hamt).weaken
    next => exact h.weaken

theorem book_payMessage (s : StateDB) (t : PaidMessage) :
    (book K (StateDB.exec (payMessage K p t) s).2 = book K s ∧
        ((book K s).balance t.msg.fromAddr).toNat < t.msg.value) ∨
      t.msg.value ≤ ((book K s).balance t.msg.fromAddr).toNat ∧ ∃ m, accounts K m = (book K s).moved t ∧
        book K (StateDB.exec (payMessage K p t) s).2 =
          accounts K ((processSystemContracts K p t.msg t.data).denote m).2 := by
  unfold book
  rw [(StateDB.exec_denote _ s).2]
  simp only [payMessage, Prog.denote_bind, Prog.denote_ite, denote_getBalance]
  split
  next hfunds => exact Or.inl ⟨rfl, hfunds⟩
  next hfunds =>
    refine Or.inr ⟨Nat.le_of_not_lt hfunds, _, ?_, rfl⟩
    rw [accounts_addBalance, accounts_subBalance, Accounts.moved, transfer_eq_credit]
    rfl

theorem Backed.moved {t : PaidMessage} (h : Backed p 0 w) (hsender : t.msg.fromAddr ≠ p.stakingAddr)
    (hfunds : t.msg.value ≤ (w.balance t.msg.fromAddr).toNat) :
    Backed p (if p.stakingAddr = t.recipient then t.msg.value else 0) (w.moved t) := by
  have hlt := (w.balance t.msg.fromAddr).isLt
  have hnat : (BitVec.ofNat 256 t.msg.value).toNat = t.msg.value := by
    rw [BitVec.toNat_ofNat, Nat.mod_eq_of_lt (by omega)]
  have hle : BitVec.ofNat 256 t.msg.value ≤ w.balance t.msg.fromAddr := by
    rw [BitVec.le_def, hnat]
    exact hfunds
  have hmoved := h.transfer t.recipient hsender.symm hle
  rw [hnat] at hmoved
  exact hmoved

theorem Backed.payMessage (hp : p.stakingAddr ≠ p.validatorAddr) (hr : p.stakingAddr ≠ p.rewardAddr) {s : StateDB}
    {t : PaidMessage} (hsender : t.msg.fromAddr ≠ p.stakingAddr) (h : Backed p 0 (book K s)) :
    Backed p 0 (book K (StateDB.exec (payMessage K p t) s).2) := by
  obtain ⟨hrefused, -⟩ | ⟨hfunds, m, hm, hpaid⟩ := book_payMessage (K := K) (p := p) s t
  · rw [hrefused]
    exact h
  · rw [hpaid]
    apply Backed.processSystemContracts hp hr hsender
    rw [hm]
    exact h.moved hsender hfunds

theorem Backed.payMessages (hp : p.stakingAddr ≠ p.validatorAddr) (hr : p.stakingAddr ≠ p.rewardAddr) {s : StateDB}
    (h : Backed p 0 (book K s)) (msgs : List PaidMessage)
    (hsender : ∀ t ∈ msgs, t.msg.fromAddr ≠ p.stakingAddr) : Backed p 0 (book K (payMessages K p s msgs)) := by
  induction msgs generalizing s with
  | nil => exact h
  | cons t msgs ih =>
    apply ih (h.payMessage hp hr (hsender t List.mem_cons_self))
    exact fun t ht => hsender t (List.mem_cons_of_mem _ ht)

end Steps

theorem staking_pool_solvent (K : Keccak256) (p : SystemParams) (hp : p.stakingAddr ≠ p.validatorAddr)
    (hr : p.stakingAddr ≠ p.rewardAddr) (s : StateDB) (hstart : ∀ a, (book K s).stake p a = 0)
    (hsupply : (book K s).supply < 2 ^ 256) (msgs : List PaidMessage)
    (hsender : ∀ t ∈ msgs, t.msg.fromAddr ≠ p.stakingAddr) : PoolSolvent K p s msgs := by
  have hnone : (book K s).staked p = 0 := by
    apply Finset.sum_eq_zero
    intro a _
    rw [hstart a]
    rfl
  have hbacked (pre : List PaidMessage) (hpre : pre <+: msgs) : Backed p 0 (book K (payMessages K p s pre)) := by
    apply Backed.payMessages hp hr ⟨hsupply, by omega⟩
    exact fun t ht => hsender t (hpre.subset ht)
  refine ⟨fun pre hpre => le_trans (Nat.le_add_right _ _) (hbacked pre hpre).pool, ?_⟩
  intro pre t hpre hfunds hto hdata hstake
  have hfrom := hsender t (hpre.subset (by simp))
  have hrecipient : p.stakingAddr = t.recipient := by rw [PaidMessage.recipient, hto, Option.getD_some]
  have hmoved := (hbacked pre ((List.prefix_append pre [t]).trans hpre)).moved hfrom hfunds
  rw [if_pos hrecipient] at hmoved
  exact ⟨hdata, hstake, BitVec.not_lt.mpr (hmoved.covers hp _ _)⟩

def stakingPayment (value : ℕ) (data : Bytes) : PaidMessage where
  msg :=
    { fromAddr := 0xa1, toAddr := some systemParams.stakingAddr, nonce := 0, gasLimit := 21000, value := value,
      gasPrice := 0, gasFeeCap := 0, gasTipCap := 0, data := data, accessList := [], blobHashes := none }
  data := data
  created := 0

theorem top_up_and_unstake_solvent : PoolSolvent .ideal systemParams spender
    [stakingPayment 5 [], stakingPayment 3 [], stakingPayment 0 unstakePayload] := by
  have hstorage : (book .ideal spender).storage = (book .ideal (.base .empty .empty)).storage := by
    simp [book, spender, granted, StateDB.exec_denote]
  have hsupply : (book .ideal spender).supply = 1000000 := supply_spender
  refine staking_pool_solvent .ideal systemParams (by decide) (by decide) spender (fun a => ?_) ?_ _ ?_
  · rw [Accounts.stake, hstorage]
    rfl
  · rw [hsupply]
    decide
  · intro t ht
    simp only [List.mem_cons, List.not_mem_nil, or_false] at ht
    rcases ht with rfl | rfl | rfl <;> decide

end Zephyria
