import Zephyria.StakingHistory

namespace Zephyria

section Contract

variable (p : SystemParams) (w : Accounts)

def Accounts.deposited (sender : Address) (value : ℕ) : Accounts :=
  if value > 0 then w.deposit p sender value else w

def Completes (sender : Address) (value : ℕ) (data : Bytes) : Prop :=
  data = unstakePayload ∧ (w.deposited p sender value).stake p sender ≠ 0 ∧
    ¬w.balance p.stakingAddr < (w.deposited p sender value).stake p sender

instance (sender : Address) (value : ℕ) (data : Bytes) : Decidable (Completes p w sender value data) :=
  inferInstanceAs (Decidable (_ ∧ _ ∧ _))

variable {p w}

theorem deposited_balance (sender : Address) (value : ℕ) :
    (w.deposited p sender value).balance = w.balance := by
  unfold Accounts.deposited Accounts.deposit
  split
  · simp only
    split <;> simp
  · rfl

theorem deposited_stake (hp : p.stakingAddr ≠ p.validatorAddr) (sender : Address) (value : ℕ) (b : Address) :
    (w.deposited p sender value).stake p b =
      if b = sender ∧ value > 0 then bigToHash value else w.stake p b := by
  unfold Accounts.deposited
  by_cases hv : value > 0
  · rw [if_pos hv]
    have hd := congrFun (deposit_staking (w := w) hp (a := sender) value) (addressKey b)
    by_cases hb : b = sender
    · subst hb
      rw [if_pos ⟨rfl, hv⟩]
      exact hd.trans (Function.update_self _ _ _)
    · rw [if_neg fun h => hb h.1]
      exact hd.trans (Function.update_of_ne (addressKey_ne hb) _ _)
  · rw [if_neg hv, if_neg fun h => hv h.2]

theorem stakingContract_eq (sender : Address) (value : ℕ) (data : Bytes) :
    w.stakingContract p sender value data = if Completes p w sender value data then
      ((w.deposited p sender value).transfer p.stakingAddr sender
        ((w.deposited p sender value).stake p sender)).removeValidator p (addressKey sender)
      else w.deposited p sender value := by
  have hb := deposited_balance (w := w) (p := p) sender value
  change (if data = unstakePayload then (w.deposited p sender value).unstake p sender
    else w.deposited p sender value) = _
  unfold Accounts.unstake Completes
  rw [hb]
  split_ifs <;> simp_all

theorem stakingContract_stake (hp : p.stakingAddr ≠ p.validatorAddr) (sender : Address) (value : ℕ)
    (data : Bytes) (b : Address) :
    (w.stakingContract p sender value data).stake p b =
      if b = sender ∧ Completes p w sender value data then 0
      else (w.deposited p sender value).stake p b := by
  rw [stakingContract_eq]
  by_cases hc : Completes p w sender value data
  · rw [if_pos hc]
    have hr := congrFun (removeValidator_staking (w := (w.deposited p sender value).transfer p.stakingAddr
      sender ((w.deposited p sender value).stake p sender)) hp (addressKey sender)) (addressKey b)
    by_cases hb : b = sender
    · subst hb
      rw [if_pos ⟨rfl, hc⟩]
      exact hr.trans (Function.update_self _ _ _)
    · rw [if_neg fun h => hb h.1]
      exact hr.trans (Function.update_of_ne (addressKey_ne hb) _ _)
  · rw [if_neg hc, if_neg fun h => hc h.2]

theorem removeValidator_balance (key : Hash) : (w.removeValidator p key).balance = w.balance := by
  unfold Accounts.removeValidator
  simp only
  split <;> simp [Accounts.swapLast]

theorem stakingContract_balance {sender : Address} {value : ℕ} {data : Bytes}
    (hc : Completes p w sender value data) :
    (w.stakingContract p sender value data).balance =
      (w.transfer p.stakingAddr sender ((w.deposited p sender value).stake p sender)).balance := by
  rw [stakingContract_eq, if_pos hc, removeValidator_balance]
  simp only [Accounts.transfer, Accounts.balance_setBalance, deposited_balance]

theorem transfer_balance_dst {src dst : Address} (h : dst ≠ src) (v : U256) :
    (w.transfer src dst v).balance dst = w.balance dst + v := by
  simp [Accounts.transfer, h]

end Contract

section Accounting

variable (K : Keccak256) (p : SystemParams)

def hold (w : Accounts) (held : Address → ℕ) : Call → Address → ℕ
  | .system msg data =>
    if msg.toAddr = some p.stakingAddr then
      Function.update held msg.fromAddr
        (if Completes p w msg.fromAddr msg.value data then 0 else held msg.fromAddr + msg.value)
    else held
  | .balance _ _ => held

def held (s : StateDB) (calls : List Call) : Address → ℕ :=
  (calls.foldl (fun x c => (execCall K p x.1 c, hold p (book K x.1) x.2 c)) (s, fun _ => 0)).2

structure StakeAccounted (s : StateDB) (calls : List Call) : Prop where
  recorded : ∀ pre, pre <+: calls → ∀ a,
    ((book K (execCalls K p s pre)).stake p a).toNat = held K p s pre a
  credited : ∀ pre msg data, pre ++ [Call.system msg data] <+: calls →
    msg.toAddr = some p.stakingAddr →
    Completes p (book K (execCalls K p s pre)) msg.fromAddr msg.value data →
    ∃ amt : U256, amt.toNat = held K p s pre msg.fromAddr + msg.value ∧
      (book K (execCalls K p s (pre ++ [Call.system msg data]))).balance =
        ((book K (execCalls K p s pre)).transfer p.stakingAddr msg.fromAddr amt).balance

def NoTopUp (s : StateDB) (calls : List Call) : Prop :=
  ∀ pre msg data, pre ++ [Call.system msg data] <+: calls → msg.toAddr = some p.stakingAddr →
    0 < msg.value → (book K (execCalls K p s pre)).stake p msg.fromAddr = 0

variable {K p}

theorem held_concat (s : StateDB) (calls : List Call) (c : Call) :
    held K p s (calls ++ [c]) = hold p (book K (execCalls K p s calls)) (held K p s calls) c := by
  have hfst (calls : List Call) (x : StateDB × (Address → ℕ)) :
      (calls.foldl (fun x c => (execCall K p x.1 c, hold p (book K x.1) x.2 c)) x).1 =
        execCalls K p x.1 calls := by
    induction calls generalizing x with
    | nil => rfl
    | cons c calls ih => exact ih _
  simp only [held, List.foldl_append, List.foldl_cons, List.foldl_nil, hfst]

theorem book_execCall {s : StateDB} {msg : Message} (data : Bytes) (hto : msg.toAddr = some p.stakingAddr)
    (hp : p.stakingAddr ≠ p.rewardAddr) : book K (execCall K p s (.system msg data)) =
      (book K s).stakingContract p msg.fromAddr msg.value data := by
  have hr : msg.toAddr ≠ some p.rewardAddr := by
    rw [hto]
    exact fun h => hp (by simpa using h)
  rw [book, execCall, (StateDB.exec_denote _ s).2]
  simp only [processSystemContracts, Prog.denote_bind, if_pos hto, if_neg hr, Prog.denote_pure,
    accounts_stakingContract]

theorem stake_execCall (hp : p.stakingAddr ≠ p.validatorAddr) {s : StateDB} {L : Address → ℕ}
    (h : ∀ a, ((book K s).stake p a).toNat = L a) {c : Call}
    (hvalue : ∀ msg data, c = .system msg data → msg.value < 2 ^ 256)
    (htop : ∀ msg data, c = .system msg data → msg.toAddr = some p.stakingAddr → 0 < msg.value →
      (book K s).stake p msg.fromAddr = 0) (a : Address) :
    ((book K (execCall K p s c)).stake p a).toNat = hold p (book K s) L c a := by
  have hstorage := execCall_storage K p s c
  cases c with
  | balance b v =>
    rw [Accounts.stake, hstorage]
    exact h a
  | system msg data =>
    by_cases hto : msg.toAddr = some p.stakingAddr
    · simp only [if_pos hto] at hstorage
      have hs : (book K (execCall K p s (.system msg data))).stake p a =
          ((book K s).stakingContract p msg.fromAddr msg.value data).stake p a := by
        rw [Accounts.stake, hstorage]
      rw [hs, stakingContract_stake hp, deposited_stake hp]
      simp only [hold, if_pos hto]
      by_cases ha : a = msg.fromAddr
      · subst ha
        rw [Function.update_self]
        by_cases hc : Completes p (book K s) msg.fromAddr msg.value data
        · rw [if_pos ⟨rfl, hc⟩, if_pos hc]
          rfl
        · rw [if_neg fun h => hc h.2, if_neg hc, ← h msg.fromAddr]
          by_cases hv : msg.value > 0
          · rw [if_pos ⟨rfl, hv⟩, htop msg data rfl hto hv, toNat_bigToHash (hvalue msg data rfl)]
            simp
          · rw [if_neg fun h => hv h.2]
            omega
      · rw [Function.update_of_ne ha, if_neg fun h => ha h.1, if_neg fun h => ha h.1]
        exact h a
    · simp only [if_neg hto] at hstorage
      rw [Accounts.stake, hstorage]
      simp only [hold, if_neg hto]
      exact h a

theorem deposited_stake_toNat (hp : p.stakingAddr ≠ p.validatorAddr) {w : Accounts} {a : Address}
    {value : ℕ} (hvalue : value < 2 ^ 256) (htop : 0 < value → w.stake p a = 0) :
    ((w.deposited p a value).stake p a).toNat = (w.stake p a).toNat + value := by
  rw [deposited_stake hp]
  by_cases hv : value > 0
  · rw [if_pos ⟨rfl, hv⟩, htop hv, toNat_bigToHash hvalue]
    simp
  · rw [if_neg fun h => hv h.2]
    omega

theorem recorded_of_noTopUp (hp : p.stakingAddr ≠ p.validatorAddr) {s : StateDB} {calls : List Call}
    (hstart : Untouched p (book K s))
    (hvalue : ∀ msg data, Call.system msg data ∈ calls → msg.value < 2 ^ 256)
    (h : NoTopUp K p s calls) (pre : List Call) (hpre : pre <+: calls) (a : Address) :
    ((book K (execCalls K p s pre)).stake p a).toNat = held K p s pre a := by
  induction pre using List.reverseRecOn generalizing a with
  | nil =>
    change (Accounts.stake p (book K s) a).toNat = 0
    rw [Accounts.stake, (hstart _).1]
    rfl
  | append_singleton pre c ih =>
    rw [execCalls_concat, held_concat]
    apply stake_execCall hp (ih ((List.prefix_append pre [c]).trans hpre))
    · rintro msg data rfl
      exact hvalue msg data (hpre.subset (by simp))
    · rintro msg data rfl
      exact h pre msg data hpre

theorem no_top_up_of_accounted (hp : p.stakingAddr ≠ p.validatorAddr) (hr : p.stakingAddr ≠ p.rewardAddr)
    {s : StateDB} {calls : List Call}
    (hvalue : ∀ msg data, Call.system msg data ∈ calls → msg.value < 2 ^ 256)
    (hsender : p.stakingAddr ∉ senders calls) (h : StakeAccounted K p s calls) : NoTopUp K p s calls := by
  intro pre msg data hpre hto hv
  have hpre' : pre <+: calls := (List.prefix_append pre _).trans hpre
  have hmem : Call.system msg data ∈ calls := hpre.subset (by simp)
  have hne : msg.fromAddr ≠ p.stakingAddr := fun he => hsender ⟨msg, data, hmem, he⟩
  have hbefore := h.recorded pre hpre' msg.fromAddr
  have hafter := h.recorded _ hpre msg.fromAddr
  have hbook := book_execCall (K := K) (s := execCalls K p s pre) data hto hr
  have hrecord : ((book K (execCalls K p s pre)).deposited p msg.fromAddr msg.value).stake p msg.fromAddr =
      bigToHash msg.value := by
    rw [deposited_stake hp, if_pos ⟨rfl, hv⟩]
  have hnat := toNat_bigToHash (hvalue msg data hmem)
  have hzero : held K p s pre msg.fromAddr = 0 := by
    by_cases hc : Completes p (book K (execCalls K p s pre)) msg.fromAddr msg.value data
    · obtain ⟨amt, hamt, hbal⟩ := h.credited pre msg data hpre hto hc
      have hpaid := congrFun hbal msg.fromAddr
      rw [execCalls_concat, hbook, stakingContract_balance hc, hrecord, transfer_balance_dst hne,
        transfer_balance_dst hne] at hpaid
      rw [← add_left_cancel hpaid, hnat] at hamt
      omega
    · rw [execCalls_concat, held_concat, hbook, stakingContract_stake hp, if_neg fun h => hc h.2,
        hrecord, hnat] at hafter
      simp only [hold, if_pos hto, if_neg hc, Function.update_self] at hafter
      omega
  rw [hzero] at hbefore
  exact BitVec.eq_of_toNat_eq hbefore

/-- The stakes on record are the sums of the deposits, and are paid back as such, exactly in the
runs without top-ups. -/
theorem stake_accounted_iff (K : Keccak256) (network : Network) (s : StateDB) (calls : List Call)
    (hstart : Untouched (getNetworkConfig network).params (book K s))
    (hvalue : ∀ msg data, Call.system msg data ∈ calls → msg.value < 2 ^ 256)
    (hsender : (getNetworkConfig network).params.stakingAddr ∉ senders calls) :
    StakeAccounted K (getNetworkConfig network).params s calls ↔
      NoTopUp K (getNetworkConfig network).params s calls := by
  rw [getNetworkConfig_params] at hstart hsender ⊢
  have hp : systemParams.stakingAddr ≠ systemParams.validatorAddr := by decide
  have hr : systemParams.stakingAddr ≠ systemParams.rewardAddr := by decide
  refine ⟨no_top_up_of_accounted hp hr hvalue hsender, fun h => ?_⟩
  have hrecorded := recorded_of_noTopUp hp hstart hvalue h
  refine ⟨hrecorded, fun pre msg data hpre hto hc => ?_⟩
  have hpre' : pre <+: calls := (List.prefix_append pre _).trans hpre
  have hmem : Call.system msg data ∈ calls := hpre.subset (by simp)
  refine ⟨((book K (execCalls K systemParams s pre)).deposited systemParams msg.fromAddr msg.value).stake
    systemParams msg.fromAddr, ?_, ?_⟩
  · rw [deposited_stake_toNat hp (hvalue msg data hmem) (h pre msg data hpre hto),
      hrecorded pre hpre' msg.fromAddr]
  · rw [execCalls_concat, book_execCall data hto hr, stakingContract_balance hc]

theorem noTopUp_stakingRun : NoTopUp .ideal systemParams (.new .empty) stakingRun := by
  intro pre msg data hpre _ hv
  have hlength := hpre.length_le
  rw [List.length_append, List.length_singleton, show stakingRun.length = 5 from rfl] at hlength
  have hget : stakingRun[pre.length]? = some (.system msg data) := by
    obtain ⟨rest, hrest⟩ := hpre
    rw [← hrest, List.append_assoc, List.getElem?_append_right le_rfl]
    simp
  rw [List.prefix_iff_eq_take.mp ((List.prefix_append pre _).trans hpre)]
  generalize pre.length = n at hlength hget
  have hn : n < 5 := hlength
  -- The second deposit of account 10 follows its payment.
  interval_cases n <;> cases hget
  · decide +kernel
  · decide +kernel
  · exact absurd hv (lt_irrefl 0)
  · decide +kernel

theorem stake_accounted_rejoined :
    StakeAccounted .ideal systemParams (.new .empty) stakingRun ∧
      held .ideal systemParams (.new .empty) stakingRun 10 = 3 := by
  have hsender : systemParams.stakingAddr ∉ senders stakingRun := by
    rintro ⟨msg, data, hm, he⟩
    rcases (mem_stakingRun hm).1 with h | h <;> (rw [h] at he; revert he; decide)
  have haccounted := (stake_accounted_iff .ideal .simulation (.new .empty) stakingRun (fun _ => ⟨rfl, rfl⟩)
    values_stakingRun hsender).mpr noTopUp_stakingRun
  refine ⟨haccounted, (haccounted.recorded _ List.prefix_rfl 10).symm.trans ?_⟩
  decide +kernel

theorem top_up_overwrites :
    ¬StakeAccounted .ideal systemParams (.new .empty) [stakingMessage 10 5 [], stakingMessage 10 3 []] := by
  intro h
  have hstake := h.recorded _ List.prefix_rfl 10
  revert hstake
  decide +kernel

end Accounting

end Zephyria
