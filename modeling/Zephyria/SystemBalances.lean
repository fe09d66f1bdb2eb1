import Zephyria.Solvency

namespace Zephyria

structure Moves (w w' : Accounts) (src dst : Address) (amt : ℕ) : Prop where
  covered : amt ≤ (w.balance src).toNat
  balance : ∀ a, (w'.balance a).toNat + (if a = src then amt else 0) =
    (w.balance a).toNat + if a = dst then amt else 0

def Accounts.unstakePayment (w : Accounts) (p : SystemParams) (msg : Message) (data : Bytes) : Option (Address × U256) :=
  if msg.toAddr = some p.stakingAddr ∧ Completes p w msg.fromAddr msg.value data then
    some (msg.fromAddr, (w.deposited p msg.fromAddr msg.value).stake p msg.fromAddr)
  else none

def Accounts.rewardPayment (w : Accounts) (p : SystemParams) (msg : Message) (data : Bytes) : Option (Address × U256) :=
  if msg.toAddr = some p.rewardAddr then
    (rewardOrder msg.value data).filter fun order => order.2 ≤ w.balance p.rewardAddr
  else none

def Pays (w w' : Accounts) (src : Address) : Option (Address × U256) → Prop
  | none => w'.balance = w.balance
  | some (dst, amt) => Moves w w' src dst amt.toNat

section Moves

variable {p : SystemParams} {w w' : Accounts} {src dst : Address} {amt : ℕ}

theorem Moves.supply (h : Moves w w' src dst amt) : w'.supply = w.supply := by
  have hsum := Finset.sum_congr (rfl : (Finset.univ : Finset Address) = Finset.univ) fun a _ => h.balance a
  rw [Finset.sum_add_distrib, Finset.sum_add_distrib, Finset.sum_ite_eq' Finset.univ src,
    Finset.sum_ite_eq' Finset.univ dst, if_pos (Finset.mem_univ _), if_pos (Finset.mem_univ _)] at hsum
  exact Nat.add_right_cancel hsum

theorem moves_transfer {v : U256} (hv : v ≤ w.balance src) (hs : w.supply < 2 ^ 256) :
    Moves w (w.transfer src dst v) src dst v.toNat := by
  refine ⟨hv, fun a => ?_⟩
  by_cases ha : a = src
  · subst ha
    rw [if_pos rfl]
    by_cases hdst : dst = a
    · subst hdst
      have hback : w.balance dst - v + v = w.balance dst := BitVec.sub_add_cancel _ _
      rw [if_pos rfl, Accounts.transfer]
      simp only [Accounts.balance_setBalance, Function.update_self, hback]
    · rw [if_neg (Ne.symm hdst), Nat.add_zero]
      exact transfer_balance_src hdst hv
  · rw [if_neg ha, Nat.add_zero]
    exact balance_transfer ha hv hs

theorem supply_of_pays {payment : Option (Address × U256)} (h : Pays w w' src payment) : w'.supply = w.supply := by
  cases payment with
  | none => exact Accounts.supply_congr h
  | some order => exact Moves.supply h

theorem pays_unstake (hs : w.supply < 2 ^ 256) {msg : Message} (hto : msg.toAddr = some p.stakingAddr) (data : Bytes) :
    Pays w (w.stakingContract p msg.fromAddr msg.value data) p.stakingAddr (w.unstakePayment p msg data) := by
  unfold Accounts.unstakePayment
  by_cases hc : Completes p w msg.fromAddr msg.value data
  · rw [if_pos ⟨hto, hc⟩]
    have hmoves : Moves w (w.transfer p.stakingAddr msg.fromAddr _) p.stakingAddr msg.fromAddr _ :=
      moves_transfer (BitVec.not_lt.mp hc.2.2) hs
    refine ⟨hmoves.covered, fun a => ?_⟩
    rw [stakingContract_balance hc]
    exact hmoves.balance a
  · rw [if_neg fun h => hc h.2, stakingContract_eq, if_neg hc]
    exact deposited_balance _ _

theorem pays_reward (hs : w.supply < 2 ^ 256) {msg : Message} (hto : msg.toAddr = some p.rewardAddr) (data : Bytes) :
    Pays w (w.distributeReward p msg.value data) p.rewardAddr (w.rewardPayment p msg data) := by
  unfold Accounts.rewardPayment Accounts.distributeReward
  rw [if_pos hto]
  cases rewardOrder msg.value data with
  | none => exact rfl
  | some order =>
    rw [Option.map_some, Option.getD_some, Accounts.payReward]
    by_cases hpool : w.balance p.rewardAddr < order.2
    · rw [if_pos hpool, Option.filter_some_neg (by simpa using hpool)]
      exact rfl
    · rw [if_neg hpool, Option.filter_some_pos (by simpa using hpool)]
      exact moves_transfer (BitVec.not_lt.mp hpool) hs

theorem pays_systemContracts (p : SystemParams) (hs : w.supply < 2 ^ 256) (msg : Message) (data : Bytes) :
    ∃ mid, Pays w mid p.stakingAddr (w.unstakePayment p msg data) ∧
      Pays mid (w.systemContracts p msg data) p.rewardAddr (mid.rewardPayment p msg data) := by
  have hstaking : Pays w (if msg.toAddr = some p.stakingAddr then w.stakingContract p msg.fromAddr msg.value data else w)
      p.stakingAddr (w.unstakePayment p msg data) := by
    split
    next hto => exact pays_unstake hs hto data
    next hto =>
      rw [Accounts.unstakePayment, if_neg fun h => hto h.1]
      exact rfl
  refine ⟨_, hstaking, ?_⟩
  rw [← supply_of_pays hstaking] at hs
  unfold Accounts.systemContracts
  dsimp only
  generalize (if msg.toAddr = some p.stakingAddr then _ else _) = mid at hs ⊢
  split
  next hto => exact pays_reward hs hto data
  next hto =>
    rw [Accounts.rewardPayment, if_neg hto]
    exact rfl

end Moves

/-- Whatever a message brings, the system contracts pay the stake of its sender and the ordered
reward, each where its pool covers it, and change no balance otherwise. -/
theorem system_contracts_keep_value (K : Keccak256) (p : SystemParams) (s : StateDB)
    (hs : (book K s).supply < 2 ^ 256) (msg : Message) (data : Bytes) :
    (book K (StateDB.exec (processSystemContracts K p msg data) s).2).supply = (book K s).supply ∧
      ∃ mid, Pays (book K s) mid p.stakingAddr ((book K s).unstakePayment p msg data) ∧
        Pays mid (book K (StateDB.exec (processSystemContracts K p msg data) s).2) p.rewardAddr
          (mid.rewardPayment p msg data) := by
  have hbook : book K (StateDB.exec (processSystemContracts K p msg data) s).2 = (book K s).systemContracts p msg data := by
    rw [book, (StateDB.exec_denote _ s).2, accounts_systemContracts]
  obtain ⟨mid, hstaking, hreward⟩ := pays_systemContracts p hs msg data
  rw [hbook]
  exact ⟨(supply_of_pays hreward).trans (supply_of_pays hstaking), mid, hstaking, hreward⟩

def rewardPool : StateDB := granted .ideal [(systemParams.rewardAddr, 100)]

def rewardMessage : Message where
  fromAddr := 0xa2
  toAddr := some systemParams.rewardAddr
  nonce := 0
  gasLimit := 21000
  value := 0
  gasPrice := 0
  gasFeeCap := 0
  gasTipCap := 0
  data := rewardTag ++ [97, 49, 58, 55] -- "a1:7"
  accessList := []
  blobHashes := none

theorem reward_keeps_value :
    let paid := book .ideal (StateDB.exec (processSystemContracts .ideal systemParams rewardMessage
      rewardMessage.data) rewardPool).2
    paid.supply = 100 ∧ paid.balance systemParams.rewardAddr = 93 ∧ paid.balance 0xa1 = 7 := by
  have hsupply : (book .ideal rewardPool).supply = 100 := Executor.ideal.supply_granted systemParams.rewardAddr 100
  obtain ⟨hkept, -⟩ := system_contracts_keep_value .ideal systemParams rewardPool (by rw [hsupply]; decide)
    rewardMessage rewardMessage.data
  exact ⟨hkept.trans hsupply, by decide +kernel, by decide +kernel⟩

end Zephyria
