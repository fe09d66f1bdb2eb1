import Zephyria.SystemBalances

namespace Zephyria

namespace Accounts

variable (w : Accounts) (p : SystemParams)

def refund (msg : Message) (data : Bytes) : U256 :=
  if msg.toAddr = some p.stakingAddr ∧ Completes p w msg.fromAddr msg.value data then
    (w.deposited p msg.fromAddr msg.value).stake p msg.fromAddr
  else 0

def ownReward (msg : Message) (data : Bytes) : U256 :=
  ((rewardOrder msg.value data).map fun order =>
    if msg.toAddr = some p.rewardAddr ∧ order.1 = msg.fromAddr ∧ ¬w.balance p.rewardAddr < order.2 then order.2
    else 0).getD 0

end Accounts

section Payout

variable {w : Accounts} {p : SystemParams} {msg : Message} {data : Bytes}

theorem balance_stakingContract (hne : msg.fromAddr ≠ p.stakingAddr) (hto : msg.toAddr = some p.stakingAddr) :
    (w.stakingContract p msg.fromAddr msg.value data).balance msg.fromAddr =
      w.balance msg.fromAddr + w.refund p msg data := by
  unfold Accounts.refund
  by_cases hc : Completes p w msg.fromAddr msg.value data
  · rw [if_pos ⟨hto, hc⟩, stakingContract_balance hc, transfer_balance_dst hne]
  · rw [if_neg (fun h => hc h.2), stakingContract_eq, if_neg hc, deposited_balance, add_zero]

theorem balance_transfer_other {src dst a : Address} (hsrc : a ≠ src) (hdst : a ≠ dst) (v : U256) :
    (w.transfer src dst v).balance a = w.balance a := by
  rw [transfer_eq_credit, Accounts.balance_credit, Function.update_of_ne hdst, Accounts.balance_credit,
    Function.update_of_ne hsrc]

theorem balance_distributeReward (hne : msg.fromAddr ≠ p.rewardAddr) (hto : msg.toAddr = some p.rewardAddr) :
    (w.distributeReward p msg.value data).balance msg.fromAddr =
      w.balance msg.fromAddr + w.ownReward p msg data := by
  unfold Accounts.distributeReward Accounts.ownReward Accounts.payReward
  cases rewardOrder msg.value data with
  | none => exact (add_zero _).symm
  | some order =>
    rw [Option.map_some, Option.getD_some, Option.map_some, Option.getD_some]
    by_cases hpool : w.balance p.rewardAddr < order.2
    · rw [if_pos hpool, if_neg (fun h => h.2.2 hpool), add_zero]
    · rw [if_neg hpool]
      by_cases htarget : order.1 = msg.fromAddr
      · rw [if_pos ⟨hto, htarget, hpool⟩, htarget, transfer_balance_dst hne]
      · rw [if_neg (fun h => htarget h.2.1), balance_transfer_other hne (Ne.symm htarget), add_zero]

theorem of_rewardOrder {order : Address × U256} (h : rewardOrder msg.value data = some order) :
    msg.value = 0 ∧ data ≠ unstakePayload := by
  unfold rewardOrder at h
  split at h
  next hreward =>
    refine ⟨hreward.1, ?_⟩
    rintro rfl
    exact absurd hreward.2.1 (by decide)
  next => cases h

theorem stakingContract_of_rewardOrder {order : Address × U256} (h : rewardOrder msg.value data = some order) :
    w.stakingContract p msg.fromAddr msg.value data = w := by
  obtain ⟨hvalue, hdata⟩ := of_rewardOrder h
  rw [stakingContract_eq, if_neg (fun hc => hdata hc.1), hvalue]
  rfl

theorem refund_eq_zero (h : msg.toAddr = some p.stakingAddr → data ≠ unstakePayload) : w.refund p msg data = 0 := by
  rw [Accounts.refund, if_neg]
  rintro ⟨hto, hc⟩
  exact h hto hc.1

theorem ownReward_eq_zero (h : rewardOrder msg.value data ≠ none → msg.toAddr ≠ some p.rewardAddr) :
    w.ownReward p msg data = 0 := by
  unfold Accounts.ownReward
  cases horder : rewardOrder msg.value data with
  | none => rfl
  | some order =>
    have hto := h (by rw [horder]; exact nofun)
    exact if_neg (fun hpaid => hto hpaid.1)

theorem balance_systemContracts {recipient : Address} (hto : msg.toAddr = some recipient)
    (hne : msg.fromAddr ≠ recipient) : (w.systemContracts p msg data).balance msg.fromAddr =
      w.balance msg.fromAddr + (w.refund p msg data + w.ownReward p msg data) := by
  have hother {a : Address} (h : msg.toAddr = some a) : msg.fromAddr ≠ a := by
    rwa [Option.some.inj (h.symm.trans hto)]
  unfold Accounts.systemContracts
  dsimp only
  by_cases hreward : msg.toAddr = some p.rewardAddr
  · rw [if_pos hreward]
    cases horder : rewardOrder msg.value data with
    | none =>
      rw [ownReward_eq_zero (fun h => absurd horder h), add_zero, Accounts.distributeReward, horder]
      by_cases hstaking : msg.toAddr = some p.stakingAddr
      · rw [if_pos hstaking]
        exact balance_stakingContract (hother hstaking) hstaking
      · rw [if_neg hstaking, refund_eq_zero (fun h => absurd h hstaking), add_zero]
        rfl
    | some order =>
      rw [refund_eq_zero (fun _ => (of_rewardOrder horder).2), zero_add,
        stakingContract_of_rewardOrder horder, ite_self]
      exact balance_distributeReward (hother hreward) hreward
  · rw [if_neg hreward, ownReward_eq_zero (fun _ => hreward), add_zero]
    by_cases hstaking : msg.toAddr = some p.stakingAddr
    · rw [if_pos hstaking]
      exact balance_stakingContract (hother hstaking) hstaking
    · rw [if_neg hstaking, refund_eq_zero (fun h => absurd h hstaking), add_zero]

end Payout

section Fees

variable {e : Executor} {ctx : BlockContext} {s : StateDB} {tx : Transaction} {msg : Message} {recipient : Address}

instance : DecidablePred Executor.Commits
  | (_, .executed _ _ _) => isTrue trivial
  | (_, .skipped) => isFalse id
  | (_, .panicked) => isFalse id
  | (_, .rejected) => isFalse id

def Sized (tx : Transaction) : Prop :=
  tx.data.length + tx.accessList.length + (tx.accessList.map fun t => t.2.length).sum ≤ tx.size

structure SystemCall (e : Executor) (ctx : BlockContext) (s : StateDB) (tx : Transaction) (recipient : Address) :
    Prop where
  toAddr : tx.toAddr = some recipient
  system : e.isSystemTx (some recipient)
  precompile : isPrecompile recipient = false
  code : (accounts e.keccak s.getVerkleValue).codeOf ctx.codes recipient = []
  sender : tx.sender ≠ some recipient
  sized : Sized tx

def Executor.afterMessage (e : Executor) (ctx : BlockContext) (s : StateDB) (msg : Message) : Accounts :=
  accounts e.keccak ((applyMessage e.keccak e.interpreter ctx ctx.gasLimit.toNat msg).denote s.getVerkleValue).2

/-- A block of this transaction alone takes its value from the sender and gives it what the system
contracts pay it, and nothing else. -/
def GasFree (e : Executor) (ctx : BlockContext) (s : StateDB) (tx : Transaction) : Prop :=
  ∃ msg, transactionToMessage tx ctx.baseFee = some msg ∧ (∃ res, e.ApplyBlock ctx s [tx] res) ∧
    ∀ res, e.ApplyBlock ctx s [tx] res →
      (accounts e.keccak res.statedb.getVerkleValue).balance msg.fromAddr =
        (accounts e.keccak s.getVerkleValue).balance msg.fromAddr - BitVec.ofNat 256 msg.value +
          ((e.afterMessage ctx s msg).refund e.params msg tx.data +
            (e.afterMessage ctx s msg).ownReward e.params msg tx.data)

theorem intrinsicGas_ge (hmsg : transactionToMessage tx ctx.baseFee = some msg) (hsize : tx.size ≤ maxTxSize)
    (hsized : Sized tx) : 21000 ≤ (intrinsicGas msg).getD 0 := by
  obtain ⟨sender, -, rfl⟩ := Option.map_eq_some_iff.mp hmsg
  have hzeros : tx.data.count 0 ≤ tx.data.length := List.count_le_length
  unfold Sized at hsized
  unfold maxTxSize at hsize
  unfold intrinsicGas maxUint64
  dsimp only
  generalize hbase : (if tx.toAddr = none then 53000 else 21000) = base
  have hge : 21000 ≤ base := by rw [← hbase]; split <;> decide
  have hle : base ≤ 53000 := by rw [← hbase]; split <;> decide
  rw [if_neg (by omega), if_neg (by omega), Option.getD_some, Nat.mod_eq_of_lt (by omega)]
  omega

theorem balance_settleTransfer {w : Accounts} (hne : msg.fromAddr ≠ recipient) (hcoinbase : msg.fromAddr ≠ ctx.coinbase)
    (hgas : (intrinsicGas msg).getD 0 ≤ msg.gasLimit.toNat) :
    (w.settleTransfer ctx msg recipient).balance msg.fromAddr = w.balance msg.fromAddr -
      BitVec.ofNat 256 msg.value - BitVec.ofNat 256 ((intrinsicGas msg).getD 0 * msg.gasPrice) := by
  unfold Accounts.settleTransfer
  generalize (intrinsicGas msg).getD 0 = gas at hgas
  have hpaid : msg.gasLimit.toNat * msg.gasPrice =
      (msg.gasLimit.toNat - gas) * msg.gasPrice + gas * msg.gasPrice := by
    rw [← Nat.add_mul, Nat.sub_add_cancel hgas]
  simp only [Accounts.balance_credit, Accounts.balance_setNonce, Function.update_of_ne hcoinbase,
    Function.update_of_ne hne, Function.update_self, hpaid, BitVec.ofNat_add]
  ring

theorem charged_lt {balance : U256} (hcover : balanceCheck msg ≤ balance.toNat)
    (hgas : (intrinsicGas msg).getD 0 ≤ msg.gasLimit.toNat) (hprice : msg.gasPrice ≤ msg.gasFeeCap) :
    (intrinsicGas msg).getD 0 * msg.gasPrice < 2 ^ 256 := by
  unfold balanceCheck at hcover
  calc (intrinsicGas msg).getD 0 * msg.gasPrice ≤ msg.gasLimit.toNat * msg.gasFeeCap := Nat.mul_le_mul hgas hprice
    _ ≤ balance.toNat := by omega
    _ < 2 ^ 256 := balance.isLt

theorem charge_eq_zero_iff {balance : U256} (hmsg : transactionToMessage tx ctx.baseFee = some msg)
    (hsize : tx.size ≤ maxTxSize) (hsized : Sized tx) (hcover : balanceCheck msg ≤ balance.toNat)
    (hgas : (intrinsicGas msg).getD 0 ≤ msg.gasLimit.toNat) :
    BitVec.ofNat 256 ((intrinsicGas msg).getD 0 * msg.gasPrice) = 0 ↔ effectiveGasPrice ctx tx = 0 := by
  have hge := intrinsicGas_ge hmsg hsize hsized
  have hbound := charged_lt hcover hgas (transactionToMessage_price hmsg)
  rw [effectiveGasPrice_eq hmsg]
  constructor
  · intro hcharged
    have hnat := congrArg BitVec.toNat hcharged
    rw [BitVec.toNat_ofNat, Nat.mod_eq_of_lt hbound] at hnat
    exact (Nat.mul_eq_zero.mp hnat).resolve_left (by omega)
  · intro hprice
    rw [hprice, Nat.mul_zero]
    rfl

theorem book_atomic_of_commits (txs : List Transaction) (run : BlockRun)
    (hc : Executor.Commits ((e.executeTransaction ctx tx).denote run.statedb.getVerkleValue).1) :
    e.book ((e.waveStore ctx txs).atomic run (e.executeTransaction ctx tx)) =
      accounts e.keccak ((e.executeTransaction ctx tx).denote run.statedb.getVerkleValue).2 := by
  have hrun := overlayBuffer.run_fresh run.statedb.getVerkleValue (e.executeTransaction ctx tx)
  have hatomic : (e.waveStore ctx txs).atomic run (e.executeTransaction ctx tx) =
      e.finish ctx txs run
        (overlayBuffer.run run.statedb.getVerkleValue (e.executeTransaction ctx tx) overlayBuffer.fresh).2
        (overlayBuffer.run run.statedb.getVerkleValue (e.executeTransaction ctx tx) overlayBuffer.fresh).1 := rfl
  rw [hatomic, ← hrun.2]
  rw [← hrun.1] at hc
  generalize overlayBuffer.run run.statedb.getVerkleValue (e.executeTransaction ctx tx) overlayBuffer.fresh = done
    at hc
  obtain ⟨⟨tx', res⟩, own⟩ := done
  cases res with
  | skipped => exact hc.elim
  | panicked => exact hc.elim
  | rejected => exact hc.elim
  | executed usedGas failed code =>
    exact congrArg (accounts e.keccak) (funext (Executor.getVerkleValue_addCode_merge run.statedb own code))

theorem admits_of_commits (hc : Executor.Commits ((e.executeTransaction ctx tx).denote s.getVerkleValue).1) :
    Admits ctx (accounts e.keccak s.getVerkleValue) tx := by
  by_contra hadmits
  apply e.not_commits_of_not_admits ctx overlayBuffer s.getVerkleValue hadmits
  rw [(overlayBuffer.run_fresh _ _).1]
  exact hc

theorem SystemCall.accounts_executeTransaction (h : SystemCall e ctx s tx recipient)
    (hmsg : transactionToMessage tx ctx.baseFee = some msg)
    (ha : Admits ctx (accounts e.keccak s.getVerkleValue) tx) :
    e.afterMessage ctx s msg = (accounts e.keccak s.getVerkleValue).settleTransfer ctx msg recipient ∧
      accounts e.keccak ((e.executeTransaction ctx tx).denote s.getVerkleValue).2 =
        (e.afterMessage ctx s msg).systemContracts e.params msg tx.data := by
  obtain ⟨hsize, msg', hmsg', hadm⟩ := ha
  obtain rfl : msg' = msg := Option.some.inj (hmsg'.symm.trans hmsg)
  obtain ⟨-, hto, -⟩ := transactionToMessage_fields hmsg
  have happly := denote_applyMessage e.keccak e.interpreter ctx s.getVerkleValue _ h.precompile h.code
    (hto.trans h.toAddr) (transactionToMessage_price hmsg) hadm
  refine ⟨happly.2, ?_⟩
  simp only [Executor.executeTransaction, if_neg (Nat.not_lt.mpr hsize), hmsg, Prog.denote_bind, happly.1,
    Prog.denote_pure, accounts_systemContracts]
  rfl

theorem SystemCall.applyBlock (h : SystemCall e ctx s tx recipient)
    (hc : Executor.Commits ((e.executeTransaction ctx tx).denote s.getVerkleValue).1) :
    (∃ res, e.ApplyBlock ctx s [tx] res) ∧ ∀ res, e.ApplyBlock ctx s [tx] res → ∀ a, a ≠ ctx.coinbase →
      (accounts e.keccak res.statedb.getVerkleValue).balance a =
        (accounts e.keccak ((e.executeTransaction ctx tx).denote s.getVerkleValue).2).balance a := by
  have hiff (res : AppliedBlock) : e.ApplyBlock ctx s [tx] res ↔ _ :=
    e.applyBlock_iff ctx (by simp [schedule_singleton]) res
  have horder : e.runInOrder ctx [tx] (Executor.startBlock s [tx]) [tx] =
      (e.waveStore ctx [tx]).atomic (Executor.startBlock s [tx]) (e.executeTransaction ctx tx) :=
    if_neg (show ¬(0 : UInt64) > blockGasLimit by decide)
  rw [horder] at hiff
  have hfees := e.totalFees_systemTx ctx [tx] (Executor.startBlock s [tx]) (h.toAddr ▸ h.system)
  constructor
  · refine ⟨_, (hiff _).mpr ⟨⟨?_, ?_⟩, rfl⟩⟩
    · rw [← (overlayBuffer.run_fresh s.getVerkleValue _).1] at hc
      exact e.finish_calm ctx [tx] (Executor.startBlock s [tx]) _ hc.ne_panicked
    · rw [hfees]
      exact (by decide : blockReward + 0 < 2 ^ 256)
  · intro res hres a ha
    obtain ⟨-, rfl⟩ := (hiff res).mp hres
    have hbook := book_atomic_of_commits [tx] (Executor.startBlock s [tx]) hc
    change (accounts e.keccak (StateDB.exec _ _).2.getVerkleValue).balance a = _
    rw [(StateDB.exec_denote _ _).2, accounts_addBalance, Accounts.balance_setBalance, Function.update_of_ne ha]
    exact congrArg (fun w : Accounts => w.balance a) hbook

theorem system_call_gas_free_iff (e : Executor) (ctx : BlockContext) (s : StateDB) (tx : Transaction)
    (recipient : Address) (h : SystemCall e ctx s tx recipient)
    (hc : Executor.Commits ((e.executeTransaction ctx tx).denote s.getVerkleValue).1)
    (hcoinbase : tx.sender ≠ some ctx.coinbase) : GasFree e ctx s tx ↔ effectiveGasPrice ctx tx = 0 := by
  have ha := admits_of_commits hc
  obtain ⟨msg, hmsg⟩ := ha.message
  obtain ⟨hreturns, hbalance⟩ := h.applyBlock hc
  obtain ⟨hsender, hto, -⟩ := transactionToMessage_fields hmsg
  have hne : msg.fromAddr ≠ recipient := fun heq => h.sender (heq ▸ hsender)
  have hother : msg.fromAddr ≠ ctx.coinbase := fun heq => hcoinbase (heq ▸ hsender)
  obtain ⟨hafter, hexec⟩ := h.accounts_executeTransaction hmsg ha
  obtain ⟨hsize, msg', hmsg', hadm⟩ := ha
  obtain rfl : msg' = msg := Option.some.inj (hmsg'.symm.trans hmsg)
  obtain ⟨hcover, hgas⟩ := Covered.of_admission ctx hadm
  have hpaid : ((e.afterMessage ctx s msg').systemContracts e.params msg' tx.data).balance msg'.fromAddr = _ :=
    balance_systemContracts (hto.trans h.toAddr) hne
  rw [← hexec, hafter, balance_settleTransfer hne hother hgas, ← hafter] at hpaid
  have hzero := charge_eq_zero_iff hmsg hsize h.sized hcover hgas
  constructor
  · rintro ⟨msg'', hmsg'', ⟨res, hres⟩, hall⟩
    obtain rfl : msg'' = msg' := Option.some.inj (hmsg''.symm.trans hmsg)
    have heq := hall res hres
    rw [hbalance res hres _ hother, hpaid] at heq
    exact hzero.mp (sub_eq_self.mp (add_right_cancel heq))
  · intro hprice
    refine ⟨msg', hmsg, hreturns, fun res hres => ?_⟩
    rw [hbalance res hres _ hother, hpaid, hzero.mpr hprice, sub_zero]

end Fees

section Sample

def stakeTx (gasFeeCap : ℕ) : Transaction :=
  { payment 0 0xa1 systemParams.stakingAddr with gasFeeCap := gasFeeCap }

def stakeContext (baseFee : ℕ) : BlockContext := { sampleContext with baseFee := some baseFee }

theorem systemCall_stakeTx (price : ℕ) :
    SystemCall .ideal (stakeContext price) spender (stakeTx price) systemParams.stakingAddr where
  toAddr := rfl
  system := by decide
  precompile := by decide
  code := show (accounts .ideal spender.getVerkleValue).codeOf (fun _ => none) systemParams.stakingAddr = [] by
    decide +kernel
  sender := show (some 0xa1 : Option Address) ≠ some systemParams.stakingAddr by decide
  sized := show 0 ≤ 110 by decide

theorem free_stake_gas_free : GasFree .ideal (stakeContext 0) spender (stakeTx 0) :=
  (system_call_gas_free_iff .ideal (stakeContext 0) spender (stakeTx 0) systemParams.stakingAddr
    (systemCall_stakeTx 0) (by decide +kernel) (by decide)).mpr rfl

theorem stake_pays_gas :
    Executor.Commits ((Executor.ideal.executeTransaction (stakeContext 1) (stakeTx 1)).denote
        spender.getVerkleValue).1 ∧
      SystemCall .ideal (stakeContext 1) spender (stakeTx 1) systemParams.stakingAddr ∧
      (stakeTx 1).sender ≠ some (stakeContext 1).coinbase ∧ ¬GasFree .ideal (stakeContext 1) spender (stakeTx 1) := by
  have hc : Executor.Commits ((Executor.ideal.executeTransaction (stakeContext 1) (stakeTx 1)).denote
      spender.getVerkleValue).1 := by decide +kernel
  refine ⟨hc, systemCall_stakeTx 1, by decide, ?_⟩
  rintro ⟨msg, hmsg, ⟨res, hres⟩, hall⟩
  have heq := hall res hres
  obtain rfl := Option.some.inj hmsg
  rw [((systemCall_stakeTx 1).applyBlock hc).2 res hres _ (by decide)] at heq
  exact absurd heq (by decide +kernel)

end Sample

end Zephyria
