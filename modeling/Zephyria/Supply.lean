import Zephyria.Transfers

namespace Zephyria

theorem sum_toNat_update {n : ℕ} (f : Address → BitVec n) (a : Address) (v : BitVec n) :
    ∑ b, (Function.update f a v b).toNat + (f a).toNat = ∑ b, (f b).toNat + v.toNat := by
  have hnew := Finset.add_sum_erase Finset.univ (fun b => (Function.update f a v b).toNat) (Finset.mem_univ a)
  have hold := Finset.add_sum_erase Finset.univ (fun b => (f b).toNat) (Finset.mem_univ a)
  have hrest : ∑ b ∈ Finset.univ.erase a, (Function.update f a v b).toNat =
      ∑ b ∈ Finset.univ.erase a, (f b).toNat := by
    apply Finset.sum_congr rfl
    intro b hb
    rw [Function.update_of_ne (Finset.ne_of_mem_erase hb)]
  rw [hrest] at hnew
  simp only [Function.update_self] at hnew
  omega

namespace Accounts

variable (w : Accounts) (a : Address)

def supply : ℕ := ∑ a : Address, (w.balance a).toNat

theorem supply_congr {w w' : Accounts} (h : w'.balance = w.balance) : w'.supply = w.supply := by
  rw [supply, h, supply]

theorem balance_le_supply : (w.balance a).toNat ≤ w.supply :=
  Finset.single_le_sum (f := fun a => (w.balance a).toNat) (fun _ _ => Nat.zero_le _) (Finset.mem_univ a)

theorem supply_setBalance (v : U256) :
    (w.setBalance a v).supply + (w.balance a).toNat = w.supply + v.toNat :=
  sum_toNat_update w.balance a v

theorem supply_credit {v : ℕ} (h : w.supply + v < 2 ^ 256) :
    (w.credit a (BitVec.ofNat 256 v)).supply = w.supply + v := by
  have hle := w.balance_le_supply a
  have hset := w.supply_setBalance a (w.balance a + BitVec.ofNat 256 v)
  rw [BitVec.toNat_add, BitVec.toNat_ofNat] at hset
  unfold credit
  omega

theorem supply_debit {v : ℕ} (h : v ≤ (w.balance a).toNat) :
    (w.credit a (-BitVec.ofNat 256 v)).supply + v = w.supply := by
  have hset := w.supply_setBalance a (w.balance a + -BitVec.ofNat 256 v)
  rw [toNat_debit h] at hset
  unfold credit
  omega

variable {w}

theorem supply_settleTransfer {ctx : BlockContext} {msg : Message} {recipient : Address} {fee : ℕ}
    (hbase : ctx.baseFee = some fee) (hc : Covered msg (w.balance msg.fromAddr))
    (hprice : msg.gasPrice ≤ msg.gasFeeCap) (hfee : fee ≤ msg.gasPrice) (hs : w.supply < 2 ^ 256) :
    (w.settleTransfer ctx msg recipient).supply + (intrinsicGas msg).getD 0 * fee = w.supply := by
  obtain ⟨hfunds, hgas⟩ := hc
  unfold balanceCheck at hfunds
  unfold settleTransfer
  rw [hbase, Option.getD_some]
  generalize (intrinsicGas msg).getD 0 = gas at hgas
  -- What the sender pays for the gas is refund, tip and base fee.
  have hpaid : msg.gasLimit.toNat * msg.gasPrice =
      (msg.gasLimit.toNat - gas) * msg.gasPrice + (gas * (msg.gasPrice - fee) + gas * fee) := by
    rw [← Nat.mul_add, Nat.sub_add_cancel hfee, ← Nat.add_mul, Nat.sub_add_cancel hgas]
  have hcost : msg.gasLimit.toNat * msg.gasPrice ≤ msg.gasLimit.toNat * msg.gasFeeCap :=
    Nat.mul_le_mul_left _ hprice
  let bought := w.credit msg.fromAddr (-BitVec.ofNat 256 (msg.gasLimit.toNat * msg.gasPrice))
  have hbought : bought.supply + msg.gasLimit.toNat * msg.gasPrice = w.supply :=
    w.supply_debit msg.fromAddr (by omega)
  let called := bought.setNonce msg.fromAddr (storedNonce (w.nonce msg.fromAddr + 1))
  have hcalled : called.supply = bought.supply := supply_congr rfl
  let debited := called.credit msg.fromAddr (-BitVec.ofNat 256 msg.value)
  have hdebited : debited.supply + msg.value = called.supply := by
    apply called.supply_debit msg.fromAddr
    change msg.value ≤ (Function.update w.balance msg.fromAddr _ msg.fromAddr).toNat
    rw [Function.update_self, toNat_debit (by omega)]
    omega
  let moved := debited.credit recipient (BitVec.ofNat 256 msg.value)
  have hmoved : moved.supply = debited.supply + msg.value := debited.supply_credit recipient (by omega)
  let refunded := moved.credit msg.fromAddr (BitVec.ofNat 256 ((msg.gasLimit.toNat - gas) * msg.gasPrice))
  have hrefunded : refunded.supply = moved.supply + (msg.gasLimit.toNat - gas) * msg.gasPrice :=
    moved.supply_credit msg.fromAddr (by omega)
  have htipped := refunded.supply_credit ctx.coinbase (v := gas * (msg.gasPrice - fee)) (by omega)
  change (refunded.credit ctx.coinbase _).supply + gas * fee = w.supply
  omega

end Accounts

theorem fee_le_gasPrice {ctx : BlockContext} {tx : Transaction} {msg : Message} {fee : ℕ}
    (hbase : ctx.baseFee = some fee) (hmsg : transactionToMessage tx ctx.baseFee = some msg)
    (hfees : checkFees ctx.baseFee msg = none) : fee ≤ msg.gasPrice := by
  rw [hbase] at hmsg hfees
  obtain ⟨sender, -, rfl⟩ := Option.map_eq_some_iff.mp hmsg
  have hcap : fee ≤ tx.gasFeeCap := by
    simp only [checkFees] at hfees
    split_ifs at hfees
    omega
  exact Nat.le_min.mpr ⟨Nat.le_add_left _ _, hcap⟩

namespace Executor

variable (e : Executor) (ctx : BlockContext)

def runInOrder (txs : List Transaction) : BlockRun → List Transaction → BlockRun
  | run, [] => run
  | run, tx :: rest =>
    if run.blockGasUsed > blockGasLimit then run
    else runInOrder txs ((e.waveStore ctx txs).atomic run (e.executeTransaction ctx tx)) rest

theorem runWaves_singletons (txs rest : List Transaction) (run run' : BlockRun) :
    e.RunWaves ctx txs run (rest.map fun tx => [tx]) run' ↔ run' = e.runInOrder ctx txs run rest := by
  induction rest generalizing run run' with
  | nil =>
    constructor
    · intro h
      cases h <;> rfl
    · rintro rfl
      exact .nil _
  | cons tx rest ih =>
    have hsingle : Subsingleton (Fin [tx].length) := inferInstanceAs (Subsingleton (Fin 1))
    have hone (run' : BlockRun) : (e.waveStore ctx txs).Outcome run (e.goroutines ctx [tx]) run' ↔
        run' = (e.waveStore ctx txs).atomic run (e.executeTransaction ctx tx) :=
      (e.waveStore ctx txs).outcome_single (0 : Fin [tx].length)
    unfold runInOrder
    constructor
    · intro h
      cases h with
      | limit hl => rw [if_pos hl]
      | wave hl hwave hwaves =>
        obtain rfl := (hone _).mp hwave
        rw [if_neg hl]
        exact (ih _ _).mp hwaves
    · rintro rfl
      by_cases hl : run.blockGasUsed > blockGasLimit
      · rw [if_pos hl]
        exact .limit hl
      · rw [if_neg hl]
        exact .wave hl ((hone _).mpr rfl) ((ih _ _).mpr rfl)

theorem runInOrder_calm {txs rest : List Transaction} {run : BlockRun} (hbase : ctx.baseFee ≠ none)
    (hblobs : ∀ tx ∈ rest, tx.blobHashes = none) : (e.runInOrder ctx txs run rest).panicked = run.panicked := by
  induction rest generalizing run with
  | nil => rfl
  | cons tx rest ih =>
    obtain ⟨htx, hblobs⟩ := List.forall_mem_cons.mp hblobs
    unfold runInOrder
    split
    · rfl
    · rw [ih hblobs, e.atomic_calm ctx txs run hbase htx]

theorem always_systemTx {ω : Type} (B : Buffer ω Bytes Bytes) {tx : Transaction} (h : e.isSystemTx tx.toAddr)
    (o : ω) : B.Always (fun _ _ => True)
      (fun a _ => ∀ usedGas failed code, a.2 = .executed usedGas failed code → usedGas = 0)
      (e.executeTransaction ctx tx) o := by
  refine e.always_executeTransaction ctx B nofun fun _ msg hmsg => ⟨_, B.always_true _ _ _, ?_, ?_⟩
  · exact fun err _ _ _ _ _ hres => absurd hres (error_ne_executed err _ _ _)
  · intro res _ _
    refine B.always_mono (fun _ _ _ usedGas failed code hres => ?_) (B.always_true _ _ _)
    obtain ⟨-, hto, -⟩ := transactionToMessage_fields hmsg
    rw [hto, if_pos h] at hres
    exact (TxResult.executed.inj hres).1.symm

theorem totalFees_systemTx (txs : List Transaction) (run : BlockRun) {tx : Transaction}
    (h : e.isSystemTx tx.toAddr) :
    ((e.waveStore ctx txs).atomic run (e.executeTransaction ctx tx)).totalFees = run.totalFees := by
  have hfree := (e.waveStore ctx txs).always_run ((e.waveStore ctx txs).read run) (fun _ => trivial)
    (e.always_systemTx ctx (e.waveStore ctx txs).toBuffer h (e.waveStore ctx txs).fresh)
  unfold Shared.atomic
  generalize (e.waveStore ctx txs).run ((e.waveStore ctx txs).read run) (e.executeTransaction ctx tx)
    (e.waveStore ctx txs).fresh = done at hfree ⊢
  obtain ⟨⟨tx', res⟩, own⟩ := done
  cases res with
  | skipped => rfl
  | panicked => rfl
  | rejected => rfl
  | executed usedGas failed code =>
    obtain rfl := hfree usedGas failed code rfl
    change run.totalFees + 0 * _ = _
    rw [Nat.zero_mul, Nat.add_zero]

def executedMessages : Accounts → UInt64 → List Transaction → List Message
  | _, _, [] => []
  | w, used, tx :: rest =>
    if used > blockGasLimit then []
    else
      match transactionToMessage tx ctx.baseFee with
      | none => executedMessages w used rest
      | some msg =>
        if Admits ctx w tx then
          msg :: executedMessages (w.transact e.params ctx msg (msg.toAddr.getD 0))
            (used + UInt64.ofNat (e.chargedGas msg)) rest
        else executedMessages w used rest

def tips (fee : ℕ) (msgs : List Message) : ℕ :=
  ((msgs.filter fun msg => !e.isSystemTx msg.toAddr).map
    fun msg => (intrinsicGas msg).getD 0 * (msg.gasPrice - fee)).sum

def systemBaseFees (fee : ℕ) (msgs : List Message) : ℕ :=
  ((msgs.filter fun msg => e.isSystemTx msg.toAddr).map fun msg => (intrinsicGas msg).getD 0 * fee).sum

def burnt (fee : ℕ) (msgs : List Message) : ℕ :=
  (msgs.map fun msg => (intrinsicGas msg).getD 0 * fee).sum

def collected (msgs : List Message) : ℕ := (msgs.map fun msg => e.chargedGas msg * msg.gasPrice).sum

theorem collected_balance {fee : ℕ} {msgs : List Message} (h : ∀ msg ∈ msgs, fee ≤ msg.gasPrice) :
    e.collected msgs + e.systemBaseFees fee msgs = e.tips fee msgs + burnt fee msgs := by
  induction msgs with
  | nil => rfl
  | cons msg msgs ih =>
    obtain ⟨hmsg, h⟩ := List.forall_mem_cons.mp h
    have ih := ih h
    have hsplit : (intrinsicGas msg).getD 0 * msg.gasPrice =
        (intrinsicGas msg).getD 0 * (msg.gasPrice - fee) + (intrinsicGas msg).getD 0 * fee := by
      rw [← Nat.mul_add, Nat.sub_add_cancel hmsg]
    unfold collected systemBaseFees tips burnt at ih ⊢
    by_cases hs : e.isSystemTx msg.toAddr
    · simp only [List.map_cons, List.sum_cons, List.filter_cons, hs, chargedGas, Bool.not_true,
        Bool.false_eq_true, if_true, if_false, Nat.zero_mul] at ih ⊢
      omega
    · simp only [Bool.not_eq_true] at hs
      simp only [List.map_cons, List.sum_cons, List.filter_cons, hs, chargedGas, Bool.not_false,
        Bool.false_eq_true, if_true, if_false] at ih ⊢
      omega

theorem supply_atomic (txs : List Transaction) {run : BlockRun} {tx : Transaction} {recipient : Address}
    {msg : Message} {fee : ℕ} (hbase : ctx.baseFee = some fee)
    (hs : (e.book run).supply < 2 ^ 256) (ht : IsTransfer ctx (e.book run) tx recipient)
    (hmsg : transactionToMessage tx ctx.baseFee = some msg) (ha : Admits ctx (e.book run) tx) :
    (e.book ((e.waveStore ctx txs).atomic run (e.executeTransaction ctx tx))).supply +
      (intrinsicGas msg).getD 0 * fee = (e.book run).supply ∧ fee ≤ msg.gasPrice := by
  obtain ⟨-, msg', hmsg', hadm⟩ := id ha
  obtain rfl : msg' = msg := Option.some.inj (hmsg'.symm.trans hmsg)
  obtain ⟨-, -, hfees, -⟩ := admission_eq_none ctx hadm
  have hfee := fee_le_gasPrice hbase hmsg hfees
  refine ⟨?_, hfee⟩
  rw [(e.atomic_of_admits ctx txs ht hmsg ha).1, Accounts.supply_congr (Accounts.transact_frame _ _ _ _ _).1]
  exact Accounts.supply_settleTransfer hbase (Covered.of_admission ctx hadm)
    (transactionToMessage_price hmsg) hfee hs

theorem runInOrder_supply (txs rest : List Transaction) (run : BlockRun) {fee : ℕ}
    (hbase : ctx.baseFee = some fee) (hs : (e.book run).supply < 2 ^ 256)
    (ht : ∀ tx ∈ rest, ∃ recipient, IsTransfer ctx (e.book run) tx recipient) :
    (e.book (e.runInOrder ctx txs run rest)).supply +
        burnt fee (e.executedMessages ctx (e.book run) run.blockGasUsed rest) = (e.book run).supply ∧
      (e.runInOrder ctx txs run rest).totalFees =
        run.totalFees + e.collected (e.executedMessages ctx (e.book run) run.blockGasUsed rest) ∧
      ∀ msg ∈ e.executedMessages ctx (e.book run) run.blockGasUsed rest, fee ≤ msg.gasPrice := by
  induction rest generalizing run with
  | nil => simp [runInOrder, executedMessages, burnt, collected]
  | cons tx rest ih =>
    obtain ⟨⟨recipient, htx⟩, ht⟩ := List.forall_mem_cons.mp ht
    unfold runInOrder executedMessages
    by_cases hl : run.blockGasUsed > blockGasLimit
    · simp [hl, burnt, collected]
    rw [if_neg hl, if_neg hl]
    by_cases ha : Admits ctx (e.book run) tx
    · obtain ⟨msg, hmsg⟩ := ha.message
      obtain ⟨hbook, hgas, htotal⟩ := e.atomic_of_admits ctx txs htx hmsg ha
      obtain ⟨hburn, hfee⟩ := e.supply_atomic ctx txs hbase hs htx hmsg ha
      have hto : msg.toAddr.getD 0 = recipient := by
        rw [(transactionToMessage_fields hmsg).2.1, htx.toAddr, Option.getD_some]
      have hcode := congrArg Accounts.codeHash hbook
      rw [(Accounts.transact_frame _ _ _ _ _).2.2] at hcode
      have hrest := ih _ (by omega) fun tx htx' => (ht tx htx').imp fun _ h => h.congr (congrFun hcode _)
      rw [hbook, hgas, htotal] at hrest
      rw [hbook] at hburn
      simp only [hmsg, if_pos ha, hto]
      obtain ⟨hsupply, hfees, hall⟩ := hrest
      refine ⟨?_, ?_, List.forall_mem_cons.mpr ⟨hfee, hall⟩⟩
      · simp only [burnt, List.map_cons, List.sum_cons] at hsupply ⊢
        omega
      · rw [hfees]
        simp only [collected, List.map_cons, List.sum_cons]
        omega
    · obtain ⟨hbook, hgas, htotal⟩ := e.atomic_of_not_admits ctx txs ha
      have hrest := ih ((e.waveStore ctx txs).atomic run (e.executeTransaction ctx tx))
        (by rw [hbook]; exact hs) (by rw [hbook]; exact ht)
      rw [hbook, hgas, htotal] at hrest
      cases hmsg : transactionToMessage tx ctx.baseFee with
      | none => exact hrest
      | some msg =>
        simp only [if_neg ha]
        exact hrest

def supply (s : StateDB) : ℕ := (accounts e.keccak s.getVerkleValue).supply

def blockMessages (s : StateDB) (txs : List Transaction) : List Message :=
  e.executedMessages ctx (accounts e.keccak s.getVerkleValue) 0 txs

section Block

variable {s : StateDB} {txs : List Transaction} {fee : ℕ} (hbase : ctx.baseFee = some fee)
  (hs : e.supply s < 2 ^ 256)
  (ht : ∀ tx ∈ txs, ∃ recipient, IsTransfer ctx (accounts e.keccak s.getVerkleValue) tx recipient)
  (hw : ∀ wave ∈ schedule txs, wave.length = 1)

include hw in
theorem applyBlock_iff (res : AppliedBlock) : e.ApplyBlock ctx s txs res ↔
    Closes (e.runInOrder ctx txs (startBlock s txs) txs) ∧
      res = e.closeBlock ctx txs (e.runInOrder ctx txs (startBlock s txs) txs) := by
  have hwaves : schedule txs = txs.map fun tx => [tx] := by
    rw [schedule_eq_rounds] at hw ⊢
    exact FirstFit.rounds_singletons Conflict hw
  unfold ApplyBlock
  rw [hwaves]
  constructor
  · rintro ⟨run, hrun, hfits, rfl⟩
    obtain rfl := (e.runWaves_singletons ctx txs txs _ _).mp hrun
    exact ⟨hfits, rfl⟩
  · rintro ⟨hfits, rfl⟩
    exact ⟨_, (e.runWaves_singletons ctx txs txs _ _).mpr rfl, hfits, rfl⟩

theorem supply_closeBlock (txs : List Transaction) (run : BlockRun) (hfits : blockReward + run.totalFees < 2 ^ 256) :
    e.supply (e.closeBlock ctx txs run).statedb = (e.book run).supply + (blockReward + run.totalFees) ∨
      e.supply (e.closeBlock ctx txs run).statedb + 2 ^ 256 =
        (e.book run).supply + (blockReward + run.totalFees) := by
  have hbook : accounts e.keccak (e.closeBlock ctx txs run).statedb.getVerkleValue =
      (e.book run).setBalance ctx.coinbase ((e.book run).balance ctx.coinbase +
        BitVec.ofNat 256 (blockReward + run.totalFees)) := by
    change accounts e.keccak (StateDB.exec _ run.statedb).2.getVerkleValue = _
    rw [(StateDB.exec_denote _ _).2, accounts_addBalance]
    rfl
  have hset := (e.book run).supply_setBalance ctx.coinbase ((e.book run).balance ctx.coinbase +
    BitVec.ofNat 256 (blockReward + run.totalFees))
  have hb := ((e.book run).balance ctx.coinbase).isLt
  rw [BitVec.toNat_add, BitVec.toNat_ofNat, Nat.mod_eq_of_lt hfits] at hset
  rw [supply, hbook]
  omega

include hbase hs ht in
theorem runInOrder_startBlock :
    (e.book (e.runInOrder ctx txs (startBlock s txs) txs)).supply + burnt fee (e.blockMessages ctx s txs) =
        e.supply s ∧
      (e.runInOrder ctx txs (startBlock s txs) txs).totalFees = e.collected (e.blockMessages ctx s txs) ∧
      e.collected (e.blockMessages ctx s txs) + e.systemBaseFees fee (e.blockMessages ctx s txs) =
        e.tips fee (e.blockMessages ctx s txs) + burnt fee (e.blockMessages ctx s txs) := by
  obtain ⟨hsupply, hfees, hall⟩ :=
    e.runInOrder_supply ctx txs txs (startBlock s txs) hbase hs ht
  refine ⟨hsupply, ?_, e.collected_balance hall⟩
  rw [hfees]
  exact Nat.zero_add _

end Block

def SupplyConserved (s : StateDB) (txs : List Transaction) : Prop :=
  (∃ res, e.ApplyBlock ctx s txs res) ∧
    ∀ res, e.ApplyBlock ctx s txs res → e.supply res.statedb = e.supply s + blockReward

/-- The supply grows by exactly the reward if and only if the tips of ordinary transfers, which the
coinbase receives twice, make up for the base fees of system transfers, which nobody receives. -/
theorem supply_conserved_iff {s : StateDB} {txs : List Transaction} {fee : ℕ}
    (hbase : ctx.baseFee = some fee) (hs : e.supply s + blockReward < 2 ^ 256)
    (ht : ∀ tx ∈ txs, ∃ recipient, IsTransfer ctx (accounts e.keccak s.getVerkleValue) tx recipient)
    (hw : ∀ wave ∈ schedule txs, wave.length = 1) :
    e.SupplyConserved ctx s txs ↔
      e.tips fee (e.blockMessages ctx s txs) = e.systemBaseFees fee (e.blockMessages ctx s txs) := by
  obtain ⟨hsupply, hfees, hbalance⟩ := e.runInOrder_startBlock ctx hbase (by omega) ht
  constructor
  · rintro ⟨⟨res, hres⟩, hall⟩
    have hgrown := hall res hres
    obtain ⟨hcloses, rfl⟩ := (e.applyBlock_iff ctx hw res).mp hres
    have hfits := hcloses.reward
    have hclose := e.supply_closeBlock ctx txs _ hfits
    omega
  · intro heq
    have hcloses : Closes (e.runInOrder ctx txs (startBlock s txs) txs) := by
      refine ⟨e.runInOrder_calm ctx (by simp [hbase]) fun tx htx => ?_, by omega⟩
      obtain ⟨recipient, htransfer⟩ := ht tx htx
      exact htransfer.blobs
    refine ⟨⟨_, (e.applyBlock_iff ctx hw _).mpr ⟨hcloses, rfl⟩⟩, fun res hres => ?_⟩
    obtain ⟨-, rfl⟩ := (e.applyBlock_iff ctx hw res).mp hres
    have hfits := hcloses.reward
    have hclose := e.supply_closeBlock ctx txs _ hfits
    omega

theorem supply_granted (a : Address) (v : U256) : e.supply (granted e.keccak [(a, v)]) = v.toNat := by
  have hempty (b : Address) : (accounts e.keccak (StateDB.base .empty .empty).getVerkleValue).balance b = 0 :=
    rfl
  have hzero : (accounts e.keccak (StateDB.base .empty .empty).getVerkleValue).supply = 0 := by
    simp [Accounts.supply, hempty]
  have hset := (accounts e.keccak (StateDB.base .empty .empty).getVerkleValue).supply_setBalance a v
  have hbook : accounts e.keccak (granted e.keccak [(a, v)]).getVerkleValue =
      (accounts e.keccak (StateDB.base .empty .empty).getVerkleValue).setBalance a v := by
    change accounts e.keccak (StateDB.exec (addBalance e.keccak a v) _).2.getVerkleValue = _
    rw [(StateDB.exec_denote _ _).2, accounts_addBalance, hempty, zero_add]
  rw [hempty, hzero] at hset
  rw [supply, hbook]
  simpa using hset

end Executor

section Sample

def spender : StateDB := granted .ideal [(0xa1, 1000000)]

theorem supply_spender : Executor.ideal.supply spender = 1000000 := Executor.ideal.supply_granted 0xa1 1000000

theorem isTransfer_payment (tip : ℕ) : ∀ tx ∈ [payment tip 0xa1 0xb1], ∃ recipient,
    IsTransfer sampleContext (accounts Executor.ideal.keccak spender.getVerkleValue) tx recipient := by
  intro tx htx
  obtain rfl := List.mem_singleton.mp htx
  exact ⟨0xb1, rfl, rfl, rfl, rfl, by decide +kernel⟩

theorem schedule_payment (tip : ℕ) : ∀ wave ∈ schedule [payment tip 0xa1 0xb1], wave.length = 1 := by
  simp [schedule_singleton]

theorem supply_conserved_without_tip :
    Executor.ideal.SupplyConserved sampleContext spender [payment 0 0xa1 0xb1] :=
  (Executor.ideal.supply_conserved_iff sampleContext (show _ = some 1 from rfl)
    (by rw [supply_spender]; decide) (isTransfer_payment 0) (schedule_payment 0)).mpr (by decide +kernel)

theorem tip_credited_twice : Executor.ideal.supply spender + blockReward < 2 ^ 256 ∧
    (∀ tx ∈ [payment 2 0xa1 0xb1], ∃ recipient,
      IsTransfer sampleContext (accounts Executor.ideal.keccak spender.getVerkleValue) tx recipient) ∧
    (∀ wave ∈ schedule [payment 2 0xa1 0xb1], wave.length = 1) ∧
    ¬Executor.ideal.SupplyConserved sampleContext spender [payment 2 0xa1 0xb1] := by
  refine ⟨by rw [supply_spender]; decide, isTransfer_payment 2, schedule_payment 2, ?_⟩
  rintro ⟨⟨res, hres⟩, hall⟩
  have hgrown := hall res hres
  obtain ⟨hcloses, rfl⟩ := (Executor.ideal.applyBlock_iff sampleContext (schedule_payment 2) res).mp hres
  have hfits := hcloses.reward
  have hclose := Executor.ideal.supply_closeBlock sampleContext [payment 2 0xa1 0xb1] _ hfits
  obtain ⟨hsupply, hfees, -⟩ := Executor.ideal.runInOrder_startBlock sampleContext (show _ = some 1 from rfl)
    (by rw [supply_spender]; decide) (isTransfer_payment 2)
  have hburnt : Executor.burnt 1
      (Executor.ideal.blockMessages sampleContext spender [payment 2 0xa1 0xb1]) = 21000 := by
    decide +kernel
  have hcollected : Executor.ideal.collected
      (Executor.ideal.blockMessages sampleContext spender [payment 2 0xa1 0xb1]) = 63000 := by
    decide +kernel
  rw [supply_spender] at hgrown hsupply
  omega

end Sample

end Zephyria
