import Zephyria.Footprints

namespace Zephyria

def Message.coinbaseChange (ctx : BlockContext) (msg : Message) (recipient : Address) : U256 :=
  let gas := (intrinsicGas msg).getD 0
  (if msg.fromAddr = ctx.coinbase then -BitVec.ofNat 256 (gas * msg.gasPrice) - BitVec.ofNat 256 msg.value
    else 0) +
  (if recipient = ctx.coinbase then BitVec.ofNat 256 msg.value else 0) +
    BitVec.ofNat 256 (gas * (msg.gasPrice - ctx.baseFee.getD 0))

def Transaction.coinbaseChange (ctx : BlockContext) (tx : Transaction) : U256 :=
  match transactionToMessage tx ctx.baseFee with
  | none => 0
  | some msg => msg.coinbaseChange ctx (msg.toAddr.getD 0)

theorem Accounts.credit_apply (w : Accounts) (a : Address) (v : U256) (b : Address) :
    (w.credit a v).balance b = w.balance b + if a = b then v else 0 := by
  by_cases h : a = b
  · subst h
    simp
  · simp [h, Ne.symm h]

theorem Accounts.settleTransfer_coinbase (w : Accounts) (ctx : BlockContext) {msg : Message}
    (recipient : Address) (hgas : (intrinsicGas msg).getD 0 ≤ msg.gasLimit.toNat) :
    (w.settleTransfer ctx msg recipient).balance ctx.coinbase =
      w.balance ctx.coinbase + msg.coinbaseChange ctx recipient := by
  unfold settleTransfer Message.coinbaseChange
  generalize (intrinsicGas msg).getD 0 = gas at hgas
  have hpaid : BitVec.ofNat 256 (msg.gasLimit.toNat * msg.gasPrice) =
      BitVec.ofNat 256 ((msg.gasLimit.toNat - gas) * msg.gasPrice) + BitVec.ofNat 256 (gas * msg.gasPrice) := by
    rw [← BitVec.ofNat_add, ← Nat.add_mul, Nat.sub_add_cancel hgas]
  simp only [credit_apply, balance_setNonce, hpaid, if_true]
  by_cases hf : msg.fromAddr = ctx.coinbase
  · simp only [hf, if_true]
    ring
  · simp only [hf, if_false]
    ring

theorem Accounts.transact_coinbase (w : Accounts) (p : SystemParams) (ctx : BlockContext) {msg : Message}
    (recipient : Address) (hgas : (intrinsicGas msg).getD 0 ≤ msg.gasLimit.toNat) :
    (w.transact p ctx msg recipient).balance ctx.coinbase =
      w.balance ctx.coinbase + msg.coinbaseChange ctx recipient := by
  rw [(w.transact_frame p ctx msg recipient).1, settleTransfer_coinbase w ctx recipient hgas]

theorem Accounts.transact_nonce (w : Accounts) (p : SystemParams) (ctx : BlockContext) (msg : Message)
    (recipient : Address) : (w.transact p ctx msg recipient).nonce msg.fromAddr =
      storedNonce (w.nonce msg.fromAddr + 1) := by
  rw [(w.transact_frame p ctx msg recipient).2.1]
  simp [settleTransfer]

theorem admits_congr {ctx : BlockContext} {w w' : Accounts} {tx : Transaction}
    (h : ∀ a, tx.sender = some a →
      w'.nonce a = w.nonce a ∧ w'.codeHash a = w.codeHash a ∧ w'.balance a = w.balance a) :
    Admits ctx w' tx ↔ Admits ctx w tx := by
  unfold Admits
  refine and_congr_right fun _ => exists_congr fun msg => and_congr_right fun hmsg => ?_
  obtain ⟨hn, hc, hb⟩ := h msg.fromAddr (transactionToMessage_fields hmsg).1
  rw [hn, hb, Accounts.codeOf, hc, Accounts.codeOf]

theorem storedNonce_succ_ne {n m : UInt64} (h : checkNonce n m = none) : storedNonce (n + 1) ≠ n := by
  have hn := n.toNat_lt
  have hsucc : (n + 1).toNat = n.toNat + 1 := by
    unfold checkNonce at h
    split_ifs at h with h₁ h₂ h₃
    rw [UInt64.lt_iff_toNat_lt, UInt64.toNat_add, UInt64.toNat_one] at h₃
    rw [UInt64.toNat_add, UInt64.toNat_one]
    omega
  intro heq
  have hnat := congrArg UInt64.toNat heq
  rw [toNat_storedNonce, nonceMagnitude, hsucc] at hnat
  split at hnat <;> omega

theorem Admits.sender {ctx : BlockContext} {w : Accounts} {tx : Transaction} (ha : Admits ctx w tx) :
    ∃ a, tx.sender = some a ∧ storedNonce (w.nonce a + 1) ≠ w.nonce a := by
  obtain ⟨-, msg, hmsg, hadm⟩ := ha
  exact ⟨msg.fromAddr, (transactionToMessage_fields hmsg).1, storedNonce_succ_ne (admission_eq_none ctx hadm).1⟩

theorem conflict_symm {t u : Transaction} (h : Conflict t u) : Conflict u t := by
  obtain ⟨a, ht, hu⟩ := h
  exact ⟨a, hu, ht⟩

namespace Executor

variable (e : Executor) (ctx : BlockContext) (txs : List Transaction) (wave : List Transaction)
  (run : BlockRun)

def WaveDeterministic : Prop :=
  ∀ run', (e.waveStore ctx txs).Outcome run (e.goroutines ctx wave) run' →
    let sequential := (e.waveStore ctx txs).sequential run (wave.map (e.executeTransaction ctx))
    (e.book run').balance = (e.book sequential).balance ∧
      (e.book run').nonce = (e.book sequential).nonce ∧ (e.book run').storage = (e.book sequential).storage

/-- A transaction of the wave that changes the coinbase's balance runs without company: no other is
admitted, neither in `w` nor with the balance so changed. -/
def CoinbaseExclusive (w : Accounts) : Prop :=
  ∀ i j : Fin wave.length, i ≠ j → Admits ctx w (wave.get i) →
    (wave.get i).coinbaseChange ctx ≠ 0 →
      ¬Admits ctx w (wave.get j) ∧
        ¬Admits ctx (w.credit ctx.coinbase ((wave.get i).coinbaseChange ctx)) (wave.get j)

variable {wave}

abbrev outcomeOf (i : Fin wave.length) : (Transaction × TxResult) × Own :=
  (e.waveStore ctx txs).result run (e.goroutines ctx wave) i

abbrev mergeAll (order : List (Fin wave.length)) : BlockRun :=
  (e.waveStore ctx txs).publish run (e.goroutines ctx wave) order

abbrev coinbaseKey : Bytes := balanceKey e.keccak ctx.coinbase

theorem coinbaseChange_eq {tx : Transaction} {msg : Message} {recipient : Address}
    (hmsg : transactionToMessage tx ctx.baseFee = some msg) (hto : tx.toAddr = some recipient) :
    tx.coinbaseChange ctx = msg.coinbaseChange ctx recipient := by
  simp only [Transaction.coinbaseChange, hmsg, (transactionToMessage_fields hmsg).2.1, hto, Option.getD_some]

theorem book_atomic_admitted {start : BlockRun} {tx : Transaction} {a : Address} (hs : tx.sender = some a)
    (ht : ∃ recipient, IsTransfer ctx (e.book start) tx recipient) (ha : Admits ctx (e.book start) tx) :
    (e.book ((e.waveStore ctx txs).atomic start (e.executeTransaction ctx tx))).nonce a =
        storedNonce ((e.book start).nonce a + 1) ∧
      (e.book ((e.waveStore ctx txs).atomic start (e.executeTransaction ctx tx))).balance
        ctx.coinbase =
          (e.book start).balance ctx.coinbase + tx.coinbaseChange ctx := by
  obtain ⟨recipient, ht⟩ := ht
  obtain ⟨-, msg, hmsg, hadm⟩ := id ha
  obtain rfl : msg.fromAddr = a := Option.some.inj ((transactionToMessage_fields hmsg).1.symm.trans hs)
  rw [(e.atomic_of_admits ctx txs ht hmsg ha).1, coinbaseChange_eq ctx hmsg ht.toAddr]
  exact ⟨Accounts.transact_nonce _ _ _ _ _,
    Accounts.transact_coinbase _ _ _ _ (Covered.of_admission ctx hadm).gas⟩

section Wave

variable {run}

section Transfers

variable (ht : ∀ tx ∈ wave, ∃ recipient, IsTransfer ctx (e.book run) tx recipient)

include ht

theorem outcomeOf_admitted {i : Fin wave.length} (ha : Admits ctx (e.book run) (wave.get i)) :
    ∃ msg recipient, transactionToMessage (wave.get i) ctx.baseFee = some msg ∧
      (wave.get i).coinbaseChange ctx = msg.coinbaseChange ctx recipient ∧
      Commits (e.outcomeOf ctx txs run i).1 ∧
      accounts e.keccak (overlayBuffer.view run.statedb.getVerkleValue (e.outcomeOf ctx txs run i).2) =
        (e.book run).transact e.params ctx msg recipient := by
  obtain ⟨recipient, ht⟩ := ht _ (wave.get_mem i)
  obtain ⟨msg, hmsg⟩ := ha.message
  have hres := e.run_executeTransaction ctx overlayBuffer run.statedb.getVerkleValue ht hmsg ha
  have hfst : (e.outcomeOf ctx txs run i).1 = (wave.get i, .executed (e.chargedGas msg) false []) := hres.1
  refine ⟨msg, recipient, hmsg, coinbaseChange_eq ctx hmsg ht.toAddr, ?_, hres.2⟩
  rw [hfst]
  trivial

theorem commits_iff (i : Fin wave.length) :
    Commits (e.outcomeOf ctx txs run i).1 ↔ Admits ctx (e.book run) (wave.get i) := by
  constructor
  · intro hc
    by_contra ha
    exact e.not_commits_of_not_admits ctx overlayBuffer _ ha hc
  · intro ha
    obtain ⟨_, _, _, _, hc, _⟩ := e.outcomeOf_admitted ctx txs ht ha
    exact hc

theorem keepsTo_goroutines (i : Fin wave.length) :
    KeepsTo overlayBuffer (e.footprint ctx (wave.get i)) run.statedb.getVerkleValue
      (e.goroutines ctx wave i) overlayBuffer.fresh := by
  obtain ⟨recipient, ht⟩ := ht _ (wave.get_mem i)
  exact e.keepsTo_executeTransaction ctx overlayBuffer ht

theorem mem_footprint_of_find {i : Fin wave.length} {k v : Bytes}
    (h : overlayBuffer.find (e.outcomeOf ctx txs run i).2 k = some v) : k ∈ e.footprint ctx (wave.get i) := by
  by_contra hk
  have hnone := overlayBuffer.find_run_of_local (e.keepsTo_goroutines ctx ht i) hk
  rw [overlayBuffer.find_fresh] at hnone
  cases hnone.symm.trans h

theorem find_coinbase {i : Fin wave.length} (ha : Admits ctx (e.book run) (wave.get i)) :
    ∃ v, overlayBuffer.find (e.outcomeOf ctx txs run i).2 (e.coinbaseKey ctx) = some v ∧
      decodeBalance v = (e.book run).balance ctx.coinbase +
        (wave.get i).coinbaseChange ctx := by
  obtain ⟨msg, recipient, hmsg, hchange, hc, hbook⟩ := e.outcomeOf_admitted ctx txs ht ha
  have hfind : overlayBuffer.find (e.outcomeOf ctx txs run i).2 (e.coinbaseKey ctx) ≠ none :=
    e.find_coinbase_of_commits ctx overlayBuffer hc
  obtain ⟨v, hv⟩ := Option.ne_none_iff_exists'.mp hfind
  refine ⟨v, hv, ?_⟩
  obtain ⟨-, msg', hmsg', hadm⟩ := ha
  obtain rfl : msg' = msg := Option.some.inj (hmsg'.symm.trans hmsg)
  have hbalance := congrArg (fun w => Accounts.balance w ctx.coinbase) hbook
  rw [hchange, ← Accounts.transact_coinbase _ e.params ctx recipient
    (Covered.of_admission ctx hadm).gas]
  refine Eq.trans ?_ hbalance
  change decodeBalance v = decodeBalance (overlayBuffer.view _ _ (e.coinbaseKey ctx))
  rw [Buffer.view, hv, Option.getD_some]

end Transfers

section Disjoint

variable (hwave : wave.Pairwise fun t u => ¬Conflict t u)
  (ht : ∀ tx ∈ wave, ∃ recipient, IsTransfer ctx (e.book run) tx recipient)

omit e ctx txs run in
include hwave in
theorem not_conflict {i j : Fin wave.length} (hij : i ≠ j) : ¬Conflict (wave.get i) (wave.get j) := by
  rcases lt_or_gt_of_ne hij with h | h
  · exact List.pairwise_iff_get.mp hwave i j h
  · exact fun hc => List.pairwise_iff_get.mp hwave j i h (conflict_symm hc)

include hwave ht

theorem find_foreign {i j : Fin wave.length} (hij : i ≠ j) {k : Bytes}
    (hk : k ∈ e.footprint ctx (wave.get j)) (hne : k ≠ e.coinbaseKey ctx) :
    overlayBuffer.find (e.outcomeOf ctx txs run i).2 k = none := by
  cases hf : overlayBuffer.find (e.outcomeOf ctx txs run i).2 k with
  | none => rfl
  | some v =>
    exact absurd (e.footprint_inter ctx (not_conflict hwave hij) (e.mem_footprint_of_find ctx txs ht hf) hk) hne

theorem read_mergeAll_foreign {order : List (Fin wave.length)} {j : Fin wave.length} (hj : j ∉ order)
    {k : Bytes} (hk : k ∈ e.footprint ctx (wave.get j)) (hne : k ≠ e.coinbaseKey ctx) :
    (e.mergeAll ctx txs run order).statedb.getVerkleValue k = run.statedb.getVerkleValue k :=
  (e.waveStore ctx txs).read_publish_of_find_none run (e.goroutines ctx wave) fun i hi =>
    e.find_foreign ctx txs hwave ht (by rintro rfl; exact hj hi) hk hne

omit hwave in
theorem read_mergeAll_coinbase (order : List (Fin wave.length)) {i : Fin wave.length}
    (ha : Admits ctx (e.book run) (wave.get i)) :
    (e.book (e.mergeAll ctx txs run (order ++ [i]))).balance ctx.coinbase =
      (e.book run).balance ctx.coinbase + (wave.get i).coinbaseChange ctx := by
  obtain ⟨v, hv, hbalance⟩ := e.find_coinbase ctx txs ht ha
  have hread := (e.waveStore ctx txs).read_publish_last run (e.goroutines ctx wave) order
    ((e.commits_iff ctx txs ht i).mpr ha) (e.coinbaseKey ctx)
  rw [show (e.waveStore ctx txs).find _ (e.coinbaseKey ctx) = some v from hv, Option.getD_some] at hread
  rw [← hbalance, ← hread]
  rfl

theorem book_mergeAll {order : List (Fin wave.length)} {j : Fin wave.length} (hj : j ∉ order) {a : Address}
    (hsender : (wave.get j).sender = some a ∨ (wave.get j).toAddr = some a) :
    (e.book (e.mergeAll ctx txs run order)).codeHash a = (e.book run).codeHash a ∧
      ((wave.get j).sender = some a →
        (e.book (e.mergeAll ctx txs run order)).nonce a = (e.book run).nonce a) ∧
      (a ≠ ctx.coinbase →
        (e.book (e.mergeAll ctx txs run order)).balance a = (e.book run).balance a) := by
  have hcell (c : Cell) (hc : c ∈ (wave.get j).cells e.params ctx.coinbase)
      (hne : c ≠ .balance ctx.coinbase) :
      (e.mergeAll ctx txs run order).statedb.getVerkleValue (c.key e.keccak) =
        run.statedb.getVerkleValue (c.key e.keccak) :=
    e.read_mergeAll_foreign ctx txs hwave ht hj ⟨c, hc, rfl⟩
      fun h => hne (Cell.key_injective e.keccak (g := .balance _) h)
  refine ⟨?_, ?_, ?_⟩
  · exact congrArg decodeHash (hcell (.codeHash a) hsender (by simp))
  · exact fun hs => congrArg decodeNonce (hcell (.nonce a) hs (by simp))
  · intro hne
    refine congrArg decodeBalance (hcell (.balance a) ?_ (by simpa using hne))
    exact hsender.imp_right Or.inl

theorem admits_mergeAll (order : List (Fin wave.length)) {i j : Fin wave.length}
    (ha : Admits ctx (e.book run) (wave.get i)) (hj : j ∉ order ++ [i]) :
    Admits ctx (e.book (e.mergeAll ctx txs run (order ++ [i]))) (wave.get j) ↔
      Admits ctx ((e.book run).credit ctx.coinbase ((wave.get i).coinbaseChange ctx))
        (wave.get j) := by
  apply admits_congr
  intro a hs
  obtain ⟨hcode, hnonce, hbalance⟩ := e.book_mergeAll ctx txs hwave ht hj (Or.inl hs)
  refine ⟨hnonce hs, hcode, ?_⟩
  rw [Accounts.credit_apply]
  by_cases hcb : ctx.coinbase = a
  · rw [if_pos hcb, ← hcb]
    exact e.read_mergeAll_coinbase ctx txs ht order ha
  · rw [if_neg hcb, hbalance (Ne.symm hcb), add_zero]

theorem isTransfer_mergeAll {order : List (Fin wave.length)} {j : Fin wave.length} (hj : j ∉ order) :
    ∃ recipient, IsTransfer ctx (e.book (e.mergeAll ctx txs run order)) (wave.get j) recipient := by
  obtain ⟨recipient, ht'⟩ := ht _ (wave.get_mem j)
  exact ⟨recipient, ht'.congr (e.book_mergeAll ctx txs hwave ht hj (Or.inr ht'.toAddr)).1⟩

section Nonce

variable {j : Fin wave.length} {a : Address} (hs : (wave.get j).sender = some a)

include hs

theorem nonce_mergeAll_other (order : List (Fin wave.length)) {i : Fin wave.length} (hij : i ≠ j) :
    (e.book (e.mergeAll ctx txs run (order ++ [i]))).nonce a =
      (e.book (e.mergeAll ctx txs run order)).nonce a := by
  apply congrArg decodeNonce
  by_cases hc : Commits (e.outcomeOf ctx txs run i).1
  · have hread := (e.waveStore ctx txs).read_publish_last run (e.goroutines ctx wave) order hc
      (nonceKey e.keccak a)
    have hnone : (e.waveStore ctx txs).find (e.outcomeOf ctx txs run i).2 (nonceKey e.keccak a) = none :=
      e.find_foreign ctx txs hwave ht hij ⟨.nonce a, hs, rfl⟩
        fun h => by cases Cell.key_injective e.keccak (f := .nonce a) (g := .balance _) h
    rw [hnone] at hread
    exact hread
  · exact (e.waveStore ctx txs).read_publish_discard run (e.goroutines ctx wave) _ hc _

theorem nonce_mergeAll_admitted {order : List (Fin wave.length)} (hj : j ∉ order)
    (ha : Admits ctx (e.book run) (wave.get j)) :
    (e.book (e.mergeAll ctx txs run (order ++ [j]))).nonce a = storedNonce ((e.book run).nonce a + 1) := by
  obtain ⟨msg, recipient, hmsg, -, hc, hbook⟩ := e.outcomeOf_admitted ctx txs ht ha
  obtain rfl : msg.fromAddr = a :=
    Option.some.inj ((transactionToMessage_fields hmsg).1.symm.trans hs)
  have hread := (e.waveStore ctx txs).read_publish_last run (e.goroutines ctx wave) order hc
    (nonceKey e.keccak msg.fromAddr)
  have hbase : (e.waveStore ctx txs).read (e.mergeAll ctx txs run order) (nonceKey e.keccak msg.fromAddr) =
      run.statedb.getVerkleValue (nonceKey e.keccak msg.fromAddr) :=
    e.read_mergeAll_foreign ctx txs hwave ht hj ⟨.nonce _, hs, rfl⟩
      fun h => by cases Cell.key_injective e.keccak (f := .nonce _) (g := .balance _) h
  rw [hbase] at hread
  have hnonce := congrArg (fun w => Accounts.nonce w msg.fromAddr) hbook
  rw [Accounts.transact_nonce] at hnonce
  exact (congrArg decodeNonce hread).trans hnonce

omit hwave hs in
theorem nonce_mergeAll_rejected (order : List (Fin wave.length))
    (ha : ¬Admits ctx (e.book run) (wave.get j)) :
    (e.book (e.mergeAll ctx txs run (order ++ [j]))).nonce a =
      (e.book (e.mergeAll ctx txs run order)).nonce a := by
  have hc : ¬Commits (e.outcomeOf ctx txs run j).1 := fun hc => ha ((e.commits_iff ctx txs ht j).mp hc)
  exact congrArg decodeNonce ((e.waveStore ctx txs).read_publish_discard run (e.goroutines ctx wave) _ hc _)

end Nonce

def others {n : ℕ} (i j : Fin n) : List (Fin n) := (List.finRange n).filter fun l => l ≠ i ∧ l ≠ j

omit hwave ht in
theorem mem_others {n : ℕ} {i j l : Fin n} : l ∈ others i j ↔ l ≠ i ∧ l ≠ j := by
  simp [others]

omit hwave ht in
theorem outcome_staged_pair {i j : Fin wave.length} (hij : i ≠ j) {early late : List (Fin wave.length)}
    (hperm : (early ++ late).Perm (others i j ++ [i, j])) :
    (e.waveStore ctx txs).Outcome run (e.goroutines ctx wave)
      ((e.waveStore ctx txs).sequential (e.mergeAll ctx txs run early) (late.map (e.goroutines ctx wave))) := by
  apply (e.waveStore ctx txs).outcome_staged run (e.goroutines ctx wave) early late
  · rw [hperm.nodup_iff, List.nodup_append']
    refine ⟨(List.nodup_finRange _).filter _, by simpa using hij, ?_⟩
    intro l hl hl'
    obtain ⟨hli, hlj⟩ := mem_others.mp hl
    simp [hli, hlj] at hl'
  · intro l
    rw [hperm.mem_iff, List.mem_append, mem_others]
    by_cases hli : l = i
    · simp [hli]
    · by_cases hlj : l = j <;> simp [hli, hlj]

theorem coinbaseExclusive_of_deterministic (h : e.WaveDeterministic ctx txs wave run) :
    CoinbaseExclusive ctx wave (e.book run) := by
  intro i j hij hi hchange
  rw [← not_or]
  intro hor
  obtain ⟨a, hs, hsucc⟩ : ∃ a, (wave.get j).sender = some a ∧
      storedNonce ((e.book run).nonce a + 1) ≠ (e.book run).nonce a := by
    rcases hor with hj | hj <;> exact hj.sender
  let rest := others i j
  have hswap : (rest ++ [j] ++ [i] ++ []).Perm (rest ++ [i, j]) := by
    simpa using (List.Perm.swap i j []).append_left rest
  have h₁ := h _ (e.outcome_staged_pair ctx txs hij hswap)
  have h₂ := h _ (e.outcome_staged_pair ctx txs hij (show (rest ++ [i] ++ [j]).Perm _ by simp [rest]))
  have h₃ := h _ (e.outcome_staged_pair ctx txs hij (show (rest ++ [i] ++ [j] ++ []).Perm _ by simp [rest]))
  let start := e.mergeAll ctx txs run (rest ++ [i])
  have hjrest : j ∉ rest := by simp [rest, mem_others]
  have hjstart : j ∉ rest ++ [i] := by simp [rest, mem_others, hij.symm]
  have htj := e.isTransfer_mergeAll ctx txs hwave ht hjstart
  have hadmits := e.admits_mergeAll ctx txs hwave ht rest hi hjstart
  have hstart : (e.book start).nonce a = (e.book run).nonce a :=
    (e.book_mergeAll ctx txs hwave ht hjstart (Or.inl hs)).2.1 hs
  -- The nonce of `j` shows whether it ran, in the first order over the base state, in the second after `i`.
  have hnonce₁ := e.nonce_mergeAll_other ctx txs hwave ht hs (rest ++ [j]) hij
  have hnonce : (e.book (e.mergeAll ctx txs run (rest ++ [j] ++ [i]))).nonce a =
      (e.book ((e.waveStore ctx txs).atomic start (e.executeTransaction ctx (wave.get j)))).nonce a :=
    congrFun (h₁.2.1.trans h₂.2.1.symm) a
  rw [hnonce₁] at hnonce
  by_cases hj : Admits ctx (e.book run) (wave.get j)
  · rw [e.nonce_mergeAll_admitted ctx txs hwave ht hs hjrest hj] at hnonce
    by_cases hj' : Admits ctx (e.book start) (wave.get j)
    · obtain ⟨-, hlate⟩ := e.book_atomic_admitted ctx txs hs htj hj'
      have hlast := e.read_mergeAll_coinbase ctx txs ht rest hi
      have hfirst := e.read_mergeAll_coinbase ctx txs ht (rest ++ [j]) hi
      have hthird := e.read_mergeAll_coinbase ctx txs ht (rest ++ [i]) hj
      have hzero : (wave.get j).coinbaseChange ctx = 0 := by
        have heq := hfirst.symm.trans ((congrFun (h₁.1.trans h₂.1.symm) ctx.coinbase).trans hlate)
        rw [hlast] at heq
        exact left_eq_add.mp heq
      have heq := hfirst.symm.trans ((congrFun (h₁.1.trans h₃.1.symm) ctx.coinbase).trans hthird)
      rw [hzero, add_zero] at heq
      exact hchange (add_eq_left.mp heq)
    · rw [(e.atomic_of_not_admits ctx txs hj').1, hstart] at hnonce
      exact hsucc hnonce
  · have hj' : Admits ctx (e.book start) (wave.get j) := hadmits.mpr (hor.resolve_left hj)
    rw [e.nonce_mergeAll_rejected ctx txs ht rest hj,
      (e.book_atomic_admitted ctx txs hs htj hj').1, hstart,
      (e.book_mergeAll ctx txs hwave ht hjrest (Or.inl hs)).2.1 hs] at hnonce
    exact hsucc hnonce.symm

theorem quiet_of_coinbase_unchanged
    (h : ∀ i, Admits ctx (e.book run) (wave.get i) → (wave.get i).coinbaseChange ctx = 0) :
    (e.waveStore ctx txs).Quiet run (e.goroutines ctx wave) (fun _ => SameWord)
      (fun i => e.footprint ctx (wave.get i)) := by
  have hcoinbase {i : Fin wave.length} (hc : Commits (e.outcomeOf ctx txs run i).1) {v : Bytes}
      (hv : overlayBuffer.find (e.outcomeOf ctx txs run i).2 (e.coinbaseKey ctx) = some v) :
      SameWord v (run.statedb.getVerkleValue (e.coinbaseKey ctx)) := by
    have ha := (e.commits_iff ctx txs ht i).mp hc
    obtain ⟨v', hv', hbalance⟩ := e.find_coinbase ctx txs ht ha
    obtain rfl : v' = v := Option.some.inj (hv'.symm.trans hv)
    rw [h i ha, add_zero] at hbalance
    exact hbalance
  have hshared {i j : Fin wave.length} (hij : i ≠ j) {k v : Bytes}
      (hv : overlayBuffer.find (e.outcomeOf ctx txs run i).2 k = some v)
      (hk : k ∈ e.footprint ctx (wave.get j)) : k = e.coinbaseKey ctx :=
    e.footprint_inter ctx (not_conflict hwave hij) (e.mem_footprint_of_find ctx txs ht hv) hk
  constructor
  · exact fun _ _ => rfl
  · exact e.keepsTo_goroutines ctx ht
  · intro i j hij hc k v hv hk
    obtain rfl := hshared hij hv hk
    exact hcoinbase hc hv
  · intro i j hci hcj k v w hv hw
    by_cases hij : i = j
    · subst hij
      obtain rfl : v = w := Option.some.inj (hv.symm.trans hw)
      rfl
    · obtain rfl := hshared hij hv (e.mem_footprint_of_find ctx txs ht hw)
      exact (hcoinbase hci hv).trans (hcoinbase hcj hw).symm

theorem silent_of_rejected {i j : Fin wave.length} (hij : i ≠ j) (hi : Admits ctx (e.book run) (wave.get i))
    (hj : ¬Admits ctx (e.book run) (wave.get j))
    (hj' : ¬Admits ctx ((e.book run).credit ctx.coinbase ((wave.get i).coinbaseChange ctx))
      (wave.get j)) :
    (e.waveStore ctx txs).Silent run ((e.waveStore ctx txs).after run (e.goroutines ctx wave) i)
      (e.goroutines ctx wave j) overlayBuffer.fresh := by
  have hji : j ∉ ([] : List (Fin wave.length)) ++ [i] := by simp [hij.symm]
  have hadmits := e.admits_mergeAll ctx txs hwave ht [] hi hji
  have hafter : e.mergeAll ctx txs run ([] ++ [i]) = (e.waveStore ctx txs).after run (e.goroutines ctx wave) i :=
    rfl
  rw [hafter] at hadmits
  apply e.always_executeTransaction_rejected ctx overlayBuffer
  intro hsize msg hmsg v₁ v₂ v₃ h₁ h₂ h₃ hadm
  have hs := (transactionToMessage_fields hmsg).1
  have hsame (c : Cell) (hc : c ∈ (wave.get j).cells e.params ctx.coinbase)
      (hne : c ≠ .balance ctx.coinbase) :=
    e.read_mergeAll_foreign ctx txs hwave ht hji ⟨c, hc, rfl⟩
      fun h => hne (Cell.key_injective e.keccak (g := .balance _) h)
  have hnonce := hsame (.nonce msg.fromAddr) hs (by simp)
  have hcode := hsame (.codeHash msg.fromAddr) (Or.inl hs) (by simp)
  obtain rfl : v₁ = run.statedb.getVerkleValue (nonceKey e.keccak msg.fromAddr) := h₁.elim id (·.trans hnonce)
  obtain rfl : v₂ = run.statedb.getVerkleValue (codeHashKey e.keccak msg.fromAddr) :=
    h₂.elim id (·.trans hcode)
  rcases h₃ with rfl | rfl
  · exact hj ⟨hsize, msg, hmsg, hadm⟩
  · rw [← show _ = run.statedb.getVerkleValue (nonceKey e.keccak msg.fromAddr) from hnonce,
      ← show _ = run.statedb.getVerkleValue (codeHashKey e.keccak msg.fromAddr) from hcode] at hadm
    exact hj' (hadmits.mp ⟨hsize, msg, hmsg, hadm⟩)

theorem deterministic_of_coinbaseExclusive (h : CoinbaseExclusive ctx wave (e.book run)) :
    e.WaveDeterministic ctx txs wave run := by
  intro run' hout
  have hmap : (List.finRange wave.length).map (e.goroutines ctx wave) =
      wave.map (e.executeTransaction ctx) := by
    change (List.finRange wave.length).map (e.executeTransaction ctx ∘ wave.get) = _
    rw [← List.map_map, List.map_get_finRange]
  have hseq := (e.waveStore ctx txs).outcome_sequential (List.finRange wave.length)
    (List.nodup_finRange _) List.mem_finRange run (e.goroutines ctx wave)
  rw [hmap] at hseq
  suffices hbook : e.book run' =
      e.book ((e.waveStore ctx txs).sequential run (wave.map (e.executeTransaction ctx))) by
    rw [hbook]
    exact ⟨rfl, rfl, rfl⟩
  by_cases hq : ∀ i, Admits ctx (e.book run) (wave.get i) → (wave.get i).coinbaseChange ctx = 0
  · have hquiet := e.quiet_of_coinbase_unchanged ctx txs hwave ht hq
    exact accounts_sameWord e.keccak fun k => hquiet.outcome_unique _ hout hseq k
  · -- Some transaction changes the coinbase's balance, so it is the only one that merges.
    push Not at hq
    obtain ⟨i, hi, hchange⟩ := hq
    have hsilent (j : Fin wave.length) (hj : j ≠ i) :=
      e.silent_of_rejected ctx txs hwave ht hj.symm hi (h i j hj.symm hi hchange).1
        (h i j hj.symm hi hchange).2
    have hread := (e.waveStore ctx txs).solo_outcome hsilent hout
    have hread' := (e.waveStore ctx txs).solo_outcome hsilent hseq
    exact congrArg (accounts e.keccak) (hread.trans hread'.symm)

end Disjoint

end Wave

theorem wave_deterministic_iff {wave : List Transaction} (hwave : wave ∈ schedule txs)
    (ht : ∀ tx ∈ wave, ∃ recipient, IsTransfer ctx (e.book run) tx recipient) :
    e.WaveDeterministic ctx txs wave run ↔ CoinbaseExclusive ctx wave (e.book run) := by
  rw [schedule_eq_rounds] at hwave
  have hpairwise := FirstFit.rounds_pairwise Conflict hwave
  exact ⟨e.coinbaseExclusive_of_deterministic ctx txs hpairwise ht,
    e.deterministic_of_coinbaseExclusive ctx txs hpairwise ht⟩

end Executor

section Sample

def twoPayments (tip : ℕ) : List Transaction := [payment tip 0xa1 0xb1, payment tip 0xa2 0xb2]

def twoSpenders : BlockRun := ⟨granted .ideal [(0xa1, 1000000), (0xa2, 1000000)], 0, 0, [none, none], false⟩

theorem schedule_twoPayments (tip : ℕ) : twoPayments tip ∈ schedule (twoPayments tip) := by
  rw [schedule_eq_rounds, twoPayments, FirstFit.rounds_of_ne_nil Conflict (by simp)]
  simp [FirstFit.select, Conflict, Transaction.addresses, payment]

theorem isTransfer_twoPayments (tip : ℕ) : ∀ tx ∈ twoPayments tip, ∃ recipient,
    IsTransfer sampleContext (Executor.ideal.book twoSpenders) tx recipient := by
  intro tx htx
  rcases List.mem_pair.mp htx with rfl | rfl
  · exact ⟨0xb1, rfl, rfl, rfl, rfl, by decide +kernel⟩
  · exact ⟨0xb2, rfl, rfl, rfl, rfl, by decide +kernel⟩

theorem wave_deterministic_without_tips :
    Executor.ideal.WaveDeterministic sampleContext (twoPayments 0) (twoPayments 0) twoSpenders := by
  refine (Executor.ideal.wave_deterministic_iff sampleContext (twoPayments 0) twoSpenders
    (schedule_twoPayments 0) (isTransfer_twoPayments 0)).mpr ?_
  have hzero : ∀ i : Fin (twoPayments 0).length,
      ((twoPayments 0).get i).coinbaseChange sampleContext = 0 := by
    decide +kernel
  exact fun i _ _ _ hchange => absurd (hzero i) hchange

theorem wave_loses_tip : twoPayments 2 ∈ schedule (twoPayments 2) ∧
    (∀ tx ∈ twoPayments 2, ∃ recipient,
      IsTransfer sampleContext (Executor.ideal.book twoSpenders) tx recipient) ∧
    ¬Executor.ideal.WaveDeterministic sampleContext (twoPayments 2) (twoPayments 2) twoSpenders := by
  refine ⟨schedule_twoPayments 2, isTransfer_twoPayments 2, fun h => ?_⟩
  have hwave := schedule_twoPayments 2
  rw [schedule_eq_rounds] at hwave
  have hexclusive := Executor.ideal.coinbaseExclusive_of_deterministic sampleContext (twoPayments 2)
    (FirstFit.rounds_pairwise Conflict hwave) (isTransfer_twoPayments 2) h
  exact (hexclusive ⟨0, by decide⟩ ⟨1, by decide⟩ (by decide) (by decide +kernel) (by decide +kernel)).1
    (by decide +kernel)

end Sample

end Zephyria
