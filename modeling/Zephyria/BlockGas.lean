import Zephyria.Receipts
import Zephyria.WaveDeterminism

namespace Zephyria

namespace Executor

variable (e : Executor) (ctx : BlockContext)

def waveReserve (wave : List Transaction) : ℕ := (wave.map (e.gasReserve ctx)).sum

def GasFits : ℕ → List (List Transaction) → Prop
  | _, [] => True
  | used, wave :: waves => used + e.waveReserve ctx wave ≤ ctx.gasLimit.toNat ∧
      GasFits (min blockGasLimit.toNat (used + e.waveReserve ctx wave)) waves

variable {e ctx} {txs : List Transaction} {s : StateDB} {run run' : BlockRun} {waves : List (List Transaction)}
  {log : List Execution}

theorem wave_gas_le {wave : List Transaction} (hgas : ∀ x ∈ log, x.usedGas ≤ e.gasReserve ctx x.tx)
    (hperm : (log.map Execution.tx).Perm wave) : (log.map Execution.usedGas).sum ≤ e.waveReserve ctx wave := by
  have hreserve : e.waveReserve ctx wave = (log.map fun x => e.gasReserve ctx x.tx).sum := by
    rw [waveReserve, ← (hperm.map (e.gasReserve ctx)).sum_eq, List.map_map]
    rfl
  rw [hreserve]
  exact List.sum_le_sum hgas

theorem LogWaves.gas_le (h : e.LogWaves ctx txs run waves log run') {used : ℕ} (hfits : e.GasFits ctx used waves)
    (hlimit : run.blockGasUsed.toNat ≤ ctx.gasLimit.toNat)
    (hused : run.blockGasUsed.toNat ≤ blockGasLimit.toNat → run.blockGasUsed.toNat ≤ used) :
    run.blockGasUsed.toNat + (log.map Execution.usedGas).sum ≤ ctx.gasLimit.toNat := by
  have hall := h.usedGas_le
  induction h generalizing used with
  | nil => exact hlimit
  | limit => exact hlimit
  | @wave run run' run'' wave waves log log' hstart hwave _ ih =>
    obtain ⟨hwaveFits, hfits⟩ := hfits
    have hstart : run.blockGasUsed.toNat ≤ blockGasLimit.toNat :=
      UInt64.le_iff_toNat_le.mp (UInt64.not_lt.mp hstart)
    have hwaveGas := wave_gas_le (fun x hx => hall x (List.mem_append_left _ hx)) (publications_perm hwave)
    have hbound := hused hstart
    have hword := ctx.gasLimit.toNat_lt
    have hnext : run'.blockGasUsed.toNat =
        run.blockGasUsed.toNat + ((log.map Execution.ofPublication).map Execution.usedGas).sum := by
      rw [hwave.shared, published_eq_record, blockGasUsed_foldl, UInt64.toNat_add, UInt64.toNat_ofNat',
        Nat.add_mod_mod, Nat.mod_eq_of_lt (by omega)]
    have hrest := ih hfits (by omega) (fun hle => Nat.le_min.mpr ⟨hle, by omega⟩)
      (fun x hx => hall x (List.mem_append_right _ hx))
    rw [List.map_append, List.sum_append]
    omega

theorem LogBlock.gas_le_limit (h : e.LogBlock ctx txs s log run) (hfits : e.GasFits ctx 0 (schedule txs)) :
    (log.map Execution.usedGas).sum ≤ ctx.gasLimit.toNat := by
  have hzero : (startBlock s txs).blockGasUsed.toNat = 0 := rfl
  have hgas := LogWaves.gas_le h hfits (by omega) (by omega)
  rwa [hzero, Nat.zero_add] at hgas

end Executor

section Burning

def Interpreter.burning : Interpreter where
  precompile _ _ _ := (0, false)
  run _ _ _ := pure ⟨0, true, []⟩
  create _ _ _ := pure ⟨0, true, []⟩

def delegation : Bytes := [0xef, 0x01, 0x00] ++ List.replicate 20 0

def fundedValue (K : Keccak256) (txs : List Transaction) (key : Bytes) : Bytes :=
  match txs.find? fun tx => tx.sender.any fun a => key = nonceKey K a with
  | some tx => BigEndian.fixed 8 tx.nonce.toNat
  | none => List.replicate 32 255

def fundedState (K : Keccak256) (txs : List Transaction) : StateDB := .base ⟨fundedValue K txs, Set.univ⟩ .empty

variable (K : Keccak256) (ctx : BlockContext) (m : Bytes → Bytes)

theorem denote_transition_burning {msg : Message} (gas : ℕ)
    (hcode : ∀ a, (accounts K m).codeOf ctx.codes a ≠ [])
    (hvalue : msg.value ≤ ((accounts K m).balance msg.fromAddr).toNat) :
    ((transition K .burning ctx msg gas).denote m).1.gasLeft = 0 := by
  unfold transition
  cases hto : msg.toAddr with
  | none => rfl
  | some recipient =>
    let m₁ := ((setNonce K msg.fromAddr ((accounts K m).nonce msg.fromAddr + 1)).denote m).2
    have hm₁ : accounts K m₁ =
        (accounts K m).setNonce msg.fromAddr (storedNonce ((accounts K m).nonce msg.fromAddr + 1)) :=
      accounts_setNonce K m _ _
    have hblocked := denote_cannotTransfer K m₁ msg.fromAddr (show msg.value ≤ _ by rw [hm₁]; exact hvalue)
    have hcode₁ : (accounts K m₁).codeOf ctx.codes recipient ≠ [] := by
      rw [hm₁]
      exact hcode recipient
    have hcall : ((call K .burning ctx msg recipient gas).denote m₁).1.gasLeft = 0 := by
      simp only [call, Prog.denote_bind, hblocked]
      by_cases hp : isPrecompile recipient
      · simp [hp, Interpreter.burning]
      · simp [hp, hcode₁, Interpreter.burning]
    simpa using hcall

theorem applyMessage_burning {gasPool : ℕ} {msg : Message} (hprice : msg.gasPrice ≤ msg.gasFeeCap)
    (hcode : ∀ a, (accounts K m).codeOf ctx.codes a ≠ [])
    (h : admission ctx gasPool msg ((accounts K m).nonce msg.fromAddr)
      ((accounts K m).codeOf ctx.codes msg.fromAddr) ((accounts K m).balance msg.fromAddr) = none) :
    ∃ res, ((applyMessage K .burning ctx gasPool msg).denote m).1 = .ok res ∧ res.usedGas = msg.gasLimit.toNat := by
  obtain ⟨hcover, -⟩ := Covered.of_admission ctx h
  have hburnt := denote_transition_burning K ctx (debited K m msg) (msg.gasLimit.toNat - (intrinsicGas msg).getD 0)
    (by rw [accounts_debited]; exact hcode) (value_le_debited K m msg hprice hcover)
  rw [denote_applyMessage_admitted K .burning ctx m msg hprice h]
  exact ⟨_, rfl, by rw [hburnt, Nat.sub_zero]⟩

section Funded

variable {txs : List Transaction}

theorem fundedValue_of_forall {key : Bytes} (h : ∀ a, key ≠ nonceKey K a) :
    fundedValue K txs key = List.replicate 32 255 := by
  have hnone : (txs.find? fun tx => tx.sender.any fun a => key = nonceKey K a) = none := by
    rw [List.find?_eq_none]
    intro tx _
    simp [h]
  rw [fundedValue, hnone]

theorem decodeNonce_fixed (n : UInt64) : decodeNonce (BigEndian.fixed 8 n.toNat) = n := by
  have hn : n.toNat % 256 ^ 8 = n.toNat := Nat.mod_eq_of_lt n.toNat_lt
  rw [decodeNonce_eq, BigEndian.value_fixed, hn, UInt64.ofNat_toNat]

theorem funded_balance (a : Address) :
    ((accounts K (fundedState K txs).getVerkleValue).balance a).toNat = 2 ^ 256 - 1 := by
  have hkey : fundedValue K txs (balanceKey K a) = List.replicate 32 255 :=
    fundedValue_of_forall K fun b h =>
      nomatch Cell.key_injective K (show (Cell.balance a).key K = (Cell.nonce b).key K from h)
  change (decodeBalance (fundedValue K txs (balanceKey K a))).toNat = _
  rw [hkey]
  decide

theorem funded_code (a : Address) :
    (accounts K (fundedState K txs).getVerkleValue).codeOf (fun _ => some delegation) a = delegation := by
  have hkey : fundedValue K txs (codeHashKey K a) = List.replicate 32 255 :=
    fundedValue_of_forall K fun b h =>
      nomatch Cell.key_injective K (show (Cell.codeHash a).key K = (Cell.nonce b).key K from h)
  have hhash : (accounts K (fundedState K txs).getVerkleValue).codeHash a = decodeHash (List.replicate 32 255) :=
    congrArg decodeHash hkey
  rw [Accounts.codeOf, hhash, if_neg (by decide)]
  rfl

theorem funded_nonce (hfree : txs.Pairwise fun t u => ¬Conflict t u) {tx : Transaction} (htx : tx ∈ txs) {a : Address}
    (hs : tx.sender = some a) : (accounts K (fundedState K txs).getVerkleValue).nonce a = tx.nonce := by
  change decodeNonce (fundedValue K txs (nonceKey K a)) = _
  have hsome : (txs.find? fun t => t.sender.any fun b => nonceKey K a = nonceKey K b).isSome := by
    rw [List.find?_isSome]
    exact ⟨tx, htx, by simp [hs]⟩
  obtain ⟨t, ht⟩ := Option.isSome_iff_exists.mp hsome
  rw [fundedValue, ht]
  have hfound := List.find?_some ht
  have hsender : t.sender = some a := by
    cases hsend : t.sender with
    | none => simp [hsend] at hfound
    | some b =>
      have hkey : (Cell.nonce a).key K = (Cell.nonce b).key K := by simpa [hsend, Cell.key] using hfound
      obtain rfl := Cell.nonce.inj (Cell.key_injective K hkey)
      rfl
  have hsame : t = tx := by
    by_contra hne
    have hsymm : Std.Symm fun t u => ¬Conflict t u := ⟨fun _ _ h hc => h (conflict_symm hc)⟩
    have hclear := hfree.forall (List.mem_of_find?_eq_some ht) htx hne
    exact hclear ⟨a, Transaction.mem_addresses_of_sender hsender, Transaction.mem_addresses_of_sender hs⟩
  rw [hsame]
  exact decodeNonce_fixed tx.nonce

theorem funded_admission (hfree : txs.Pairwise fun t u => ¬Conflict t u) {tx : Transaction} (htx : tx ∈ txs)
    {msg : Message} (hmsg : transactionToMessage tx ctx.baseFee = some msg)
    (hpayable : msg.Payable ctx.baseFee ctx.gasLimit.toNat) :
    admission ctx ctx.gasLimit.toNat msg ((accounts K (fundedState K txs).getVerkleValue).nonce msg.fromAddr)
      delegation ((accounts K (fundedState K txs).getVerkleValue).balance msg.fromAddr) = none := by
  have hnonce : (accounts K (fundedState K txs).getVerkleValue).nonce msg.fromAddr = msg.nonce := by
    rw [funded_nonce K hfree htx (transactionToMessage_fields hmsg).1]
    obtain ⟨sender, -, rfl⟩ := Option.map_eq_some_iff.mp hmsg
    rfl
  have hfunds : checkFunds ((accounts K (fundedState K txs).getVerkleValue).balance msg.fromAddr) msg = none := by
    have hbalance := hpayable.balance
    rw [checkFunds, funded_balance, if_neg (by omega)]
  simp only [admission, Option.or_eq_none_iff]
  rw [hnonce]
  exact ⟨⟨⟨⟨⟨⟨hpayable.nonce, by decide⟩, hpayable.fees⟩, hpayable.blobs⟩,
    if_neg (Nat.not_le.mpr hpayable.balance)⟩, hfunds⟩, hpayable.limits, hpayable.intrinsic⟩

end Funded

end Burning

namespace Executor

variable (e : Executor) (ctx : BlockContext)

def burning : Executor := { e with interpreter := .burning }

end Executor

def BlockContext.delegating (ctx : BlockContext) : BlockContext := { ctx with codes := fun _ => some delegation }

namespace Executor

variable {e : Executor} {ctx : BlockContext} {txs : List Transaction}

theorem executeTransaction_burning (hfree : txs.Pairwise fun t u => ¬Conflict t u) {tx : Transaction} (htx : tx ∈ txs)
    {msg : Message} (hmsg : transactionToMessage tx ctx.baseFee = some msg) (hsize : tx.size ≤ maxTxSize)
    (hsystem : ¬e.isSystemTx tx.toAddr) (hpayable : msg.Payable ctx.baseFee ctx.gasLimit.toNat) :
    ∃ failed code, ((e.burning.executeTransaction ctx.delegating tx).denote
      (fundedState e.keccak txs).getVerkleValue).1 = (tx, .executed tx.gas.toNat failed code) := by
  have hcode (a : Address) : (accounts e.keccak (fundedState e.keccak txs).getVerkleValue).codeOf
      (fun _ => some delegation) a = delegation := funded_code e.keccak a
  have hadm := funded_admission e.keccak ctx.delegating hfree htx hmsg hpayable
  rw [← hcode msg.fromAddr] at hadm
  obtain ⟨res, hres, hused⟩ := applyMessage_burning e.keccak ctx.delegating _ (transactionToMessage_price hmsg)
    (fun a => by rw [show ctx.delegating.codes = fun _ => some delegation from rfl, hcode a]; decide) hadm
  obtain ⟨-, hto, -⟩ := transactionToMessage_fields hmsg
  have hgas : msg.gasLimit = tx.gas := by
    obtain ⟨sender, -, rfl⟩ := Option.map_eq_some_iff.mp hmsg
    rfl
  have hmsg : transactionToMessage tx ctx.delegating.baseFee = some msg := hmsg
  have hres : ((applyMessage e.burning.keccak e.burning.interpreter ctx.delegating ctx.delegating.gasLimit.toNat
      msg).denote (fundedState e.keccak txs).getVerkleValue).1 = .ok res := hres
  have hsystem : ¬e.burning.isSystemTx tx.toAddr := hsystem
  refine ⟨res.failed, res.code, ?_⟩
  simp only [executeTransaction, if_neg (Nat.not_lt.mpr hsize), hmsg, Prog.denote_bind, hres, Prog.denote_pure,
    hto, if_neg hsystem, hused, hgas]

theorem reserve_le_burnt (hfree : txs.Pairwise fun t u => ¬Conflict t u) (i : Fin txs.length) (run : BlockRun)
    (hrun : run.statedb = fundedState e.keccak txs) (block : List Transaction) :
    e.gasReserve ctx (txs.get i) ≤ (Execution.ofPublication ((e.burning.waveStore ctx.delegating block).publication
      run (e.burning.goroutines ctx.delegating txs) i)).usedGas := by
  obtain hzero | ⟨hgas, hsize, hsystem, msg, hmsg, hpayable⟩ := e.gasReserve_cases ctx (txs.get i)
  · rw [hzero]
    exact Nat.zero_le _
  · obtain ⟨failed, code, hres⟩ := executeTransaction_burning hfree (List.get_mem txs i) hmsg hsize hsystem hpayable
    have hresult := (overlayBuffer.run_fresh run.statedb.getVerkleValue
      (e.burning.executeTransaction ctx.delegating (txs.get i))).1
    rw [hrun, hres] at hresult
    have hpublished : ((e.burning.waveStore ctx.delegating block).publication run
        (e.burning.goroutines ctx.delegating txs) i).result =
          (txs.get i, .executed (txs.get i).gas.toNat failed code) := by
      rw [← hresult, ← hrun]
      rfl
    unfold Execution.ofPublication Execution.usedGas
    rw [hgas, hpublished]

theorem exists_burning_block (e : Executor) (ctx : BlockContext) (hfree : txs.Pairwise fun t u => ¬Conflict t u)
    (hne : txs ≠ []) : ∃ log run, e.burning.LogBlock ctx.delegating txs (fundedState e.keccak txs) log run ∧
      e.waveReserve ctx txs ≤ (log.map Execution.usedGas).sum := by
  have hschedule : schedule txs = [txs] := by
    rw [schedule_eq_rounds]
    exact FirstFit.rounds_of_pairwise Conflict hne hfree
  obtain ⟨run, hwave⟩ := Shared.publishes_results (S := e.burning.waveStore ctx.delegating txs)
    (List.nodup_finRange txs.length) List.mem_finRange (startBlock (fundedState e.keccak txs) txs)
    (e.burning.goroutines ctx.delegating txs)
  have hstart : ¬(startBlock (fundedState e.keccak txs) txs).blockGasUsed > blockGasLimit :=
    show ¬(0 : UInt64) > blockGasLimit by decide
  have hlog := LogWaves.wave hstart hwave (.nil run)
  rw [← hschedule] at hlog
  refine ⟨_, run, hlog, ?_⟩
  have htxs : txs.map (e.gasReserve ctx) = (List.finRange txs.length).map fun i => e.gasReserve ctx (txs.get i) := by
    conv_lhs => rw [← List.map_get_finRange txs]
    rw [List.map_map]
    rfl
  rw [List.append_nil, List.map_map, List.map_map, waveReserve, htxs]
  exact List.sum_le_sum fun i _ => reserve_le_burnt hfree i _ rfl txs

/-- The gas of a block stays within its limit where its waves fit. Without conflicts they form one wave,
and then nothing less is enough: some EVM and state use all that the transactions reserve. -/
theorem block_gas_iff (e : Executor) (ctx : BlockContext) (txs : List Transaction) :
    (e.GasFits ctx 0 (schedule txs) → ∀ s log run, e.LogBlock ctx txs s log run →
      (log.map Execution.usedGas).sum ≤ ctx.gasLimit.toNat ∧
        ((e.closeBlock ctx txs run).receipts.map fun r => r.gasUsed.toNat).sum ≤ ctx.gasLimit.toNat) ∧
    (txs.Pairwise (fun t u => ¬Conflict t u) →
      ((∀ interpreter codes s log run,
        ({ e with interpreter := interpreter } : Executor).LogBlock { ctx with codes := codes } txs s log run →
          (log.map Execution.usedGas).sum ≤ ctx.gasLimit.toNat) ↔
        (txs.map (e.gasReserve ctx)).sum ≤ ctx.gasLimit.toNat)) := by
  refine ⟨fun hfits s log run h => ?_, fun hfree => ⟨fun hall => ?_, fun hsum interpreter codes s log run h => ?_⟩⟩
  · have hgas := h.gas_le_limit hfits
    rw [h.receipts_gas]
    exact ⟨hgas, (sum_slots h.mem h.usedGas_lt).1.trans hgas⟩
  · by_cases hne : txs = []
    · subst hne
      exact Nat.zero_le _
    · obtain ⟨log, run, h, hreserve⟩ := exists_burning_block e ctx hfree hne
      exact hreserve.trans (hall _ _ _ log run h)
  · refine h.gas_le_limit ?_
    by_cases hne : txs = []
    · subst hne
      rw [schedule_eq_rounds, FirstFit.rounds_nil]
      trivial
    · rw [schedule_eq_rounds, FirstFit.rounds_of_pairwise Conflict hne hfree]
      refine ⟨?_, trivial⟩
      rw [Nat.zero_add]
      exact hsum

end Executor

section Sample

def heavyPayments : List Transaction :=
  [{ gweiPayment with gas := 40000000 }, { payment (initialBaseFee - 1) 0xa2 0xb2 with gas := 40000000 }]

theorem two_payments_within_limit : ∀ s log run,
    Executor.ideal.LogBlock gweiContext (twoPayments (initialBaseFee - 1)) s log run →
      (log.map Execution.usedGas).sum ≤ gweiContext.gasLimit.toNat := by
  have hfits : Executor.ideal.GasFits gweiContext 0 (schedule (twoPayments (initialBaseFee - 1))) := by
    have hfree : (twoPayments (initialBaseFee - 1)).Pairwise fun t u => ¬Conflict t u := by
      simp [twoPayments, Conflict, Transaction.addresses, payment]
    rw [schedule_eq_rounds, FirstFit.rounds_of_pairwise Conflict (by decide) hfree]
    exact ⟨by decide +kernel, trivial⟩
  intro s log run h
  exact ((Executor.block_gas_iff .ideal gweiContext (twoPayments (initialBaseFee - 1))).1 hfits s log run h).1

theorem heavy_wave_exceeds_limit : gweiContext.gasLimit = defaultGasLimit ∧
    (∀ tx ∈ heavyPayments, tx.gas ≤ defaultGasLimit) ∧
    ∃ s log run, Executor.ideal.burning.LogBlock gweiContext.delegating heavyPayments s log run ∧
      defaultGasLimit.toNat < (log.map Execution.usedGas).sum := by
  have hfree : heavyPayments.Pairwise fun t u => ¬Conflict t u := by
    simp [heavyPayments, Conflict, Transaction.addresses, gweiPayment, payment]
  obtain ⟨log, run, h, hreserve⟩ := Executor.exists_burning_block .ideal gweiContext hfree (by decide)
  refine ⟨rfl, by decide, _, log, run, h, Nat.lt_of_lt_of_le ?_ hreserve⟩
  decide +kernel

end Sample

end Zephyria
