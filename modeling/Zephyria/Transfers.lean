import Zephyria.Executor
import Zephyria.ValidatorRegistry

namespace Zephyria

namespace Accounts

variable (w : Accounts)

def credit (a : Address) (v : U256) : Accounts := w.setBalance a (w.balance a + v)

section Frame

variable (a : Address) (v : U256) (n : UInt64)

@[simp]
theorem balance_credit : (w.credit a v).balance = Function.update w.balance a (w.balance a + v) := rfl

@[simp]
theorem nonce_credit : (w.credit a v).nonce = w.nonce := rfl

@[simp]
theorem codeHash_credit : (w.credit a v).codeHash = w.codeHash := rfl

@[simp]
theorem storage_credit : (w.credit a v).storage = w.storage := rfl

@[simp]
theorem balance_setNonce : (w.setNonce a n).balance = w.balance := rfl

@[simp]
theorem nonce_setNonce : (w.setNonce a n).nonce = Function.update w.nonce a n := rfl

@[simp]
theorem codeHash_setNonce : (w.setNonce a n).codeHash = w.codeHash := rfl

@[simp]
theorem codeOf_setBalance (codes : Hash → Option Bytes) :
    (w.setBalance a v).codeOf codes = w.codeOf codes := rfl

@[simp]
theorem codeOf_credit (codes : Hash → Option Bytes) : (w.credit a v).codeOf codes = w.codeOf codes := rfl

@[simp]
theorem codeOf_setNonce (codes : Hash → Option Bytes) :
    (w.setNonce a n).codeOf codes = w.codeOf codes := rfl

end Frame

def settleTransfer (ctx : BlockContext) (msg : Message) (recipient : Address) : Accounts :=
  let gas := (intrinsicGas msg).getD 0
  let bought := w.credit msg.fromAddr (-BitVec.ofNat 256 (msg.gasLimit.toNat * msg.gasPrice))
  let called := bought.setNonce msg.fromAddr (storedNonce (w.nonce msg.fromAddr + 1))
  let moved := (called.credit msg.fromAddr (-BitVec.ofNat 256 msg.value)).credit recipient
    (BitVec.ofNat 256 msg.value)
  let refunded := moved.credit msg.fromAddr (BitVec.ofNat 256 ((msg.gasLimit.toNat - gas) * msg.gasPrice))
  refunded.credit ctx.coinbase (BitVec.ofNat 256 (gas * (msg.gasPrice - ctx.baseFee.getD 0)))

end Accounts

def admission (ctx : BlockContext) (gasPool : ℕ) (msg : Message) (nonce : UInt64) (code : Bytes)
    (balance : U256) : Option MessageError :=
  ((((((checkNonce nonce msg.nonce).or (checkSender code)).or (checkFees ctx.baseFee msg)).or
    (checkBlobs msg)).or (if balanceCheck msg ≥ 2 ^ 256 then some .insufficientFunds else none)).or
    (checkFunds balance msg)).or ((checkLimits gasPool msg).or (checkIntrinsicGas msg))

section Message

variable (K : Keccak256) (I : Interpreter) (ctx : BlockContext) (m : Bytes → Bytes)

@[simp]
theorem unlessError_none {α : Type} (next : StateM (Except MessageError α)) :
    unlessError none next = next := rfl

@[simp]
theorem unlessError_some {α : Type} (err : MessageError) (next : StateM (Except MessageError α)) :
    unlessError (some err) next = pure (.error err) := rfl

theorem denote_cannotTransfer (a : Address) {v : ℕ} (h : v ≤ ((accounts K m).balance a).toNat) :
    (cannotTransfer K a (BitVec.ofNat 256 v)).denote m = (false, m) := by
  have hb := ((accounts K m).balance a).isLt
  have hle : ¬(accounts K m).balance a < BitVec.ofNat 256 v := by
    rw [BitVec.lt_def, BitVec.toNat_ofNat, Nat.mod_eq_of_lt (by omega)]
    omega
  unfold cannotTransfer
  split
  · rfl
  · simp [hle]

theorem toNat_debit {b : U256} {v : ℕ} (h : v ≤ b.toNat) :
    (b + -BitVec.ofNat 256 v).toNat = b.toNat - v := by
  have hb := b.isLt
  rw [← BitVec.sub_eq_add_neg, BitVec.toNat_sub, BitVec.toNat_ofNat]
  omega

structure Covered (msg : Message) (balance : U256) : Prop where
  funds : balanceCheck msg ≤ balance.toNat
  gas : (intrinsicGas msg).getD 0 ≤ msg.gasLimit.toNat

theorem admission_eq_none {gasPool : ℕ} {msg : Message} {nonce : UInt64} {code : Bytes} {balance : U256}
    (h : admission ctx gasPool msg nonce code balance = none) :
    checkNonce nonce msg.nonce = none ∧ checkSender code = none ∧
      checkFees ctx.baseFee msg = none ∧ checkBlobs msg = none ∧ balanceCheck msg < 2 ^ 256 ∧
      checkFunds balance msg = none ∧ checkLimits gasPool msg = none ∧ checkIntrinsicGas msg = none := by
  simpa [admission, and_assoc] using h

theorem Covered.of_admission {gasPool : ℕ} {msg : Message} {nonce : UInt64} {code : Bytes}
    {balance : U256} (h : admission ctx gasPool msg nonce code balance = none) : Covered msg balance := by
  obtain ⟨-, -, -, -, -, hfunds, -, hgas⟩ := admission_eq_none ctx h
  constructor
  · simpa [checkFunds] using hfunds
  · unfold checkIntrinsicGas at hgas
    cases hg : intrinsicGas msg with
    | none => simp [hg] at hgas
    | some gas => simpa [hg] using hgas

theorem accounts_settle (ctx : BlockContext) (msg : Message) (gasLeft : ℕ) :
    accounts K ((settle K ctx msg gasLeft).denote m).2 =
      ((accounts K m).credit msg.fromAddr (BitVec.ofNat 256 (gasLeft * msg.gasPrice))).credit ctx.coinbase
        (BitVec.ofNat 256 ((msg.gasLimit.toNat - gasLeft) * (msg.gasPrice - ctx.baseFee.getD 0))) := by
  simp [settle, Accounts.credit]

section Admitted

variable (msg : Message)

/-- What an admitted message runs on: its gas is paid for. -/
def debited : Bytes → Bytes :=
  ((subBalance K msg.fromAddr (BitVec.ofNat 256 (msg.gasLimit.toNat * msg.gasPrice))).denote m).2

theorem accounts_debited : accounts K (debited K m msg) = (accounts K m).credit msg.fromAddr
    (-BitVec.ofNat 256 (msg.gasLimit.toNat * msg.gasPrice)) :=
  accounts_subBalance K m _ _

theorem value_le_debited (hprice : msg.gasPrice ≤ msg.gasFeeCap)
    (hcover : balanceCheck msg ≤ ((accounts K m).balance msg.fromAddr).toNat) :
    msg.value ≤ ((accounts K (debited K m msg)).balance msg.fromAddr).toNat := by
  have hcost : msg.gasLimit.toNat * msg.gasPrice ≤ msg.gasLimit.toNat * msg.gasFeeCap :=
    Nat.mul_le_mul_left _ hprice
  unfold balanceCheck at hcover
  rw [accounts_debited, Accounts.balance_credit, Function.update_self, toNat_debit (by omega)]
  omega

theorem denote_applyMessage_admitted {gasPool : ℕ} (hprice : msg.gasPrice ≤ msg.gasFeeCap)
    (h : admission ctx gasPool msg ((accounts K m).nonce msg.fromAddr)
      ((accounts K m).codeOf ctx.codes msg.fromAddr) ((accounts K m).balance msg.fromAddr) = none) :
    let run := (transition K I ctx msg (msg.gasLimit.toNat - (intrinsicGas msg).getD 0)).denote (debited K m msg)
    (applyMessage K I ctx gasPool msg).denote m =
      (.ok ⟨msg.gasLimit.toNat - run.1.gasLeft, run.1.failed, run.1.code⟩,
        ((settle K ctx msg run.1.gasLeft).denote run.2).2) := by
  obtain ⟨hnonce, hsender, hfees, hblobs, hbig, hfunds, hlimits, hgas⟩ := admission_eq_none ctx h
  obtain ⟨hcover, -⟩ := Covered.of_admission ctx h
  have hvalueBound : ¬msg.value ≥ 2 ^ 256 := by
    unfold balanceCheck at hbig
    omega
  have hblocked := denote_cannotTransfer K _ msg.fromAddr (value_le_debited K m msg hprice hcover)
  unfold debited at hblocked ⊢
  simp only [applyMessage, Prog.denote_bind, denote_getNonce, hnonce, unlessError_none, denote_getCode,
    hsender, hfees, hblobs, if_neg (Nat.not_le.mpr hbig), denote_getBalance, hfunds, hlimits, hgas,
    if_neg hvalueBound, hblocked, Bool.false_eq_true, if_false, Prog.denote_pure]

end Admitted

section Call

variable (msg : Message) {recipient : Address} (hprecompile : isPrecompile recipient = false)
  (hcode : (accounts K m).codeOf ctx.codes recipient = [])

include hprecompile hcode

theorem denote_call (gas : ℕ) (hvalue : msg.value ≤ ((accounts K m).balance msg.fromAddr).toNat) :
    ((call K I ctx msg recipient gas).denote m).1 = ⟨gas, false, []⟩ ∧
      accounts K ((call K I ctx msg recipient gas).denote m).2 =
        ((accounts K m).credit msg.fromAddr (-BitVec.ofNat 256 msg.value)).credit recipient
          (BitVec.ofNat 256 msg.value) := by
  simp [call, denote_cannotTransfer K m msg.fromAddr hvalue, hprecompile, hcode, Accounts.credit]

theorem denote_transition (hto : msg.toAddr = some recipient) (gas : ℕ)
    (hvalue : msg.value ≤ ((accounts K m).balance msg.fromAddr).toNat) :
    ((transition K I ctx msg gas).denote m).1 = ⟨gas, false, []⟩ ∧
      accounts K ((transition K I ctx msg gas).denote m).2 =
        (((accounts K m).setNonce msg.fromAddr (storedNonce ((accounts K m).nonce msg.fromAddr + 1))).credit
          msg.fromAddr (-BitVec.ofNat 256 msg.value)).credit recipient (BitVec.ofNat 256 msg.value) := by
  let m₁ := ((setNonce K msg.fromAddr ((accounts K m).nonce msg.fromAddr + 1)).denote m).2
  have hm₁ : accounts K m₁ =
      (accounts K m).setNonce msg.fromAddr (storedNonce ((accounts K m).nonce msg.fromAddr + 1)) :=
    accounts_setNonce K m _ _
  have hcall := denote_call K I ctx m₁ msg hprecompile
    (by rw [hm₁]; exact hcode) gas (by rw [hm₁]; exact hvalue)
  rw [hm₁] at hcall
  simpa [transition, hto] using hcall

theorem denote_applyMessage {gasPool : ℕ} (hto : msg.toAddr = some recipient)
    (hprice : msg.gasPrice ≤ msg.gasFeeCap)
    (h : admission ctx gasPool msg ((accounts K m).nonce msg.fromAddr)
      ((accounts K m).codeOf ctx.codes msg.fromAddr) ((accounts K m).balance msg.fromAddr) = none) :
    ((applyMessage K I ctx gasPool msg).denote m).1 = .ok ⟨(intrinsicGas msg).getD 0, false, []⟩ ∧
      accounts K ((applyMessage K I ctx gasPool msg).denote m).2 =
        (accounts K m).settleTransfer ctx msg recipient := by
  obtain ⟨hcover, hused⟩ := Covered.of_admission ctx h
  have hdebited := accounts_debited K m msg
  have hcall := denote_transition K I ctx (debited K m msg) msg hprecompile
    (by rw [hdebited]; exact hcode) hto
    (msg.gasLimit.toNat - (intrinsicGas msg).getD 0) (value_le_debited K m msg hprice hcover)
  have hleft : msg.gasLimit.toNat - (msg.gasLimit.toNat - (intrinsicGas msg).getD 0) =
      (intrinsicGas msg).getD 0 := by omega
  rw [denote_applyMessage_admitted K I ctx m msg hprice h]
  simp only [hcall.1, accounts_settle, hcall.2, hdebited, hleft]
  exact ⟨trivial, rfl⟩

end Call

section Rejection

variable {ω : Type} (B : Buffer ω Bytes Bytes) {R : Bytes → Bytes → Prop}

def codeAt (codes : Hash → Option Bytes) (v : Bytes) : Bytes :=
  if decodeHash v = emptyCodeHash then [] else (codes (decodeHash v)).getD []

theorem always_check {α : Type} {Q : Except MessageError α → ω → Prop} {check : Option MessageError}
    {next : StateM (Except MessageError α)} {o : ω} (herr : ∀ err, check = some err → Q (.error err) o)
    (h : check = none → B.Always R Q next o) : B.Always R Q (unlessError check next) o := by
  cases check with
  | none => exact h rfl
  | some err => exact herr err rfl

theorem always_unlessError {α : Type} {Q : Except MessageError α → ω → Prop}
    (herr : ∀ err o, Q (.error err) o) {err : Option MessageError} {next : StateM (Except MessageError α)} {o : ω}
    (h : err = none → B.Always R Q next o) : B.Always R Q (unlessError err next) o :=
  always_check B (fun err _ => herr err o) h

theorem always_cannotTransfer {a : Address} {o : ω} {val : Bytes} (hval : B.find o (balanceKey K a) = some val)
    (v : U256) : B.Always R (fun blocked o' => o' = o ∧ blocked = decide (decodeBalance val < v))
      (cannotTransfer K a v) o := by
  unfold cannotTransfer
  split
  next hzero =>
    refine ⟨rfl, (decide_eq_false ?_).symm⟩
    rw [hzero]
    exact BitVec.not_lt_zero
  next =>
    intro cur hcur
    obtain rfl : val = cur := by simpa [hval] using hcur
    exact ⟨rfl, rfl⟩

theorem value_le_toNat {balance : U256} {value : ℕ} (hlt : value < 2 ^ 256)
    (h : BitVec.ofNat 256 value ≤ balance) : value ≤ balance.toNat := by
  rwa [BitVec.le_def, BitVec.toNat_ofNat, Nat.mod_eq_of_lt hlt] at h

/-- A message that is not refused has passed every check on what was read of its sender, whose
balance alone has been written when the transition starts. -/
theorem always_applyMessage {gasPool : ℕ} {msg : Message} {o : ω} {Q : Except MessageError ExecutionResult → ω → Prop}
    (herr : ∀ err o, Q (.error err) o)
    (h : ∀ v₁ v₂ v₃ v₄, B.Answers R o (nonceKey K msg.fromAddr) v₁ → B.Answers R o (codeHashKey K msg.fromAddr) v₂ →
      B.Answers R o (balanceKey K msg.fromAddr) v₃ →
      admission ctx gasPool msg (decodeNonce v₁) (codeAt ctx.codes v₂) (decodeBalance v₃) = none →
      msg.value ≤ (decodeBalance v₄).toNat →
      B.Always R Q (transition K I ctx msg (msg.gasLimit.toNat - (intrinsicGas msg).getD 0) >>= fun res =>
        settle K ctx msg res.gasLeft >>= fun _ =>
          pure (.ok ⟨msg.gasLimit.toNat - res.gasLeft, res.failed, res.code⟩))
        (B.write o (balanceKey K msg.fromAddr) v₄)) :
    B.Always R Q (applyMessage K I ctx gasPool msg) o := by
  intro v₁ h₁
  apply always_unlessError B herr
  intro hnonce v₂ h₂
  apply always_unlessError B herr
  intro hsender
  apply always_unlessError B herr
  intro hfees
  apply always_unlessError B herr
  intro hblobs
  apply always_unlessError B herr
  intro hbig v₃ h₃
  apply always_unlessError B herr
  intro hfunds
  apply always_unlessError B herr
  intro hlimits v₄ _
  apply always_unlessError B herr
  intro hgas
  apply always_unlessError B herr
  intro hvalue
  rw [B.always_bind]
  apply B.always_mono _ (always_cannotTransfer K B ((B.find_write _ _ _ _).trans (if_pos rfl)) _)
  rintro blocked _ ⟨rfl, rfl⟩
  apply always_unlessError B herr
  intro hblocked
  apply h v₁ v₂ v₃ _ h₁ h₂ h₃
  · simp only [admission, Option.or_eq_none_iff]
    exact ⟨⟨⟨⟨⟨⟨hnonce, hsender⟩, hfees⟩, hblobs⟩, hbig⟩, hfunds⟩, hlimits, hgas⟩
  · exact value_le_toNat (by simpa using hvalue) (by simpa using hblocked)

section Errors

variable {E : MessageError → Prop} (hother : ∀ err, err.aboutFees = false → E err)

include hother

omit B in
theorem ite_error {c : Prop} [Decidable c] {other : MessageError} (h : other.aboutFees = false) :
    ∀ err, (if c then some other else none) = some err → E err := by
  intro err heq
  split at heq
  · exact Option.some.inj heq ▸ hother other h
  · cases heq

omit B in
theorem checkNonce_error (stNonce msgNonce : UInt64) : ∀ err, checkNonce stNonce msgNonce = some err → E err := by
  unfold checkNonce
  split_ifs
  · exact fun err heq => Option.some.inj heq ▸ hother .nonceTooHigh rfl
  · exact fun err heq => Option.some.inj heq ▸ hother .nonceTooLow rfl
  · exact fun err heq => Option.some.inj heq ▸ hother .nonceMax rfl
  · exact nofun

omit B in
theorem checkIntrinsicGas_error (msg : Message) : ∀ err, checkIntrinsicGas msg = some err → E err := by
  unfold checkIntrinsicGas
  split
  · exact fun err heq => Option.some.inj heq ▸ hother .gasUintOverflow rfl
  · exact ite_error hother rfl

theorem always_applyMessage_error {gasPool : ℕ} {msg : Message}
    (hfees : ∀ err, checkFees ctx.baseFee msg = some err → E err)
    (hblobs : ∀ err, checkBlobs msg = some err → E err) (o : ω) :
    B.Always R (fun a _ => ∀ err, a = .error err → E err) (applyMessage K I ctx gasPool msg) o := by
  have hcheck {check : Option MessageError} (h : ∀ err, check = some err → E err)
      {next : StateM (Except MessageError ExecutionResult)} {o : ω}
      (hnext : B.Always R (fun a _ => ∀ err, a = .error err → E err) next o) :
      B.Always R (fun a _ => ∀ err, a = .error err → E err) (unlessError check next) o := by
    apply always_check B _ fun _ => hnext
    intro err heq err' herr
    exact Except.error.inj herr ▸ h err heq
  unfold applyMessage
  apply B.always_bind_of_forall
  intro stNonce _
  apply hcheck (checkNonce_error hother _ _)
  apply B.always_bind_of_forall
  intro code _
  apply hcheck (ite_error hother rfl)
  apply hcheck hfees
  apply hcheck hblobs
  apply hcheck (ite_error hother rfl)
  apply B.always_bind_of_forall
  intro balance _
  apply hcheck (ite_error hother rfl)
  apply hcheck (ite_error hother rfl)
  apply B.always_bind_of_forall
  intro _ _
  apply hcheck (checkIntrinsicGas_error hother msg)
  apply hcheck (ite_error hother rfl)
  apply B.always_bind_of_forall
  intro blocked _
  apply hcheck (ite_error hother rfl)
  apply B.always_bind_of_forall
  intro res _
  apply B.always_bind_of_forall
  exact fun _ _ err heq => nomatch heq

end Errors

theorem checkFees_panics {baseFee : Option ℕ} {msg : Message} {err : MessageError} (hbase : baseFee ≠ none)
    (h : checkFees baseFee msg = some err) : err.panics = false := by
  obtain ⟨fee, rfl⟩ := Option.ne_none_iff_exists'.mp hbase
  unfold checkFees at h
  split_ifs at h
  · exact Option.some.inj h ▸ rfl
  · exact Option.some.inj h ▸ rfl
  · exact Option.some.inj h ▸ rfl
  · dsimp only at h
    split at h
    · exact Option.some.inj h ▸ rfl
    · cases h

theorem always_applyMessage_calm {gasPool : ℕ} {msg : Message} (hbase : ctx.baseFee ≠ none)
    (hblobs : msg.blobHashes = none) (o : ω) :
    B.Always R (fun a _ => ∀ err, a = .error err → err.panics = false) (applyMessage K I ctx gasPool msg) o := by
  apply always_applyMessage_error
  · intro err herr
    simp only [MessageError.aboutFees, decide_eq_false_iff_not, not_or] at herr
    exact Bool.not_eq_true _ |>.mp herr.2.2
  · exact fun err => checkFees_panics hbase
  · rw [checkBlobs_eq_none.mpr hblobs]
    exact nofun

theorem always_applyMessage_rejected {gasPool : ℕ} {msg : Message}
    (h : ∀ v₁ v₂ v₃, R (nonceKey K msg.fromAddr) v₁ → R (codeHashKey K msg.fromAddr) v₂ →
      R (balanceKey K msg.fromAddr) v₃ → admission ctx gasPool msg (decodeNonce v₁)
        (codeAt ctx.codes v₂) (decodeBalance v₃) ≠ none) :
    B.Always R (fun a _ => ∃ err, a = .error err) (applyMessage K I ctx gasPool msg) B.fresh := by
  apply always_applyMessage K I ctx B fun err _ => ⟨err, rfl⟩
  intro v₁ v₂ v₃ v₄ h₁ h₂ h₃ hadmitted _
  exact absurd hadmitted (h v₁ v₂ v₃ (h₁.below (B.find_fresh _)) (h₂.below (B.find_fresh _)) (h₃.below (B.find_fresh _)))

end Rejection

end Message

structure IsTransfer (ctx : BlockContext) (w : Accounts) (tx : Transaction) (recipient : Address) : Prop where
  toAddr : tx.toAddr = some recipient
  data : tx.data = []
  blobs : tx.blobHashes = none
  precompile : isPrecompile recipient = false
  code : w.codeOf ctx.codes recipient = []

theorem IsTransfer.congr {ctx : BlockContext} {w w' : Accounts} {tx : Transaction} {recipient : Address}
    (h : w'.codeHash recipient = w.codeHash recipient) (ht : IsTransfer ctx w tx recipient) :
    IsTransfer ctx w' tx recipient :=
  { ht with code := by rw [Accounts.codeOf, h]; exact ht.code }

def Admits (ctx : BlockContext) (w : Accounts) (tx : Transaction) : Prop :=
  tx.size ≤ maxTxSize ∧ ∃ msg ∈ transactionToMessage tx ctx.baseFee,
    admission ctx ctx.gasLimit.toNat msg (w.nonce msg.fromAddr) (w.codeOf ctx.codes msg.fromAddr)
      (w.balance msg.fromAddr) = none

instance (ctx : BlockContext) (w : Accounts) (tx : Transaction) : Decidable (Admits ctx w tx) :=
  inferInstanceAs (Decidable (_ ∧ _))

theorem Admits.message {ctx : BlockContext} {w : Accounts} {tx : Transaction} (ha : Admits ctx w tx) :
    ∃ msg, transactionToMessage tx ctx.baseFee = some msg := by
  obtain ⟨-, msg, hmsg, -⟩ := ha
  exact ⟨msg, hmsg⟩

theorem transactionToMessage_price {tx : Transaction} {baseFee : Option ℕ} {msg : Message}
    (h : transactionToMessage tx baseFee = some msg) : msg.gasPrice ≤ msg.gasFeeCap := by
  obtain ⟨sender, -, rfl⟩ := Option.map_eq_some_iff.mp h
  cases baseFee with
  | none => exact le_rfl
  | some fee => exact Nat.min_le_right _ _

theorem effectiveGasPrice_eq {ctx : BlockContext} {tx : Transaction} {msg : Message}
    (h : transactionToMessage tx ctx.baseFee = some msg) :
    effectiveGasPrice ctx tx = msg.gasPrice := by
  obtain ⟨sender, -, rfl⟩ := Option.map_eq_some_iff.mp h
  unfold effectiveGasPrice
  cases ctx.baseFee with
  | none => rfl
  | some fee =>
    change (if fee + tx.gasTipCap < tx.gasFeeCap then fee + tx.gasTipCap else tx.gasFeeCap) =
      min (tx.gasTipCap + fee) tx.gasFeeCap
    rw [Nat.min_def]
    split_ifs <;> omega

theorem transactionToMessage_fields {tx : Transaction} {baseFee : Option ℕ} {msg : Message}
    (h : transactionToMessage tx baseFee = some msg) :
    tx.sender = some msg.fromAddr ∧ msg.toAddr = tx.toAddr ∧ msg.data = tx.data := by
  obtain ⟨sender, hs, rfl⟩ := Option.map_eq_some_iff.mp h
  exact ⟨hs, rfl, rfl⟩

theorem transactionToMessage_blobHashes {tx : Transaction} {baseFee : Option ℕ} {msg : Message}
    (h : transactionToMessage tx baseFee = some msg) : msg.blobHashes = tx.blobHashes := by
  obtain ⟨sender, hs, rfl⟩ := Option.map_eq_some_iff.mp h
  rfl

namespace Accounts

variable (w : Accounts) (p : SystemParams)

def transact (ctx : BlockContext) (msg : Message) (recipient : Address) : Accounts :=
  if recipient = p.stakingAddr then
    (w.settleTransfer ctx msg recipient).stakingContract p msg.fromAddr msg.value []
  else w.settleTransfer ctx msg recipient

theorem deposit_frame (sender : Address) (value : ℕ) :
    (w.deposit p sender value).balance = w.balance ∧ (w.deposit p sender value).nonce = w.nonce ∧
      (w.deposit p sender value).codeHash = w.codeHash := by
  unfold deposit
  dsimp only
  split <;> simp

theorem transact_frame (ctx : BlockContext) (msg : Message) (recipient : Address) :
    (w.transact p ctx msg recipient).balance = (w.settleTransfer ctx msg recipient).balance ∧
      (w.transact p ctx msg recipient).nonce = (w.settleTransfer ctx msg recipient).nonce ∧
      (w.transact p ctx msg recipient).codeHash = w.codeHash := by
  unfold transact stakingContract
  split
  · rw [if_neg (show ¬([] : Bytes) = unstakePayload by decide)]
    split
    · exact deposit_frame _ p _ _
    · exact ⟨rfl, rfl, rfl⟩
  · exact ⟨rfl, rfl, rfl⟩

end Accounts

theorem distributeReward_nil (K : Keccak256) (p : SystemParams) (value : ℕ) :
    distributeReward K p value [] = pure () := by
  simp [distributeReward]

theorem accounts_processSystemContracts (K : Keccak256) (p : SystemParams) (m : Bytes → Bytes)
    (msg : Message) : accounts K ((processSystemContracts K p msg []).denote m).2 =
      if msg.toAddr = some p.stakingAddr then
        (accounts K m).stakingContract p msg.fromAddr msg.value [] else accounts K m := by
  have hnone : rewardOrder msg.value [] = none := if_neg (by simp)
  rw [accounts_systemContracts, Accounts.systemContracts, Accounts.distributeReward, hnone]
  exact ite_self _

namespace Executor

variable (e : Executor) (ctx : BlockContext)

def chargedGas (msg : Message) : ℕ := if e.isSystemTx msg.toAddr then 0 else (intrinsicGas msg).getD 0

theorem denote_executeTransaction (m : Bytes → Bytes) {tx : Transaction} {recipient : Address}
    {msg : Message} (ht : IsTransfer ctx (accounts e.keccak m) tx recipient)
    (hmsg : transactionToMessage tx ctx.baseFee = some msg)
    (ha : Admits ctx (accounts e.keccak m) tx) :
    ((e.executeTransaction ctx tx).denote m).1 = (tx, .executed (e.chargedGas msg) false []) ∧
      accounts e.keccak ((e.executeTransaction ctx tx).denote m).2 =
        (accounts e.keccak m).transact e.params ctx msg recipient := by
  obtain ⟨hsize, msg', hmsg', hadm⟩ := ha
  obtain rfl : msg' = msg := Option.some.inj (hmsg'.symm.trans hmsg)
  obtain ⟨-, hto, -⟩ := transactionToMessage_fields hmsg
  have happly := denote_applyMessage e.keccak e.interpreter ctx m _ ht.precompile ht.code
    (hto.trans ht.toAddr) (transactionToMessage_price hmsg) hadm
  simp only [executeTransaction, if_neg (Nat.not_lt.mpr hsize), hmsg, Prog.denote_bind, happly.1,
    Prog.denote_pure, ht.data, accounts_processSystemContracts, happly.2, hto, ht.toAddr, chargedGas,
    Option.some.injEq]
  exact ⟨trivial, rfl⟩

theorem always_executeTransaction {ω : Type} (B : Buffer ω Bytes Bytes) {R : Bytes → Bytes → Prop} {tx : Transaction}
    {o : ω} {Q : Transaction × TxResult → ω → Prop} (hskip : Q (tx, .skipped) o)
    (h : tx.size ≤ maxTxSize → ∀ msg, transactionToMessage tx ctx.baseFee = some msg →
      ∃ P, B.Always R P (applyMessage e.keccak e.interpreter ctx ctx.gasLimit.toNat msg) o ∧
        (∀ err o, P (.error err) o → Q (tx, if err.panics then .panicked else .rejected) o) ∧
        ∀ res o, P (.ok res) o → B.Always R (fun _ => Q (tx, .executed
          (if e.isSystemTx msg.toAddr then 0 else res.usedGas) res.failed res.code))
          (processSystemContracts e.keccak e.params msg tx.data) o) :
    B.Always R Q (e.executeTransaction ctx tx) o := by
  unfold executeTransaction
  split
  · exact hskip
  next hsize =>
    split
    · exact hskip
    next msg hmsg =>
      obtain ⟨P, hmessage, herr, hok⟩ := h (Nat.not_lt.mp hsize) msg hmsg
      rw [B.always_bind]
      apply B.always_mono _ hmessage
      intro res o hres
      cases res with
      | error err => exact herr err o hres
      | ok res => exact (B.always_bind _ _ _ _ _).mpr (hok res o hres)

theorem always_executeTransaction_rejected {ω : Type} (B : Buffer ω Bytes Bytes)
    {R : Bytes → Bytes → Prop} {tx : Transaction}
    (h : tx.size ≤ maxTxSize → ∀ msg, transactionToMessage tx ctx.baseFee = some msg →
      ∀ v₁ v₂ v₃, R (nonceKey e.keccak msg.fromAddr) v₁ → R (codeHashKey e.keccak msg.fromAddr) v₂ →
        R (balanceKey e.keccak msg.fromAddr) v₃ → admission ctx ctx.gasLimit.toNat msg
          (decodeNonce v₁) (codeAt ctx.codes v₂) (decodeBalance v₃) ≠ none) :
    B.Always R (fun a _ => ¬Commits a) (e.executeTransaction ctx tx) B.fresh := by
  refine e.always_executeTransaction ctx B id fun hsize msg hmsg =>
    ⟨_, always_applyMessage_rejected e.keccak e.interpreter ctx B (h hsize msg hmsg), ?_, ?_⟩
  · exact fun err _ _ => not_commits_error tx err
  · rintro res _ ⟨err, herr⟩
    cases herr

theorem always_executeTransaction_calm {ω : Type} (B : Buffer ω Bytes Bytes) {R : Bytes → Bytes → Prop}
    {tx : Transaction} (hbase : ctx.baseFee ≠ none) (hblobs : tx.blobHashes = none) (o : ω) :
    B.Always R (fun a _ => a.2 ≠ .panicked) (e.executeTransaction ctx tx) o := by
  refine e.always_executeTransaction ctx B nofun fun _ msg hmsg => ⟨_, always_applyMessage_calm e.keccak e.interpreter
    ctx B hbase ((transactionToMessage_blobHashes hmsg).trans hblobs) o, ?_, ?_⟩
  · intro err _ hcalm
    rw [hcalm err rfl]
    exact nofun
  · exact fun _ _ _ => B.always_mono (fun _ _ _ => nofun) (B.always_true _ _ _)

section Run

variable {ω : Type} (B : Buffer ω Bytes Bytes) (r : Bytes → Bytes) {tx : Transaction}

theorem not_commits_of_not_admits (h : ¬Admits ctx (accounts e.keccak r) tx) :
    ¬Commits (B.run r (e.executeTransaction ctx tx) B.fresh).1 := by
  apply B.always_run (R := fun k v => v = r k) (Q := fun a _ => ¬Commits a) r (fun _ => rfl)
  apply always_executeTransaction_rejected e ctx B
  rintro hsize msg hmsg _ _ _ rfl rfl rfl hadm
  exact h ⟨hsize, msg, hmsg, hadm⟩

theorem run_executeTransaction {recipient : Address} {msg : Message}
    (ht : IsTransfer ctx (accounts e.keccak r) tx recipient)
    (hmsg : transactionToMessage tx ctx.baseFee = some msg)
    (ha : Admits ctx (accounts e.keccak r) tx) :
    (B.run r (e.executeTransaction ctx tx) B.fresh).1 = (tx, .executed (e.chargedGas msg) false []) ∧
      accounts e.keccak (B.view r (B.run r (e.executeTransaction ctx tx) B.fresh).2) =
        (accounts e.keccak r).transact e.params ctx msg recipient := by
  obtain ⟨hresult, hview⟩ := B.run_fresh r (e.executeTransaction ctx tx)
  rw [hresult, hview]
  exact e.denote_executeTransaction ctx r ht hmsg ha

end Run

def book (run : BlockRun) : Accounts := accounts e.keccak run.statedb.getVerkleValue

section Step

variable (txs : List Transaction) {run : BlockRun} {tx : Transaction}

theorem finish_of_not_commits (run : BlockRun) (own : Own) {a : Transaction × TxResult} (h : ¬Commits a) :
    (e.finish ctx txs run own a).statedb = run.statedb ∧
      (e.finish ctx txs run own a).blockGasUsed = run.blockGasUsed ∧
      (e.finish ctx txs run own a).totalFees = run.totalFees := by
  obtain ⟨tx, res⟩ := a
  cases res with
  | executed usedGas failed code => exact absurd trivial h
  | skipped => exact ⟨rfl, rfl, rfl⟩
  | panicked => exact ⟨rfl, rfl, rfl⟩
  | rejected => exact ⟨rfl, rfl, rfl⟩

theorem finish_calm (run : BlockRun) (own : Own) {a : Transaction × TxResult} (h : a.2 ≠ .panicked) :
    (e.finish ctx txs run own a).panicked = run.panicked := by
  obtain ⟨tx, res⟩ := a
  cases res with
  | panicked => exact absurd rfl h
  | skipped => rfl
  | rejected => rfl
  | executed usedGas failed code => rfl

theorem atomic_calm (run : BlockRun) (hbase : ctx.baseFee ≠ none) (hblobs : tx.blobHashes = none) :
    ((e.waveStore ctx txs).atomic run (e.executeTransaction ctx tx)).panicked = run.panicked :=
  e.finish_calm ctx txs run _ (overlayBuffer.always_run (R := fun _ _ => True)
    (Q := fun (a : Transaction × TxResult) _ => a.2 ≠ .panicked) run.statedb.getVerkleValue (fun _ => trivial)
    (e.always_executeTransaction_calm ctx overlayBuffer hbase hblobs overlayBuffer.fresh))

theorem atomic_of_not_admits (h : ¬Admits ctx (e.book run) tx) :
    e.book ((e.waveStore ctx txs).atomic run (e.executeTransaction ctx tx)) = e.book run ∧
      ((e.waveStore ctx txs).atomic run (e.executeTransaction ctx tx)).blockGasUsed = run.blockGasUsed ∧
      ((e.waveStore ctx txs).atomic run (e.executeTransaction ctx tx)).totalFees = run.totalFees := by
  have hc := e.not_commits_of_not_admits ctx overlayBuffer run.statedb.getVerkleValue h
  obtain ⟨hdb, hgas, hfees⟩ := e.finish_of_not_commits ctx txs run
    (overlayBuffer.run run.statedb.getVerkleValue (e.executeTransaction ctx tx) overlayBuffer.fresh).2 hc
  exact ⟨congrArg (fun s : StateDB => accounts e.keccak s.getVerkleValue) hdb, hgas, hfees⟩

theorem atomic_of_admits {recipient : Address} {msg : Message}
    (ht : IsTransfer ctx (e.book run) tx recipient)
    (hmsg : transactionToMessage tx ctx.baseFee = some msg) (ha : Admits ctx (e.book run) tx) :
    e.book ((e.waveStore ctx txs).atomic run (e.executeTransaction ctx tx)) =
        (e.book run).transact e.params ctx msg recipient ∧
      ((e.waveStore ctx txs).atomic run (e.executeTransaction ctx tx)).blockGasUsed =
        run.blockGasUsed + UInt64.ofNat (e.chargedGas msg) ∧
      ((e.waveStore ctx txs).atomic run (e.executeTransaction ctx tx)).totalFees =
        run.totalFees + e.chargedGas msg * msg.gasPrice := by
  obtain ⟨hres, hbook⟩ := e.run_executeTransaction ctx overlayBuffer run.statedb.getVerkleValue ht hmsg ha
  have hatomic : (e.waveStore ctx txs).atomic run (e.executeTransaction ctx tx) =
      e.finish ctx txs run (overlayBuffer.run run.statedb.getVerkleValue (e.executeTransaction ctx tx)
        overlayBuffer.fresh).2 (tx, .executed (e.chargedGas msg) false []) := by
    rw [← hres]
    rfl
  rw [hatomic, ← effectiveGasPrice_eq hmsg]
  refine ⟨Eq.trans ?_ hbook, rfl, rfl⟩
  exact congrArg (accounts e.keccak) (funext (getVerkleValue_addCode_merge run.statedb _ []))

end Step

end Executor

def granted (K : Keccak256) (grants : List (Address × U256)) : StateDB :=
  grants.foldl (fun s g => (StateDB.exec (addBalance K g.1 g.2) s).2) (.base .empty .empty)

def sampleContext : BlockContext where
  coinbase := 0xc0
  blockNumber := 1
  time := 0
  difficulty := 1
  gasLimit := 60000000
  baseFee := some 1
  getHash _ := 0
  codes _ := none

def payment (tip : ℕ) (sender recipient : Address) : Transaction where
  hash := addressKey sender
  type := .dynamicFee
  chainId := 1338
  sender := some sender
  nonce := 0
  gas := 21000
  gasFeeCap := 1 + tip
  gasTipCap := tip
  toAddr := some recipient
  value := 5
  data := []
  accessList := []
  v := 0
  r := 1
  s := 1
  size := 110

end Zephyria
