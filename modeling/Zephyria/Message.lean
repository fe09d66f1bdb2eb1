import Zephyria.Overlays

namespace Zephyria

inductive MessageError where
  | nonceTooHigh
  | nonceTooLow
  | nonceMax
  | senderNoEOA
  | feeCapVeryHigh
  | tipVeryHigh
  | tipAboveFeeCap
  | nilBaseFee
  | feeCapTooLow
  | blobTxCreate
  | missingBlobHashes
  | invalidBlobHash
  | nilBlobBaseFee
  | insufficientFunds
  | gasLimitReached
  | gasUintOverflow
  | intrinsicGas
  | insufficientFundsForTransfer
deriving DecidableEq

/-- The source does not return the error but dereferences a fee that the block does not have. -/
def MessageError.panics : MessageError → Bool
  | .nilBaseFee => true
  | .nilBlobBaseFee => true
  | _ => false

def MessageError.aboutFees (err : MessageError) : Bool :=
  err = .tipAboveFeeCap ∨ err = .feeCapTooLow ∨ err.panics

structure CallResult where
  gasLeft : ℕ
  failed : Bool
  code : List (Σ _ : Hash, Bytes)
deriving DecidableEq

structure ExecutionResult where
  usedGas : ℕ
  failed : Bool
  code : List (Σ _ : Hash, Bytes)
deriving DecidableEq

structure BlockContext where
  coinbase : Address
  blockNumber : ℕ
  time : UInt64
  difficulty : ℕ
  gasLimit : UInt64
  baseFee : Option ℕ
  getHash : UInt64 → Hash
  codes : Hash → Option Bytes

structure Interpreter where
  precompile : Address → Bytes → ℕ → ℕ × Bool
  run : BlockContext → Message → ℕ → StateM CallResult
  create : BlockContext → Message → ℕ → StateM CallResult

def transactionToMessage (tx : Transaction) (baseFee : Option ℕ) : Option Message :=
  tx.sender.map fun sender =>
    { fromAddr := sender
      toAddr := tx.toAddr
      nonce := tx.nonce
      gasLimit := tx.gas
      value := tx.value
      gasPrice :=
        match baseFee with
        | some fee => min (tx.gasTipCap + fee) tx.gasFeeCap
        | none => tx.gasPrice
      gasFeeCap := tx.gasFeeCap
      gasTipCap := tx.gasTipCap
      data := tx.data
      accessList := tx.accessList
      blobHashes := tx.blobHashes }

def checkNonce (stNonce msgNonce : UInt64) : Option MessageError :=
  if stNonce < msgNonce then some .nonceTooHigh
  else if stNonce > msgNonce then some .nonceTooLow
  else if stNonce + 1 < stNonce then some .nonceMax
  else none

def isDelegation (code : Bytes) : Bool := code.length = 23 ∧ code.take 3 = [0xef, 0x01, 0x00]

def checkSender (code : Bytes) : Option MessageError :=
  if code.length > 0 ∧ ¬isDelegation code then some .senderNoEOA else none

def checkFees (baseFee : Option ℕ) (msg : Message) : Option MessageError :=
  if msg.gasFeeCap ≥ 2 ^ 256 then some .feeCapVeryHigh
  else if msg.gasTipCap ≥ 2 ^ 256 then some .tipVeryHigh
  else if msg.gasFeeCap < msg.gasTipCap then some .tipAboveFeeCap
  else
    match baseFee with
    | none => some .nilBaseFee
    | some fee => if msg.gasFeeCap < fee then some .feeCapTooLow else none

/-- The blocks of the chain have no blob base fee to compare with. -/
def checkBlobs (msg : Message) : Option MessageError :=
  match msg.blobHashes with
  | none => none
  | some blobHashes =>
    if msg.toAddr = none then some .blobTxCreate
    else if blobHashes = [] then some .missingBlobHashes
    else if blobHashes.any fun hash => (hashBytes hash).head? ≠ some 1 then some .invalidBlobHash
    else some .nilBlobBaseFee

theorem checkBlobs_eq_none {msg : Message} : checkBlobs msg = none ↔ msg.blobHashes = none := by
  unfold checkBlobs
  cases msg.blobHashes with
  | none => simp
  | some blobHashes =>
    dsimp only
    split_ifs <;> simp

def balanceCheck (msg : Message) : ℕ := msg.gasLimit.toNat * msg.gasFeeCap + msg.value

def checkFunds (balance : U256) (msg : Message) : Option MessageError :=
  if balance.toNat < balanceCheck msg then some .insufficientFunds else none

def maxUint64 : ℕ := 2 ^ 64 - 1

def intrinsicGas (msg : Message) : Option ℕ :=
  let gas := if msg.toAddr = none then 53000 else 21000
  let z := msg.data.count 0
  let nz := msg.data.length - z
  if (maxUint64 - gas) / 16 < nz then none
  else
    let gas := gas + nz * 16
    if (maxUint64 - gas) / 4 < z then none
    else
      some ((gas + z * 4 + msg.accessList.length * 2400 +
        (msg.accessList.map fun e => e.2.length).sum * 1900) % 2 ^ 64)

def checkIntrinsicGas (msg : Message) : Option MessageError :=
  match intrinsicGas msg with
  | none => some .gasUintOverflow
  | some gas => if msg.gasLimit.toNat < gas then some .intrinsicGas else none

def checkLimits (gasPool : ℕ) (msg : Message) : Option MessageError :=
  if gasPool < msg.gasLimit.toNat then some .gasLimitReached else none

def unlessError {α : Type} (err : Option MessageError) (next : StateM (Except MessageError α)) :
    StateM (Except MessageError α) :=
  match err with
  | some e => pure (.error e)
  | none => next

/-- The precompiled contracts of the Berlin rules, which the EVM falls back to without a random
value in the block context. -/
def isPrecompile (a : Address) : Bool := 1 ≤ a.toNat ∧ a.toNat ≤ 9

section Transition

variable (K : Keccak256) (I : Interpreter) (ctx : BlockContext)

def cannotTransfer (sender : Address) (value : U256) : StateM Bool :=
  if value = 0 then pure false
  else do
    let balance ← getBalance K sender
    pure (balance < value)

def call (msg : Message) (toAddr : Address) (gas : ℕ) : StateM CallResult := do
  let value : U256 := BitVec.ofNat 256 msg.value
  let blocked ← cannotTransfer K msg.fromAddr value
  if blocked then pure ⟨gas, true, []⟩
  else do
    let _ ← subBalance K msg.fromAddr value
    let _ ← addBalance K toAddr value
    if isPrecompile toAddr then
      let (gasLeft, failed) := I.precompile toAddr msg.data gas
      pure ⟨gasLeft, failed, []⟩
    else do
      let code ← getCode K ctx.codes toAddr
      if code = [] then pure ⟨gas, false, []⟩ else I.run ctx msg gas

def transition (msg : Message) (gas : ℕ) : StateM CallResult :=
  match msg.toAddr with
  | none => I.create ctx msg gas
  | some toAddr => do
    let nonce ← getNonce K msg.fromAddr
    setNonce K msg.fromAddr (nonce + 1)
    -- Warms the delegation target of the recipient, which the state ignores.
    let _ ← getCode K ctx.codes toAddr
    call K I ctx msg toAddr gas

def settle (ctx : BlockContext) (msg : Message) (gasLeft : ℕ) : StateM Unit := do
  let _ ← addBalance K msg.fromAddr (BitVec.ofNat 256 (gasLeft * msg.gasPrice))
  let effectiveTip := msg.gasPrice - ctx.baseFee.getD 0
  let _ ← addBalance K ctx.coinbase
    (BitVec.ofNat 256 ((msg.gasLimit.toNat - gasLeft) * effectiveTip))
  pure ()

def applyMessage (gasPool : ℕ) (msg : Message) : StateM (Except MessageError ExecutionResult) := do
  let stNonce ← getNonce K msg.fromAddr
  unlessError (checkNonce stNonce msg.nonce) do
  let code ← getCode K ctx.codes msg.fromAddr
  unlessError (checkSender code) do
  unlessError (checkFees ctx.baseFee msg) do
  unlessError (checkBlobs msg) do
  unlessError (if balanceCheck msg ≥ 2 ^ 256 then some .insufficientFunds else none) do
  let balance ← getBalance K msg.fromAddr
  unlessError (checkFunds balance msg) do
  unlessError (checkLimits gasPool msg) do
  let _ ← subBalance K msg.fromAddr (BitVec.ofNat 256 (msg.gasLimit.toNat * msg.gasPrice))
  unlessError (checkIntrinsicGas msg) do
  unlessError (if msg.value ≥ 2 ^ 256 then some .insufficientFundsForTransfer else none) do
  let blocked ← cannotTransfer K msg.fromAddr (BitVec.ofNat 256 msg.value)
  unlessError (if blocked then some .insufficientFundsForTransfer else none) do
  let res ← transition K I ctx msg (msg.gasLimit.toNat - (intrinsicGas msg).getD 0)
  settle K ctx msg res.gasLeft
  pure (.ok ⟨msg.gasLimit.toNat - res.gasLeft, res.failed, res.code⟩)

end Transition

end Zephyria
