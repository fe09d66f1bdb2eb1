import Zephyria.Accounts
import Zephyria.Genesis

namespace Zephyria

def hexDigit (b : UInt8) : Option ℕ :=
  if 48 ≤ b ∧ b ≤ 57 then some (b.toNat - 48)
  else if 97 ≤ b ∧ b ≤ 102 then some (b.toNat - 87)
  else if 65 ≤ b ∧ b ≤ 70 then some (b.toNat - 55)
  else none

/-- `hex.DecodeString` returns what it decoded before the first bad digit. -/
def decodeString : Bytes → Bytes
  | hi :: lo :: rest =>
    match hexDigit hi, hexDigit lo with
    | some h, some l => UInt8.ofNat (16 * h + l) :: decodeString rest
    | _, _ => []
  | _ => []

def has0xPrefix : Bytes → Bool
  | 48 :: x :: _ => x = 120 || x = 88
  | _ => false

def fromHex (s : Bytes) : Bytes :=
  let s := if has0xPrefix s then s.drop 2 else s
  decodeString (if s.length % 2 = 1 then 48 :: s else s)

def hexToAddress (s : Bytes) : Address := bytesToAddress (fromHex s)

def hexMagnitude (s : Bytes) : Option ℕ :=
  if s = [] then none else s.foldlM (fun n b => (hexDigit b).map (16 * n + ·)) 0

def setString16 : Bytes → Option ℤ
  | 45 :: ds => (hexMagnitude ds).map fun n => -(n : ℤ)
  | 43 :: ds => (hexMagnitude ds).map fun n => (n : ℤ)
  | ds => (hexMagnitude ds).map fun n => (n : ℤ)

def unstakePayload : Bytes := [85, 78, 83, 84, 65, 75, 69] -- "UNSTAKE"

def rewardTag : Bytes := [82, 69, 87, 65, 82, 68, 58] -- "REWARD:"

section Contracts

variable (K : Keccak256) (p : SystemParams)

def deposit (sender : Address) (value : ℕ) : StateM Unit := do
  let key := addressKey sender
  let _ ← setState K p.stakingAddr key (bigToHash value)
  let existingIndex ← getState K p.validatorAddr key
  if existingIndex = 0 then
    let currentCount ← getState K p.validatorAddr 0
    let newCount := currentCount.toNat + 1
    let _ ← setState K p.validatorAddr 0 (bigToHash newCount)
    let _ ← setState K p.validatorAddr (bigToHash newCount) key
    let _ ← setState K p.validatorAddr key (bigToHash newCount)
    pure ()
  else pure ()

def removeValidator (key : Hash) : StateM Unit := do
  let indexToRemove ← getState K p.validatorAddr key
  let currentCount ← getState K p.validatorAddr 0
  if indexToRemove.toNat < currentCount.toNat then
    let lastAddrHash ← getState K p.validatorAddr currentCount
    let _ ← setState K p.validatorAddr indexToRemove lastAddrHash
    let _ ← setState K p.validatorAddr lastAddrHash indexToRemove
    pure ()
  else pure ()
  let _ ← setState K p.validatorAddr currentCount 0
  -- `BigToHash` takes the magnitude of `currentCount - 1`.
  let _ ← setState K p.validatorAddr 0 (bigToHash ((currentCount.toNat : ℤ) - 1).natAbs)
  let _ ← setState K p.stakingAddr key 0
  let _ ← setState K p.validatorAddr key 0
  pure ()

def unstake (sender : Address) : StateM Unit := do
  let key := addressKey sender
  let storedVal ← getState K p.stakingAddr key
  if storedVal = 0 then pure ()
  else
    let amt256 : U256 := storedVal
    let balance ← getBalance K p.stakingAddr
    if balance < amt256 then pure ()
    else
      let _ ← subBalance K p.stakingAddr amt256
      let _ ← addBalance K sender amt256
      removeValidator K p key

def payReward (target : Address) (rewardAmt : ℤ) : StateM Unit := do
  -- `uint256.FromBig` wraps, negative amounts included.
  let amt256 : U256 := BitVec.ofInt 256 rewardAmt
  let poolBal ← getBalance K p.rewardAddr
  if poolBal < amt256 then pure ()
  else
    let _ ← subBalance K p.rewardAddr amt256
    let _ ← addBalance K target amt256
    pure ()

def distributeReward (value : ℕ) (data : Bytes) : StateM Unit :=
  if value = 0 ∧ data.length > 7 ∧ data.take 7 = rewardTag then
    match (data.drop 7).splitOn 58 with
    | [target, amount] =>
      match setString16 amount with
      | some rewardAmt => payReward K p (hexToAddress target) rewardAmt
      | none => pure ()
    | _ => pure ()
  else pure ()

/-- The branch for a message to the staking address; `data` is `tx.Data()`. One message may do both. -/
def stakingContract (sender : Address) (value : ℕ) (data : Bytes) : StateM Unit :=
  (if value > 0 then deposit K p sender value else pure ()) >>= fun _ =>
    if data = unstakePayload then unstake K p sender else pure ()

def processSystemContracts (msg : Message) (data : Bytes) : StateM Unit :=
  (if msg.toAddr = some p.stakingAddr then stakingContract K p msg.fromAddr msg.value data else pure ()) >>=
    fun _ => if msg.toAddr = some p.rewardAddr then distributeReward K p msg.value data else pure ()

end Contracts

end Zephyria
