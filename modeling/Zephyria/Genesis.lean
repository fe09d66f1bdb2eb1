import Zephyria.Types

namespace Zephyria

structure Validator where
  address : Address
  stake : ℕ
deriving DecidableEq

structure SystemParams where
  stakingAddr : Address
  rewardAddr : Address
  validatorAddr : Address
deriving DecidableEq

/-- Any other name selects the devnet. -/
inductive Network where
  | mainnet
  | testnet
  | devnet
  | simulation
deriving DecidableEq

structure NetworkConfig where
  genesisTime : UInt64
  difficulty : ℕ
  gasLimit : UInt64
  baseFee : Option ℕ
  coinbase : Address
  genesisHash : Hash
  validators : List Validator
  params : SystemParams
deriving DecidableEq

def systemParams : SystemParams where
  stakingAddr := 0x1000
  rewardAddr := 0x2000
  validatorAddr := 0x3000

def defaultAccount : Address := 0xf39Fd6e51aad88F6F4ce6aB8827279cffFb92266

def defaultValidators : List Validator :=
  [⟨defaultAccount, 100⟩, ⟨0x96216849c49358B10257cb55b28eA603c874b05E, 100⟩,
    ⟨0x627306090abaB3A6e1400e9345bC60c78a8BEf57, 100⟩, ⟨0xf17f52151EbEF6C7334FAD080c5704D77216b732, 100⟩]

def simulationValidators : List Validator :=
  [⟨defaultAccount, 100⟩, ⟨0x70997970C51812dc3A010C7d01b50e0d17dc79C8, 100⟩,
    ⟨0x3C44CdDdB6a900fa2b585dd299e03d12FA4293BC, 100⟩, ⟨0x90F79bf6EB2c4f870365E785982E1f101E93b906, 100⟩]

/-- What every network expects of its genesis block: the hash of the one without base fee. -/
def genesisHash : Hash := 0x8cdc37cd690b6c953ea305b357eba4b443a844932e6bf99ccc06f659e6e10b5a

def getNetworkConfig : Network → NetworkConfig
  | .mainnet =>
    { genesisTime := 1735689600, difficulty := 1, gasLimit := 60000000, baseFee := some 1000000000,
      coinbase := defaultAccount, genesisHash := genesisHash, validators := defaultValidators,
      params := systemParams }
  | .testnet =>
    { genesisTime := 1735689600, difficulty := 1, gasLimit := 60000000, baseFee := none,
      coinbase := defaultAccount, genesisHash := genesisHash, validators := defaultValidators,
      params := systemParams }
  | .simulation =>
    { genesisTime := 1735689600, difficulty := 1, gasLimit := 60000000, baseFee := none,
      coinbase := defaultAccount, genesisHash := genesisHash, validators := simulationValidators,
      params := systemParams }
  | .devnet =>
    { genesisTime := 1735689600, difficulty := 1, gasLimit := 60000000, baseFee := some 1000000000,
      coinbase := defaultAccount, genesisHash := genesisHash, validators := [⟨defaultAccount, 100⟩],
      params := systemParams }

@[simp]
theorem getNetworkConfig_params (network : Network) : (getNetworkConfig network).params = systemParams := by
  cases network <;> rfl

def generateGenesisBlock (cfg : NetworkConfig) : Block where
  header :=
    { parentHash := 0, number := 0, time := cfg.genesisTime, verkleRoot := 0, txHash := 0,
      coinbase := cfg.coinbase, extraData := [], difficulty := cfg.difficulty, gasLimit := cfg.gasLimit,
      gasUsed := 0, baseFee := cfg.baseFee }
  transactions := []

def genesisAlloc (cfg : NetworkConfig) : List (Address × U256) :=
  [(defaultAccount, 1000000000000000000000000),
    (cfg.params.stakingAddr, 1000000000000000000),
    (cfg.params.rewardAddr, 1000000000000000000),
    (cfg.params.validatorAddr, 1000000000000000000),
    (0xfc77dd2e36da5546258f6c25cf0f71d1460aaff0, 10000000000000000000000)]

end Zephyria
