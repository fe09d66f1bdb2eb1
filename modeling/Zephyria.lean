import Zephyria.Lib.BigEndian
import Zephyria.Lib.Rlp
import Zephyria.Lib.Framing
import Zephyria.Lib.StoreProgram
import Zephyria.Lib.Speculation
import Zephyria.Lib.Lanes
import Zephyria.Lib.Publications
import Zephyria.Lib.FirstFit
import Zephyria.Lib.Replay
import Zephyria.Lib.Runs
import Zephyria.Lib.Windows
import Zephyria.Lib.Loops
import Zephyria.Lib.Tries
import Zephyria.Lib.VectorCommitments
import Zephyria.Types
import Zephyria.StateDB
import Zephyria.VerkleNodes
import Zephyria.VerkleLeaves
import Zephyria.VerkleInserts
import Zephyria.VerkleRoots
import Zephyria.VerkleRuns
import Zephyria.VerkleBinding
import Zephyria.Accounts
import Zephyria.Overlays
import Zephyria.OverlayRefinement
import Zephyria.Nonces
import Zephyria.OverlayLanes
import Zephyria.LiveReads
import Zephyria.Scheduler
import Zephyria.Genesis
import Zephyria.SystemContracts
import Zephyria.ValidatorRegistry
import Zephyria.StakingHistory
import Zephyria.StakeAccounting
import Zephyria.Zelius
import Zephyria.Seals
import Zephyria.ValidatorSync
import Zephyria.Leadership
import Zephyria.Slashing
import Zephyria.LeaderCache
import Zephyria.StakeGate
import Zephyria.GenesisValidators
import Zephyria.Message
import Zephyria.Executor
import Zephyria.Transfers
import Zephyria.CallArgs
import Zephyria.Supply
import Zephyria.Solvency
import Zephyria.BlockLog
import Zephyria.SystemBalances
import Zephyria.SystemFees
import Zephyria.Footprints
import Zephyria.WaveDeterminism
import Zephyria.Blockchain
import Zephyria.CanonicalIndex
import Zephyria.Codes
import Zephyria.KeySpaces
import Zephyria.PutFailures
import Zephyria.Durability
import Zephyria.CodeVisibility
import Zephyria.Snapshots
import Zephyria.Node
import Zephyria.Receipts
import Zephyria.TransactionIndex
import Zephyria.LogFilters
import Zephyria.BlockGas
import Zephyria.ChainLinkage
import Zephyria.Finality
import Zephyria.ChainState
import Zephyria.HeaderAgreement
import Zephyria.BaseFee
import Zephyria.Production
import Zephyria.Admission
import Zephyria.LeaderAgreement
import Zephyria.BatchExits
import Zephyria.Sync
import Zephyria.Crash
import Zephyria.HistoricalState
import Zephyria.PeerRemoval
import Zephyria.RateLimit
import Zephyria.GenesisCrash
import Zephyria.RawTransactions
import Zephyria.VerkleState
import Zephyria.Messages
import Zephyria.Links
import Zephyria.ExecutedNonces
