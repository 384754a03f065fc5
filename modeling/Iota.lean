import Iota.Authority.CongestionTracker.Runs
import Iota.Authority.ConsensusHandler.ProcessedCache
import Iota.Authority.ConsensusHandler.Runs
import Iota.Authority.ConsensusQuarantine.Executed
import Iota.Checkpoints.Epoch
import Iota.Execution.CircularOwnership
import Iota.ExecutionCache.ObjectLocks.Released
import Iota.Framework.LinkedTable
import Iota.Framework.PriorityQueue
import Iota.Network.Randomness
import Iota.Network.StateSync.Panics
import Iota.Starfish.AncestorsAtRound
import Iota.Starfish.CommitSyncer
import Iota.Starfish.CommitVoteMonitor
import Iota.Starfish.Core.Drain
import Iota.Starfish.Core.LastSolid
import Iota.Starfish.DagState.Accepted
import Iota.Starfish.DagState.Acknowledgments
import Iota.Starfish.DagState.Membership
import Iota.Starfish.LeaderSchedule.Paths
import Iota.Starfish.Linearizer.Acks
import Iota.Starfish.Linearizer.Timestamps
import Iota.Starfish.References
import Iota.Starfish.ThresholdClock
import Iota.System.Stake.Payouts
import Iota.System.SystemState.Reports
import Iota.System.ValidatorSet.Lifecycle
import Iota.System.ValidatorSet.Rewards
import Iota.System.ValidatorSet.Selection
import Iota.TrafficController.Sketch
