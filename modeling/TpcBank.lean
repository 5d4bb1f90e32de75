import TpcBank.Library.Transition
import TpcBank.Library.Decimal
import TpcBank.Library.Ledger
import TpcBank.Types
import TpcBank.Utils
import TpcBank.Wal
import TpcBank.Server
import TpcBank.Network
import TpcBank.Handlers
import TpcBank.Outcomes
import TpcBank.Actions
import TpcBank.Effects
import TpcBank.Replay
import TpcBank.LogEffects
import TpcBank.Steps
import TpcBank.Routing
import TpcBank.Ballots
import TpcBank.Rounds
import TpcBank.Quorums
import TpcBank.Rejections
import TpcBank.AtMostOnce
import TpcBank.Undecided
import TpcBank.Locks
import TpcBank.Client
import TpcBank.Provenance
import TpcBank.Coordinator
import TpcBank.TwoPhaseCommit
import TpcBank.Conservation
import TpcBank.LogSlots
import TpcBank.StateMatch
import TpcBank.Convergence
import TpcBank.WalDecode
import TpcBank.WalHistory
import TpcBank.Decisions
import TpcBank.LatePrepares
import TpcBank.LockOwners
import TpcBank.QuorumIntersection
import TpcBank.CsvReader
import TpcBank.CsvRoundTrip
import TpcBank.Library.Reservation
import TpcBank.LoneLeader
import TpcBank.Followers
import TpcBank.Lockstep
import TpcBank.Shards
import TpcBank.LogIndex
import TpcBank.Library.Pattern
import TpcBank.Commands
import TpcBank.Exclusive
import TpcBank.Disconnected
import TpcBank.IntBalances
import TpcBank.Overflow
import TpcBank.DecisionOrder
import TpcBank.WalFailure
import TpcBank.CsvErrors
import TpcBank.WedgedRounds
import TpcBank.Library.Tagged
import TpcBank.InCalls
import TpcBank.CallLifecycle
import TpcBank.Library.Voting
import TpcBank.Moves
import TpcBank.Votes
import TpcBank.Slots
import TpcBank.LiveBallots
import TpcBank.Agreement
import TpcBank.SoleLeaders
import TpcBank.Tracking
import TpcBank.Serializability
import TpcBank.Library.Simulation
import TpcBank.EventLoops
import TpcBank.Driver
import TpcBank.FileBank
import TpcBank.LeaderLocks
import TpcBank.LeaderRounds
import TpcBank.Quiescence
import TpcBank.Connectivity
import TpcBank.Minority
