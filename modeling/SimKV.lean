import SimKV.Lib.Ballot
import SimKV.Lib.Poll
import SimKV.Lib.TermLog
import SimKV.Lib.TermLogStep
import SimKV.Lib.TermLogWindow
import SimKV.Lib.OrdMap
import SimKV.Lib.ByteCodec
import SimKV.Lib.Frames
import SimKV.Lib.ShiftRegister
import SimKV.Lib.Lines
import SimKV.Lib.Json
import SimKV.Lib.Alarm
import SimKV.Lib.BoundedDraw
import SimKV.Lib.WordMaps
import SimKV.Lib.Shuffle
import SimKV.Raft.Types
import SimKV.Storage.KvStore
import SimKV.Storage.DurableStore
import SimKV.Storage.FileDurableStore
import SimKV.Storage.Codec
import SimKV.Storage.Wal
import SimKV.Storage.Checksum
import SimKV.Raft.Log
import SimKV.Raft.Rpc
import SimKV.Raft.Medium
import SimKV.Raft.Node
import SimKV.Cluster
import SimKV.Raft.Moves
import SimKV.Raft.Handlers
import SimKV.Raft.Effects
import SimKV.Runs
import SimKV.Raft.Acts
import SimKV.Raft.Callbacks
import SimKV.Raft.ElectionTimers
import SimKV.Raft.Mirror
import SimKV.Raft.Formats
import SimKV.Raft.Wire
import SimKV.Raft.Rejections
import SimKV.Raft.Writes
import SimKV.Raft.CrashPoints
import SimKV.Raft.Outgoing
import SimKV.Raft.AppendWindows
import SimKV.Raft.Backtracking
import SimKV.Raft.Election
import SimKV.Raft.Polls
import SimKV.Raft.LogRep
import SimKV.Raft.LogReference
import SimKV.Raft.LogWords
import SimKV.Raft.FixedMembers
import SimKV.Raft.Replica
import SimKV.Raft.ReplicaSteps
import SimKV.Raft.ReplicaMoves
import SimKV.Raft.Safety
import SimKV.Raft.Applied
import SimKV.Raft.Followers
import SimKV.Raft.Clients
import SimKV.Raft.Changes
import SimKV.Raft.Reads
import SimKV.Raft.ReadIndex
import SimKV.Raft.Books
import SimKV.Raft.Configs
import SimKV.Raft.Leaders
import SimKV.Raft.Origins
import SimKV.Lib.Schedule
import SimKV.Harness.History
import SimKV.Checker.OwnChecker
import SimKV.Checker.Exact
import SimKV.Checker.Unknown
import SimKV.Checker.PorcupineGlue
import SimKV.Harness.HistoryJson
import SimKV.Harness.Workload
import SimKV.Harness.Outcomes
import SimKV.Harness.Sessions
import SimKV.Harness.Requests
import SimKV.Harness.Linearizable
import SimKV.Harness.Verdict
import SimKV.Sim.Simulator
import SimKV.Sim.Order
import SimKV.Sim.Prng
import SimKV.Sim.Scripts
import SimKV.Sim.Draws
import SimKV.Sim.Network
import SimKV.Harness.FaultInjector
import SimKV.Harness.Runner
import SimKV.Harness.RunnerSteps
import SimKV.Harness.RunnerTime
import SimKV.Harness.RunnerQueue
import SimKV.Harness.RunnerFaults
import SimKV.Harness.RunnerRefines
import SimKV.Harness.RunnerTrace
import SimKV.Harness.RunnerClients
import SimKV.Server.ClientLines
import SimKV.Server.TcpTransport
