/-
# `raft/rpc.hpp`: the messages

One structure per RPC and their sum `Msg`.  In the model of the cluster a packet
carries the message itself; its bytes are in `SimKV.Raft.Wire`.  `B` is the type of
the serialized key-value state that `InstallSnapshot` carries (`SimKV.Raft.Medium`).
-/
import SimKV.Raft.Types

namespace SimKV

structure RequestVote where
  term : Nat
  candidateId : NodeId
  lastLogIndex : Nat
  lastLogTerm : Nat
deriving DecidableEq, Repr

structure RequestVoteReply where
  term : Nat
  voteGranted : Bool
deriving DecidableEq, Repr

structure AppendEntries where
  term : Nat
  leaderId : NodeId
  prevLogIndex : Nat
  prevLogTerm : Nat
  entries : List LogEntry
  leaderCommit : Nat
deriving DecidableEq, Repr

structure AppendEntriesReply where
  term : Nat
  success : Bool
  /-- For fast backtracking; 0 if success. -/
  conflictIndex : Nat
  /-- 0 if success or no conflicting term. -/
  conflictTerm : Nat
deriving DecidableEq, Repr

structure ClientRequest where
  clientId : Nat
  /-- "Per-client monotonic counter for dedup". -/
  requestId : Nat
  cmd : Command
deriving DecidableEq, Repr

structure ClientReply where
  clientId : Nat
  requestId : Nat
  success : Bool
  result : CmdResult
  /-- The known leader if redirecting; 0 if unknown. -/
  leaderHint : NodeId
deriving DecidableEq, Repr

structure InstallSnapshot (B : Type) where
  term : Nat
  leaderId : NodeId
  lastIncludedIndex : Nat
  lastIncludedTerm : Nat
  data : B
deriving DecidableEq, Repr

structure InstallSnapshotReply where
  term : Nat
  /-- Echoed back so that the leader can advance its match index. -/
  lastIncludedIndex : Nat
deriving DecidableEq, Repr

structure ReadIndexRequest where
  term : Nat
  leaderId : NodeId
  round : Nat
deriving DecidableEq, Repr

structure ReadIndexReply where
  term : Nat
  round : Nat
deriving DecidableEq, Repr

inductive Msg (B : Type) where
  | requestVote (m : RequestVote)
  | requestVoteReply (m : RequestVoteReply)
  | appendEntries (m : AppendEntries)
  | appendEntriesReply (m : AppendEntriesReply)
  | clientRequest (m : ClientRequest)
  | clientReply (m : ClientReply)
  | installSnapshot (m : InstallSnapshot B)
  | installSnapshotReply (m : InstallSnapshotReply)
  | readIndexRequest (m : ReadIndexRequest)
  | readIndexReply (m : ReadIndexReply)
deriving DecidableEq, Repr

end SimKV
