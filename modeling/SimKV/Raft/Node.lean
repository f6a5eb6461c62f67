/-
# `raft/node.{hpp,cpp}`: one Raft node

Every member function of `RaftNode` is a function from the node's state to the
node's state.  What a function does to the outside world it records, in order, in
`out`: messages sent, store calls, timers, callbacks invoked.  A few of the
records have no counterpart on the wire and only mark what happened (`applied`,
`placed`, `accepted`, `readBegun`); statements about runs are about these.

Functions that can throw return `Except`, and the error carries the state reached
when the exception left the function: `on_message` swallows it and the node goes
on from there.  Exceptions that leave a timer callback, `submit`, `crash` or `restart`
are not caught by the node.  `handle` gives the state reached there too, so that runs
of a cluster go on after one; what is said of all of them is then said of those that
end there as well.  Whether there was an exception is said by `raised`, for a caller
that does not survive it: `run_once` does not return then (`SimKV.Harness.Runner`).

Timers are not tied to a clock: any timer may fire at any time, and the callback's
own checks (generation, `running_`) decide what it does.  A callback object is
identified by the number of the step that created it (its ticket).
-/
import SimKV.Raft.Medium
import SimKV.Raft.Rpc
import SimKV.Storage.DurableStore
import Mathlib.Data.List.Sort
import Mathlib.Data.Finset.Card

namespace SimKV

/-- The fields of `RaftConfig` that are not durations. -/
structure RaftConfig where
  maxEntriesPerAe : Nat := 64
  /-- Take a snapshot every so many entries; 0 is off. -/
  snapshotThreshold : Nat := 0
  bugCommitPriorTerm : Bool := false
  bugSkipVoteUptodate : Bool := false
deriving DecidableEq, Repr

/-- A `ClientCallback`: which step created it and, if it is the lambda of
`handle_client_request`, what that lambda captured. -/
structure Callback where
  ticket : Nat
  origin : Option (NodeId × ClientRequest)
deriving DecidableEq, Repr

structure PendingRead where
  round : Nat
  /-- `commit_index_` at submission time. -/
  readIndex : Nat
  key : Str
  ticket : Nat
  /-- Starts at 1 (self). -/
  acks : Nat
deriving DecidableEq, Repr

structure Timers where
  electionScheduled : Bool
  electionGeneration : Nat
  heartbeatScheduled : Bool
deriving DecidableEq, Repr

inductive StoreId where
  | metaStore
  | logStore
  | snapshotStore
deriving DecidableEq, Repr

inductive TimerOp where
  | scheduleElection (gen : Nat)
  | cancelElection
  | scheduleHeartbeat
  | cancelHeartbeat
  | scheduleRead (round : Nat)
  | cancelRead (round : Nat)
deriving DecidableEq, Repr

/-- What a node does to the outside world. -/
inductive Effect (M : Medium) where
  | store (which : StoreId) (c : StoreCall M.Cell)
  | send (dst : NodeId) (m : Msg M.Blob)
  | timer (op : TimerOp)
  | stateChange (role : Role) (term : Nat)
  /-- A `ClientCallback` is invoked. -/
  | clientDone (cb : Callback) (r : CmdResult)
  /-- A `ReadCallback` is invoked. -/
  | readDone (ticket : Nat) (ok : Bool) (value : Option Str)
  /-- `submit` put the command of `cb` into the log as `e`. -/
  | placed (cb : Callback) (e : LogEntry)
  /-- The entry `e` at index `i` was applied to the store `kv`. -/
  | applied (i : Nat) (e : LogEntry) (kv : KvStore)
  /-- The log took in the entries of `ae`. -/
  | accepted (ae : AppendEntries)
  /-- `read_index` was accepted with read index `i`. -/
  | readBegun (ticket : Nat) (i : Nat)

structure Node (M : Medium) where
  id : NodeId
  peers : List NodeId
  cfg : RaftConfig
  running : Bool
  currentTerm : Nat
  votedFor : Option NodeId
  log : RaftLog
  metaStore : DurableStore M.Cell
  logStore : DurableStore M.Cell
  snapshotStore : DurableStore M.Cell
  snapLastIndex : Nat
  snapLastTerm : Nat
  snapData : M.Blob
  role : Role
  commitIndex : Nat
  lastApplied : Nat
  leaderId : Option NodeId
  kv : KvStore
  votesReceived : Finset NodeId
  nextIndex : OrdMap NodeId Nat
  matchIndex : OrdMap NodeId Nat
  pendingClients : OrdMap Nat Callback
  pendingReads : List PendingRead
  nextReadRound : Nat
  timers : Timers
  electionTerm : Nat
  voteCount : Nat
  configChangePending : Bool
  /-- The locals of an iteration of `apply_committed_entries`: the entry and the
  store it was applied to. -/
  applying : Option (LogEntry × KvStore)
  /-- The effects of the step in progress. -/
  out : List (Effect M)

/-- The state reached, or the exception with the state reached. -/
abbrev Res (M : Medium) := Except (String × Node M) (Node M)

/-- The state reached, either way. -/
def Res.state {M : Medium} : Res M → Node M
  | .ok s => s
  | .error (_, s) => s

/-- The exception, if there is one. -/
def Res.exception {M : Medium} : Res M → Option String
  | .ok _ => none
  | .error (e, _) => some e

/-- `RaftLog::at` and the text of its exception. -/
def outOfRange : String := "RaftLog::at: index out of range or compacted"

/-- `x - 1` on `uint64_t`. -/
def pred64 (x : Nat) : Nat := if x = 0 then 2 ^ 64 - 1 else x - 1

/-- `x + 1` on `uint64_t`. -/
def succ64 (x : Nat) : Nat := if x = 2 ^ 64 - 1 then 0 else x + 1

namespace Node

variable {M : Medium}

/-! ## Effects -/

def emit (e : Effect M) (s : Node M) : Node M := { s with out := s.out ++ [e] }

def send (dst : NodeId) (m : Msg M.Blob) (s : Node M) : Node M := s.emit (.send dst m)

/-- A broadcast, peer by peer. -/
def sendAll (dsts : List NodeId) (m : Msg M.Blob) (s : Node M) : Node M :=
  { s with out := s.out ++ dsts.map fun d => .send d m }

/-- One call on one of the three stores. -/
def storeCall (which : StoreId) (c : StoreCall M.Cell) (s : Node M) : Node M :=
  let s := match which with
    | .metaStore => { s with metaStore := s.metaStore.call c }
    | .logStore => { s with logStore := s.logStore.call c }
    | .snapshotStore => { s with snapshotStore := s.snapshotStore.call c }
  s.emit (.store which c)

/-- Truncate to nothing, append, flush: how every store is rewritten. -/
def rewrite (which : StoreId) (bytes : List M.Cell) (s : Node M) : Node M :=
  ((s.storeCall which (.truncateTo 0)).storeCall which (.append bytes)).storeCall which .flush

def persist (s : Node M) : Node M :=
  (s.rewrite .metaStore (M.encodeMeta ⟨s.currentTerm, s.votedFor⟩)).rewrite .logStore
    (M.encodeLog s.log)

def saveSnapshot (s : Node M) : Node M :=
  s.rewrite .snapshotStore (M.encodeSnap ⟨s.snapLastIndex, s.snapLastTerm, s.snapData⟩)

/-! ## Timers -/

def scheduleElectionTimeout (s : Node M) : Node M :=
  if s.timers.electionScheduled then s
  else
    let gen := s.timers.electionGeneration + 1
    ({ s with timers := { s.timers with
        electionGeneration := gen, electionScheduled := true } }).emit
      (.timer (.scheduleElection gen))

def cancelElectionTimeout (s : Node M) : Node M :=
  if s.timers.electionScheduled then
    ({ s with timers := { s.timers with
        electionGeneration := s.timers.electionGeneration + 1, electionScheduled := false } }).emit
      (.timer .cancelElection)
  else s

def scheduleHeartbeat (s : Node M) : Node M :=
  if s.timers.heartbeatScheduled then s
  else ({ s with timers := { s.timers with heartbeatScheduled := true } }).emit
    (.timer .scheduleHeartbeat)

def cancelHeartbeat (s : Node M) : Node M :=
  if s.timers.heartbeatScheduled then
    ({ s with timers := { s.timers with heartbeatScheduled := false } }).emit
      (.timer .cancelHeartbeat)
  else s

/-! ## Helpers -/

def quorum (s : Node M) : Nat := (s.peers.length + 1) / 2 + 1

def isLogUpToDate (s : Node M) (lastIdx : Nat) (lastTerm : Nat) : Bool :=
  if lastTerm ≠ s.log.lastTerm then lastTerm > s.log.lastTerm
  else lastIdx ≥ s.log.lastIndex

/-- Invoke a client callback; the lambda of `handle_client_request` replies. -/
def invoke (cb : Callback) (r : CmdResult) (s : Node M) : Node M :=
  let s := s.emit (.clientDone cb r)
  match cb.origin with
  | none => s
  | some (src, cr) => s.send src (.clientReply ⟨cr.clientId, cr.requestId, true, r, s.id⟩)

/-! ## Read-index bookkeeping -/

/-- Fire the reads that have quorum acks and whose index has been applied. -/
def drainPendingReads (s : Node M) : Node M :=
  let ready := s.pendingReads.filter fun pr =>
    pr.acks ≥ s.quorum ∧ s.lastApplied ≥ pr.readIndex
  let rest := s.pendingReads.filter fun pr =>
    ¬ (pr.acks ≥ s.quorum ∧ s.lastApplied ≥ pr.readIndex)
  { s with
    pendingReads := rest
    out := s.out ++ ready.flatMap fun pr =>
      [.timer (.cancelRead pr.round), .readDone pr.ticket true (s.kv.get pr.key)] }

def cancelPendingReads (s : Node M) : Node M :=
  { s with
    pendingReads := []
    out := s.out ++ s.pendingReads.flatMap fun pr =>
      [.timer (.cancelRead pr.round), .readDone pr.ticket false none] }

/-! ## Role transitions and replication -/

def becomeFollower (newTerm : Nat) (newLeader : Option NodeId) (s : Node M) : Node M :=
  let termChanged := decide (newTerm > s.currentTerm)
  let s := if termChanged then
      ({ s with currentTerm := newTerm, votedFor := none }).persist
    else s
  let s := if s.role ≠ .follower ∨ termChanged then
      let s := s.cancelPendingReads
      let s := { s with role := .follower }
      let s := s.cancelHeartbeat
      s.emit (.stateChange s.role s.currentTerm)
    else s
  let s := { s with leaderId := newLeader, votesReceived := ∅, voteCount := 0 }
  s.cancelElectionTimeout.scheduleElectionTimeout

def sendInstallSnapshot (peer : NodeId) (s : Node M) : Node M :=
  if s.snapLastIndex = 0 then s
  else s.send peer (.installSnapshot
    ⟨s.currentTerm, s.id, s.snapLastIndex, s.snapLastTerm, s.snapData⟩)

/-- The entries `replicate_to` cuts from the log after `prevIndex`.  In the source the sum is one of
64-bit words: this is the code's window as long as `prevIndex + max_entries_per_ae` is below
`2^64`.  Beyond that the code cuts off nothing. -/
def window (s : Node M) (prevIndex : Nat) : List LogEntry :=
  s.log.slice prevIndex (min (prevIndex + s.cfg.maxEntriesPerAe) s.log.lastIndex)

/-- `next_index_` after a window is sent: past its last entry, if it has one. -/
def nextAfter (peer : NodeId) (entries : List LogEntry) (s : Node M) : OrdMap NodeId Nat :=
  match entries.getLast? with
  | some e => s.nextIndex.insert peer (e.index + 1)
  | none => s.nextIndex

/-- The part of `replicate_to` after the terms are known. -/
def sendAppend (peer : NodeId) (prevIndex : Nat) (prevTerm : Nat) (s : Node M) : Node M :=
  let entries := s.window prevIndex
  let s := { s with nextIndex := s.nextAfter peer entries }
  s.send peer (.appendEntries ⟨s.currentTerm, s.id, prevIndex, prevTerm, entries, s.commitIndex⟩)

def replicateTo (peer : NodeId) (s : Node M) : Res M :=
  if s.role ≠ .leader then .ok s
  else
    -- `next_index_[peer]` creates the key if it is missing
    let s := { s with nextIndex := s.nextIndex.touch peer 0 }
    let next := s.nextIndex.getD peer 0
    if next ≤ s.snapLastIndex then .ok (s.sendInstallSnapshot peer)
    else
      let prevIndex := next - 1
      if prevIndex > 0 then
        match s.log.termAt prevIndex with
        | none => .error (outOfRange, s)
        | some t => .ok (s.sendAppend peer prevIndex (if s.log.contains prevIndex t then t else 0))
      else .ok (s.sendAppend peer prevIndex 0)

def replicateAll (s : Node M) : Res M := s.peers.foldlM (fun s peer => s.replicateTo peer) s

/-- A fresh map with the value `v` for every peer. -/
def fillIndex (peers : List NodeId) (v : Nat) : OrdMap NodeId Nat :=
  peers.foldl (fun m p => m.insert p v) OrdMap.empty

/-- `become_leader` up to `replicate_all`. -/
def takeOffice (s : Node M) : Node M :=
  let s := { s with role := .leader, leaderId := some s.id, votesReceived := ∅, voteCount := 0 }
  let s := s.cancelElectionTimeout
  let last := s.log.lastIndex
  let s := { s with
    nextIndex := (fillIndex s.peers (last + 1)).insert s.id (last + 1)
    matchIndex := (fillIndex s.peers 0).insert s.id last }
  (s.emit (.stateChange s.role s.currentTerm)).scheduleHeartbeat

def becomeLeader (s : Node M) : Res M :=
  if s.role = .leader then .ok s else s.takeOffice.replicateAll

/-- `become_candidate` up to the count of votes. -/
def standForElection (s : Node M) : Node M :=
  let s := { s with
    currentTerm := s.currentTerm + 1
    role := .candidate
    votedFor := some s.id
    votesReceived := ∅
    voteCount := 1
    electionTerm := s.currentTerm + 1
    leaderId := none }
  let s := s.persist.emit (.stateChange .candidate s.currentTerm)
  let s := s.sendAll s.peers (.requestVote
    ⟨s.currentTerm, s.id, s.log.lastIndex, s.log.lastTerm⟩)
  s.cancelElectionTimeout.scheduleElectionTimeout

def becomeCandidate (s : Node M) : Res M :=
  if !s.running then .ok s
  else
    let s := s.standForElection
    if s.voteCount ≥ s.quorum then s.becomeLeader else .ok s

/-! ## Snapshots, membership, applying -/

def takeSnapshot (s : Node M) : Res M :=
  if s.lastApplied ≤ s.snapLastIndex then .ok s
  else match s.log.termAt s.lastApplied with
    | none => .error (outOfRange, s)
    | some snapTerm =>
      let s := { s with
        snapData := M.encodeKv s.kv
        snapLastIndex := s.lastApplied
        snapLastTerm := snapTerm
        log := s.log.setSnapshot s.lastApplied snapTerm }
      .ok s.saveSnapshot.persist

/-- `peers_` gains `newId`; the leader starts its bookkeeping for it. -/
def joinPeer (newId : NodeId) (s : Node M) : Node M :=
  let s := { s with peers := (s.peers ++ [newId]).insertionSort (· ≤ ·) }
  if s.role = .leader then
    { s with
      nextIndex := s.nextIndex.insert newId (s.log.lastIndex + 1)
      matchIndex := s.matchIndex.insert newId 0 }
  else s

def leavePeer (remId : NodeId) (s : Node M) : Node M :=
  { s with
    peers := s.peers.filter (· ≠ remId)
    nextIndex := s.nextIndex.erase remId
    matchIndex := s.matchIndex.erase remId }

def applyMembershipChange (cmd : Command) (s : Node M) : Res M :=
  match cmd with
  | .addServer newId =>
    if newId ∉ s.peers ∧ newId ≠ s.id then
      let s := s.joinPeer newId
      if s.role = .leader then s.replicateTo newId else .ok s
    else .ok s
  | .removeServer remId =>
    let s := s.leavePeer remId
    if remId = s.id ∧ s.role = .leader then .ok (s.becomeFollower s.currentTerm none) else .ok s
  | _ => .ok s

/-- `kv_.apply` on the entry at `last_applied_`. -/
def applyKv (entry : LogEntry) (s : Node M) : Node M :=
  let s' := { s with kv := (s.kv.apply entry.cmd).1, applying := some (entry, s.kv) }
  s'.emit (.applied s.lastApplied entry s.kv)

/-- Answer the client waiting for `last_applied_`, if there is one. -/
def answer (result : CmdResult) (s : Node M) : Node M :=
  match s.pendingClients.find? s.lastApplied with
  | none => { s with applying := none }
  | some cb =>
    { s.invoke cb result with
      pendingClients := s.pendingClients.erase s.lastApplied
      applying := none }

/-- One round of the loop of `apply_committed_entries`. -/
def applyOne (s : Node M) : Res M :=
  let s := { s with lastApplied := s.lastApplied + 1 }
  if s.lastApplied ≤ s.log.baseIndex then .ok s
  else match s.log.entryAt s.lastApplied with
    | none => .error (outOfRange, s)
    | some entry => do
        let result := (s.kv.apply entry.cmd).2
        let s := s.applyKv entry
        let s ← if entry.cmd.isConfig then do
            let s ← s.applyMembershipChange entry.cmd
            pure { s with configChangePending := false }
          else pure s
        pure (s.answer result)

/-- The loop of `apply_committed_entries`: nothing in it moves `commit_index_`. -/
def applyLoop : Nat → Node M → Res M
  | 0, s => .ok s
  | k + 1, s => do
      let s ← s.applyOne
      applyLoop k s

/-- The end of `apply_committed_entries`: waiting reads, and a snapshot if it is due. -/
def afterApply (s : Node M) : Res M :=
  let s := s.drainPendingReads
  if s.cfg.snapshotThreshold > 0 ∧ s.log.size > s.cfg.snapshotThreshold then s.takeSnapshot
  else .ok s

def applyCommittedEntries (s : Node M) : Res M := do
  let s ← applyLoop (s.commitIndex - s.lastApplied) s
  s.afterApply

/-- How many match indices reach `n`. -/
def matchCount (s : Node M) (n : Nat) : Nat :=
  (s.matchIndex.toList.filter fun p => decide (p.2 ≥ n)).length

/-- The loop of `maybe_advance_commit_index`, from `n` down.  Above the base and up
to `last_index()`, `log_.at(n)` does not throw. -/
def advanceFrom : Nat → Node M → Res M
  | 0, s => .ok s
  | k + 1, s =>
    let n := k + 1
    if ¬ n > s.commitIndex then .ok s
    else if n ≤ s.log.baseIndex then .ok s
    else if !s.cfg.bugCommitPriorTerm ∧
        (s.log.entryAt n).map LogEntry.term ≠ some s.currentTerm then advanceFrom k s
    else if s.matchCount n ≥ s.quorum then
      applyCommittedEntries { s with commitIndex := n }
    else advanceFrom k s

def maybeAdvanceCommitIndex (s : Node M) : Res M := advanceFrom s.log.lastIndex s

/-! ## Client interface -/

/-- `submit` on a leader that takes the command, up to `replicate_all`. -/
def placeEntry (cmd : Command) (cb : Callback) (s : Node M) : Node M :=
  let s := if cmd.isConfig then { s with configChangePending := true } else s
  let newIndex := s.log.lastIndex + 1
  let entry : LogEntry := ⟨s.currentTerm, newIndex, cmd⟩
  let s := ({ s with log := s.log.append entry }).persist
  let s := { s with
    matchIndex := s.matchIndex.insert s.id newIndex
    nextIndex := s.nextIndex.insert s.id (newIndex + 1)
    pendingClients := s.pendingClients.insert newIndex cb }
  s.emit (.placed cb entry)

/-- `submit`; `request_id` is not used, and `client_id` is stored but never read. -/
def submit (_clientId _requestId : Nat) (cmd : Command) (cb : Callback) (s : Node M) :
    Except (String × Node M) (Bool × Node M) := do
  if !s.running ∨ s.role ≠ .leader then return (false, s)
  if cmd.isConfig ∧ s.configChangePending then return (false, s)
  let s ← (s.placeEntry cmd cb).replicateAll
  let s ← s.maybeAdvanceCommitIndex
  return (true, s)

def localGet (s : Node M) (key : Str) : Option Str := s.kv.get key

/-- `read_index` with peers: register the read and ask them. -/
def beginRead (key : Str) (ticket : Nat) (s : Node M) : Node M :=
  let round := s.nextReadRound
  let s := { s with
    nextReadRound := round + 1
    pendingReads := s.pendingReads ++ [(⟨round, s.commitIndex, key, ticket, 1⟩ : PendingRead)] }
  let s := (s.emit (.readBegun ticket s.commitIndex)).emit (.timer (.scheduleRead round))
  s.sendAll s.peers (.readIndexRequest ⟨s.currentTerm, s.id, round⟩)

/-- `read_index` on a one-node cluster: the node is its own quorum. -/
def readNow (key : Str) (ticket : Nat) (s : Node M) : Node M :=
  (s.emit (.readBegun ticket s.commitIndex)).emit (.readDone ticket true (s.kv.get key))

def readIndex (key : Str) (ticket : Nat) (s : Node M) : Bool × Node M :=
  if !s.running ∨ s.role ≠ .leader then (false, s)
  else if s.peers.isEmpty then (true, s.readNow key ticket)
  else (true, s.beginRead key ticket)

/-- The callback of the read timer. -/
def readTimeout (round : Nat) (s : Node M) : Node M :=
  match s.pendingReads.find? fun pr => pr.round == round with
  | none => s
  | some pr =>
    ({ s with pendingReads := s.pendingReads.eraseP fun pr => pr.round == round }).emit
      (.readDone pr.ticket false none)

/-! ## Message handlers -/

/-- The vote of `handle_request_vote`. -/
def grantVote (candidate : NodeId) (s : Node M) : Node M :=
  ({ s with votedFor := some candidate }).persist.cancelElectionTimeout.scheduleElectionTimeout

/-- Whether a request of the current term gets the vote. -/
def grants (rv : RequestVote) (s : Node M) : Bool :=
  rv.term ≥ s.currentTerm
    && (s.votedFor.isNone || s.votedFor == some rv.candidateId)
    && (s.cfg.bugSkipVoteUptodate || s.isLogUpToDate rv.lastLogIndex rv.lastLogTerm)

def handleRequestVote (src : NodeId) (rv : RequestVote) (s : Node M) : Node M :=
  let s := if rv.term > s.currentTerm then s.becomeFollower rv.term none else s
  let grant := s.grants rv
  let s := if grant then s.grantVote rv.candidateId else s
  s.send src (.requestVoteReply ⟨s.currentTerm, grant⟩)

def countVote (src : NodeId) (s : Node M) : Node M :=
  { s with
    votesReceived := insert src s.votesReceived
    voteCount := (insert src s.votesReceived).card + 1 }

def handleRequestVoteReply (src : NodeId) (rvr : RequestVoteReply) (s : Node M) : Res M :=
  if s.role ≠ .candidate then .ok s
  else if rvr.term > s.currentTerm then .ok (s.becomeFollower rvr.term none)
  else if rvr.term < s.currentTerm ∨ rvr.term ≠ s.electionTerm then .ok s
  else if rvr.voteGranted then
    let s := s.countVote src
    if s.voteCount ≥ s.quorum then s.becomeLeader else .ok s
  else .ok s

/-- The loop over the entries of an `AppendEntries`. -/
def appendLoop : List LogEntry → RaftLog → RaftLog
  | [], l => l
  | e :: es, l =>
    if e.index ≤ l.lastIndex then
      if e.index ≤ l.baseIndex then appendLoop es l
      else if (l.entryAt e.index).map LogEntry.term ≠ some e.term then
        appendLoop es ((l.truncateFrom e.index).append e)
      else appendLoop es l
    else appendLoop es (l.append e)

/-- The conflict fields of a rejection by a log that does not contain `prev`. -/
def conflict (l : RaftLog) (prev : Nat) : Nat × Nat :=
  if prev > l.lastIndex then (l.lastIndex + 1, 0)
  else if prev > l.baseIndex then
    let ct := ((l.entryAt prev).map LogEntry.term).getD 0
    let ci := l.lastIndexForTerm ct
    (if ci = 0 then 1 else ci, ct)
  else (l.baseIndex + 1, 0)

/-- Take in the entries of `ae` and the commit index it announces. -/
def acceptEntries (ae : AppendEntries) (s : Node M) : Node M :=
  let s := ({ s with log := appendLoop ae.entries s.log }).persist
  let s := if ae.leaderCommit > s.commitIndex then
      { s with commitIndex := min ae.leaderCommit s.log.lastIndex }
    else s
  s.emit (.accepted ae)

def handleAppendEntries (src : NodeId) (ae : AppendEntries) (s : Node M) : Res M :=
  -- the term of a rejection is the one the node had before it saw the message
  let replyTerm := s.currentTerm
  if ae.term < s.currentTerm then
    .ok (s.send src (.appendEntriesReply ⟨replyTerm, false, 0, 0⟩))
  else
    let s := if ae.term > s.currentTerm then s.becomeFollower ae.term (some src)
      else s.becomeFollower s.currentTerm (some src)
    if !s.log.contains ae.prevLogIndex ae.prevLogTerm then
      let c := conflict s.log ae.prevLogIndex
      .ok (s.send src (.appendEntriesReply ⟨replyTerm, false, c.1, c.2⟩))
    else do
      let raise := decide (ae.leaderCommit > s.commitIndex)
      let s := s.acceptEntries ae
      let s ← if raise then s.applyCommittedEntries else pure s
      pure (s.send src (.appendEntriesReply ⟨s.currentTerm, true, 0, 0⟩))

/-- The bookkeeping of a success reply: the match is inferred from `next_index_`. -/
def creditSuccess (src : NodeId) (s : Node M) : Node M :=
  let next := s.nextIndex.touch src 0
  let newMatch := pred64 (next.getD src 0)
  let m := max (s.matchIndex.getD src 0) newMatch
  { s with
    matchIndex := s.matchIndex.insert src m
    nextIndex := next.insert src (succ64 m) }

/-- The bookkeeping of a rejection. -/
def backtrack (src : NodeId) (aer : AppendEntriesReply) (s : Node M) : Node M :=
  let next := if aer.conflictTerm = 0 then aer.conflictIndex
    else
      let lastInTerm := s.log.lastIndexForTerm aer.conflictTerm
      if lastInTerm > 0 then lastInTerm + 1 else aer.conflictIndex
  let next := if next < 1 then 1 else next
  { s with nextIndex := s.nextIndex.insert src next }

def handleAppendEntriesReply (src : NodeId) (aer : AppendEntriesReply) (s : Node M) : Res M :=
  if s.role ≠ .leader then .ok s
  else if aer.term > s.currentTerm then .ok (s.becomeFollower aer.term none)
  else if aer.term < s.currentTerm then .ok s
  else if aer.success then (s.creditSuccess src).maybeAdvanceCommitIndex
  else (s.backtrack src aer).replicateTo src

/-- The first writes of `handle_install_snapshot`, before the data is decoded. -/
def adoptSnapshot (is : InstallSnapshot M.Blob) (s : Node M) : Node M :=
  { s with
    snapLastIndex := is.lastIncludedIndex
    snapLastTerm := is.lastIncludedTerm
    snapData := is.data
    kv := .empty }

/-- The rest of `handle_install_snapshot`, once the data is decoded. -/
def installKv (kv : KvStore) (s : Node M) : Node M :=
  let s := { s with
    kv := kv
    log := s.log.setSnapshot s.snapLastIndex s.snapLastTerm
    commitIndex := max s.commitIndex s.snapLastIndex
    lastApplied := max s.lastApplied s.snapLastIndex }
  s.saveSnapshot.persist

def handleInstallSnapshot (src : NodeId) (is : InstallSnapshot M.Blob) (s : Node M) : Res M :=
  if is.term < s.currentTerm then .ok s
  else
    let s := if is.term > s.currentTerm then s.becomeFollower is.term (some src)
      else s.becomeFollower s.currentTerm (some src)
    if is.lastIncludedIndex ≤ s.snapLastIndex then
      .ok (s.send src (.installSnapshotReply ⟨s.currentTerm, s.snapLastIndex⟩))
    else
      let s := s.adoptSnapshot is
      match M.decodeKv is.data with
      | .error e => .error (e, s)
      | .ok kv =>
        let s := s.installKv kv
        .ok (s.send src (.installSnapshotReply ⟨s.currentTerm, s.snapLastIndex⟩))

/-- The bookkeeping of a snapshot reply, whatever its term. -/
def creditSnapshot (src : NodeId) (isr : InstallSnapshotReply) (s : Node M) : Node M :=
  let m := max (s.matchIndex.getD src 0) isr.lastIncludedIndex
  { s with
    matchIndex := s.matchIndex.insert src m
    nextIndex := s.nextIndex.insert src (succ64 m) }

def handleInstallSnapshotReply (src : NodeId) (isr : InstallSnapshotReply) (s : Node M) : Res M :=
  if s.role ≠ .leader then .ok s
  else if isr.term > s.currentTerm then .ok (s.becomeFollower isr.term none)
  else (s.creditSnapshot src isr).maybeAdvanceCommitIndex

def handleReadIndexRequest (src : NodeId) (req : ReadIndexRequest) (s : Node M) : Node M :=
  if req.term < s.currentTerm then s
  else
    let s := if req.term > s.currentTerm then s.becomeFollower req.term (some src)
      else s.becomeFollower s.currentTerm (some src)
    s.send src (.readIndexReply ⟨s.currentTerm, req.round⟩)

/-- One more ack for the first pending read of that round. -/
def ackRead (round : Nat) : List PendingRead → List PendingRead
  | [] => []
  | pr :: prs =>
    if pr.round = round then { pr with acks := pr.acks + 1 } :: prs else pr :: ackRead round prs

def handleReadIndexReply (_src : NodeId) (rep : ReadIndexReply) (s : Node M) : Node M :=
  if rep.term > s.currentTerm then s.becomeFollower rep.term none
  else if s.role ≠ .leader ∨ rep.term ≠ s.currentTerm then s
  else
    let s := { s with pendingReads := ackRead rep.round s.pendingReads }
    s.drainPendingReads

def handleClientRequest (src : NodeId) (cr : ClientRequest) (ticket : Nat) (s : Node M) : Res M :=
  if s.role ≠ .leader then
    .ok (s.send src (.clientReply ⟨cr.clientId, cr.requestId, false,
      ⟨false, Str.lit "", Str.lit "not_leader"⟩, s.leaderId.getD 0⟩))
  else do
    let r ← s.submit cr.clientId cr.requestId cr.cmd ⟨ticket, some (src, cr)⟩
    pure r.2

/-- `on_message`, the exception handler apart. -/
def dispatch (src : NodeId) (m : Msg M.Blob) (ticket : Nat) (s : Node M) : Res M :=
  match m with
  | .requestVote rv => .ok (s.handleRequestVote src rv)
  | .requestVoteReply rvr => s.handleRequestVoteReply src rvr
  | .appendEntries ae => s.handleAppendEntries src ae
  | .appendEntriesReply aer => s.handleAppendEntriesReply src aer
  | .clientRequest cr => s.handleClientRequest src cr ticket
  | .installSnapshot is => s.handleInstallSnapshot src is
  | .installSnapshotReply isr => s.handleInstallSnapshotReply src isr
  | .readIndexRequest req => .ok (s.handleReadIndexRequest src req)
  | .readIndexReply rep => .ok (s.handleReadIndexReply src rep)
  | .clientReply _ => .ok s

def onMessage (src : NodeId) (m : Msg M.Blob) (ticket : Nat) (s : Node M) : Node M :=
  if !s.running then s else (s.dispatch src m ticket).state

/-! ## Timer callbacks -/

def onElectionTimeout (s : Node M) : Res M :=
  if s.role = .leader then .ok s else s.becomeCandidate

/-- The callback scheduled with generation `gen`. -/
def electionTimer (gen : Nat) (s : Node M) : Res M :=
  if gen ≠ s.timers.electionGeneration then .ok s
  else
    let s := { s with timers := { s.timers with electionScheduled := false } }
    if !s.running then .ok s else s.onElectionTimeout

def onHeartbeat (s : Node M) : Res M :=
  if s.role ≠ .leader then .ok s
  else do
    let s ← s.replicateAll
    pure s.scheduleHeartbeat

def heartbeatTimer (s : Node M) : Res M :=
  let s := { s with timers := { s.timers with heartbeatScheduled := false } }
  if !s.running then .ok s else s.onHeartbeat

/-! ## Lifecycle -/

/-- The constructor: a node with empty stores. -/
def init (M : Medium) (id : NodeId) (peers : List NodeId) (cfg : RaftConfig) : Node M where
  id := id
  peers := peers.insertionSort (· ≤ ·)
  cfg := cfg
  running := false
  currentTerm := 0
  votedFor := none
  log := .empty
  metaStore := .empty
  logStore := .empty
  snapshotStore := .empty
  snapLastIndex := 0
  snapLastTerm := 0
  snapData := M.noBlob
  role := .follower
  commitIndex := 0
  lastApplied := 0
  leaderId := none
  kv := .empty
  votesReceived := ∅
  nextIndex := .empty
  matchIndex := .empty
  pendingClients := .empty
  pendingReads := []
  nextReadRound := 1
  timers := ⟨false, 0, false⟩
  electionTerm := 0
  voteCount := 0
  configChangePending := false
  applying := none
  out := []

def loadSnapshot (s : Node M) : Res M :=
  if s.snapshotStore.durableSize = 0 then .ok s
  else match M.decodeSnap s.snapshotStore.readDurable with
    | .error e => .error (e, s)
    | .ok sn =>
      let s := { s with
        snapLastIndex := sn.lastIndex
        snapLastTerm := sn.lastTerm
        snapData := sn.data
        kv := .empty }
      match M.decodeKv sn.data with
      | .error e => .error (e, s)
      | .ok kv => .ok { s with
          kv := kv
          commitIndex := sn.lastIndex
          lastApplied := sn.lastIndex
          log := s.log.setSnapshot sn.lastIndex sn.lastTerm }

def loadMeta (s : Node M) : Res M :=
  if s.metaStore.durableSize > 0 then
    match M.decodeMeta s.metaStore.readDurable with
    | .error e => .error (e, s)
    | .ok m => .ok { s with
        currentTerm := m.currentTerm
        votedFor := if m.votedFor.isSome then m.votedFor else s.votedFor }
  else .ok s

def loadLog (s : Node M) : Res M :=
  if s.logStore.durableSize > 0 then
    match M.decodeLog s.logStore.readDurable with
    | .error e => .error (e, s)
    | .ok l => .ok { s with log := l }
  else .ok s

def start (s : Node M) : Res M := do
  let s := { s with running := true }
  let s ← s.loadSnapshot
  let s ← s.loadMeta
  let s ← s.loadLog
  let s ← s.applyCommittedEntries
  pure s.scheduleElectionTimeout

/-- The result `crash` gives to every waiting client. -/
def nodeCrashed : CmdResult := ⟨false, Str.lit "", Str.lit "node_crashed"⟩

/-- The first part of `crash`: stop, lose what is not flushed, forget the volatile state. -/
def stop (s : Node M) : Node M :=
  { s with
    running := false
    timers := { s.timers with electionScheduled := false, heartbeatScheduled := false }
    metaStore := s.metaStore.crash
    logStore := s.logStore.crash
    snapshotStore := s.snapshotStore.crash
    role := .follower
    commitIndex := s.snapLastIndex
    lastApplied := s.snapLastIndex
    leaderId := none
    votesReceived := ∅
    nextIndex := .empty
    matchIndex := .empty
    voteCount := 0
    electionTerm := 0
    configChangePending := false
    kv := .empty }

/-- The last part of `crash`: answer the clients and drop the reads. -/
def dropClients (s : Node M) : Node M :=
  let s := s.pendingClients.toList.foldl (fun s p => s.invoke p.2 nodeCrashed) s
  { s with
    pendingClients := .empty
    pendingReads := []
    out := s.out ++ s.pendingReads.map fun pr => .timer (.cancelRead pr.round) }

def crash (s : Node M) : Res M :=
  let s := s.stop
  if M.blobEmpty s.snapData then .ok s.dropClients
  else match M.decodeKv s.snapData with
    | .error e => .error (e, s)
    | .ok kv => .ok ({ s with kv := kv }).dropClients

def restart (s : Node M) : Res M :=
  ({ s with currentTerm := 0, votedFor := none, log := .empty, kv := .empty }).start

end Node

/-! ## Inputs -/

/-- Everything that can happen to a node. -/
inductive Input (M : Medium) where
  | message (src : NodeId) (m : Msg M.Blob)
  | electionTimer (gen : Nat)
  | heartbeatTimer
  | readTimer (round : Nat)
  | submit (clientId requestId : Nat) (cmd : Command)
  | readIndex (key : Str)
  | crash
  | restart

/-- One step of a node, `ticket` naming the callbacks it creates.  `crash` and
`restart` alternate. -/
def Node.handle {M : Medium} (ticket : Nat) (s : Node M) : Input M → Node M
  | .message src m => s.onMessage src m ticket
  | .electionTimer gen => (s.electionTimer gen).state
  | .heartbeatTimer => s.heartbeatTimer.state
  | .readTimer round => s.readTimeout round
  | .submit clientId requestId cmd =>
    match s.submit clientId requestId cmd ⟨ticket, none⟩ with
    | .ok (_, s) => s
    | .error (_, s) => s
  | .readIndex key => (s.readIndex key ticket).2
  | .crash => if s.running then s.crash.state else s
  | .restart => if s.running then s else s.restart.state

/-- The exception that leaves the node on this step; none leaves `on_message`. -/
def Node.raised {M : Medium} (ticket : Nat) (s : Node M) : Input M → Option String
  | .electionTimer gen => (s.electionTimer gen).exception
  | .heartbeatTimer => s.heartbeatTimer.exception
  | .submit clientId requestId cmd =>
    match s.submit clientId requestId cmd ⟨ticket, none⟩ with
    | .ok _ => none
    | .error (e, _) => some e
  | .crash => if s.running then s.crash.exception else none
  | .restart => if s.running then none else s.restart.exception
  | .message _ _ | .readTimer _ | .readIndex _ => none

end SimKV
