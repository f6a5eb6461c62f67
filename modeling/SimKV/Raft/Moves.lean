/-
# What a node can do, one move at a time

A handler of `SimKV.Raft.Node` is a short sequence of *moves*: give up a role,
vote, take in entries, apply one of them, and so on.  `Move n₀ ticket inp s s'`
says that a node which began the step in state `n₀`, on input `inp`, may go from
`s` to `s'` inside the step.  Each constructor lists the guards the code has
established at that point and the state it leaves, in closed form; what no
invariant looks at (timers, state-change callbacks) is left open.

A move is as large as the code's own critical section: a change of durable state
includes the rewrite of the stores, a change of term includes the loss of the
role, so every invariant of the development can hold between moves.  That every
handler is a sequence of moves is proved in `SimKV.Raft.Handlers`; an invariant
is then a case analysis here, and no handler is unfolded again.
-/
import SimKV.Raft.Node
import Mathlib.Logic.Relation

namespace SimKV

/-! ## Quiet effects -/

/-- Store calls, timers, state-change callbacks and cancelled reads. -/
def Effect.quiet {M : Medium} : Effect M → Bool
  | .store _ _ | .timer _ | .stateChange _ _ | .readDone _ false _ => true
  | _ => false

/-- All effects in the list are quiet. -/
def Quiet {M : Medium} (es : List (Effect M)) : Prop := ∀ e ∈ es, e.quiet = true

namespace Quiet

variable {M : Medium}

theorem nil : Quiet ([] : List (Effect M)) := by
  intro e he
  simp at he

theorem append {es es' : List (Effect M)} (h : Quiet es) (h' : Quiet es') : Quiet (es ++ es') := by
  intro e he
  rcases List.mem_append.mp he with he | he
  · exact h e he
  · exact h' e he

theorem singleton {e : Effect M} (h : e.quiet = true) : Quiet [e] := by
  intro e' he
  rw [List.mem_singleton.mp he]
  exact h

end Quiet

/-! ## Store calls -/

section StoreCalls

variable {M : Medium}

/-- The call on a store, if the effect is one. -/
def Effect.storeCall? : Effect M → Option (StoreId × StoreCall M.Cell)
  | .store which c => some (which, c)
  | _ => none

/-- The store calls among the effects, in order. -/
def storeCalls (es : List (Effect M)) : List (StoreId × StoreCall M.Cell) :=
  es.filterMap Effect.storeCall?

@[simp] theorem storeCalls_append (es es' : List (Effect M)) :
    storeCalls (es ++ es') = storeCalls es ++ storeCalls es' := List.filterMap_append

/-- There is no store call among the effects. -/
def Unstored (es : List (Effect M)) : Prop := storeCalls es = []

theorem Unstored.append {es es' : List (Effect M)} (h : Unstored es) (h' : Unstored es') :
    Unstored (es ++ es') := by
  rw [Unstored, storeCalls_append, h, h', List.append_nil]

theorem Unstored.singleton {e : Effect M} (h : e.storeCall? = none) : Unstored [e] :=
  List.filterMap_eq_nil_iff.mpr fun e' he => by rw [List.mem_singleton.mp he, h]

theorem unstored_of_forall {es : List (Effect M)} (h : ∀ e ∈ es, e.storeCall? = none) :
    Unstored es := List.filterMap_eq_nil_iff.mpr h

end StoreCalls

namespace Node

variable {M : Medium}

/-! ## Closed forms -/

/-- `persist` in closed form: both stores hold exactly the current state. -/
def persisted (es : List (Effect M)) (s : Node M) : Node M :=
  { s with
    metaStore := .holding (M.encodeMeta ⟨s.currentTerm, s.votedFor⟩)
    logStore := .holding (M.encodeLog s.log)
    out := s.out ++ es }

/-- The store calls of a rewrite. -/
def rewriteCalls (which : StoreId) (bytes : List M.Cell) : List (Effect M) :=
  [.store which (.truncateTo 0), .store which (.append bytes), .store which .flush]

/-- The store calls of `persist`. -/
def persistCalls (s : Node M) : List (Effect M) :=
  rewriteCalls .metaStore (M.encodeMeta ⟨s.currentTerm, s.votedFor⟩) ++
    rewriteCalls .logStore (M.encodeLog s.log)

/-- The store calls of `save_snapshot`. -/
def snapshotCalls (s : Node M) : List (Effect M) :=
  rewriteCalls .snapshotStore (M.encodeSnap ⟨s.snapLastIndex, s.snapLastTerm, s.snapData⟩)

theorem quiet_rewriteCalls (which : StoreId) (bytes : List M.Cell) :
    Quiet (rewriteCalls which bytes) := by
  intro e he
  simp only [rewriteCalls, List.mem_cons, List.not_mem_nil, or_false] at he
  rcases he with rfl | rfl | rfl <;> rfl

theorem persist_eq (s : Node M) : s.persist = s.persisted s.persistCalls := by
  simp [persist, rewrite, storeCall, emit, persisted, persistCalls, rewriteCalls,
    DurableStore.call]

theorem quiet_persistCalls (s : Node M) : Quiet s.persistCalls :=
  (quiet_rewriteCalls _ _).append (quiet_rewriteCalls _ _)

theorem saveSnapshot_eq (s : Node M) : s.saveSnapshot =
    { s with
      snapshotStore := .holding (M.encodeSnap ⟨s.snapLastIndex, s.snapLastTerm, s.snapData⟩)
      out := s.out ++ s.snapshotCalls } := by
  simp [saveSnapshot, rewrite, storeCall, emit, snapshotCalls, rewriteCalls, DurableStore.call]

theorem quiet_snapshotCalls (s : Node M) : Quiet s.snapshotCalls := quiet_rewriteCalls _ _

/-- The effects hold exactly the store calls of `persist`. -/
def Persists (s : Node M) (es : List (Effect M)) : Prop := storeCalls es = storeCalls s.persistCalls

/-- The effects hold exactly the store calls of `save_snapshot` and `persist`. -/
def Saves (s : Node M) (es : List (Effect M)) : Prop :=
  storeCalls es = storeCalls (s.snapshotCalls ++ s.persistCalls)

theorem Persists.append {s : Node M} {es : List (Effect M)} (h : Unstored es) :
    s.Persists (s.persistCalls ++ es) := by
  rw [Persists, storeCalls_append, h, List.append_nil]

/-- `s'` differs from `s` in timers and quiet effects only. -/
def QuietStep (s s' : Node M) : Prop :=
  ∃ tm es, Quiet es ∧ Unstored es ∧ s' = { s with timers := tm, out := s.out ++ es }

theorem QuietStep.refl (s : Node M) : QuietStep s s :=
  ⟨s.timers, [], Quiet.nil, rfl, by simp⟩

theorem QuietStep.trans {s s' s'' : Node M} (h : QuietStep s s') (h' : QuietStep s' s'') :
    QuietStep s s'' := by
  obtain ⟨tm, es, hq, hst, rfl⟩ := h
  obtain ⟨tm', es', hq', hst', rfl⟩ := h'
  exact ⟨tm', es ++ es', hq.append hq', hst.append hst', by simp⟩

theorem quietStep_scheduleElection (s : Node M) : QuietStep s s.scheduleElectionTimeout := by
  unfold scheduleElectionTimeout
  split
  · exact QuietStep.refl s
  · exact ⟨_, [_], Quiet.singleton rfl, Unstored.singleton rfl, rfl⟩

theorem quietStep_cancelElection (s : Node M) : QuietStep s s.cancelElectionTimeout := by
  unfold cancelElectionTimeout
  split
  · exact ⟨_, [_], Quiet.singleton rfl, Unstored.singleton rfl, rfl⟩
  · exact QuietStep.refl s

theorem quietStep_scheduleHeartbeat (s : Node M) : QuietStep s s.scheduleHeartbeat := by
  unfold scheduleHeartbeat
  split
  · exact QuietStep.refl s
  · exact ⟨_, [_], Quiet.singleton rfl, Unstored.singleton rfl, rfl⟩

theorem quietStep_cancelHeartbeat (s : Node M) : QuietStep s s.cancelHeartbeat := by
  unfold cancelHeartbeat
  split
  · exact ⟨_, [_], Quiet.singleton rfl, Unstored.singleton rfl, rfl⟩
  · exact QuietStep.refl s

theorem quietStep_resetElection (s : Node M) :
    QuietStep s s.cancelElectionTimeout.scheduleElectionTimeout :=
  (quietStep_cancelElection s).trans (quietStep_scheduleElection _)

/-! ## Reboot -/

/-- `restart` up to `apply_committed_entries`. -/
def reboot (s : Node M) : Res M := do
  let s := { s with
    currentTerm := 0, votedFor := none, log := .empty, kv := .empty, running := true }
  let s ← s.loadSnapshot
  let s ← s.loadMeta
  s.loadLog

/-! ## Guards that several moves share -/

/-- On this input the node gets the last vote it needs. -/
def wins (s : Node M) : Input M → Bool
  | .electionTimer gen =>
    gen = s.timers.electionGeneration && s.running && s.role ≠ .leader && decide (s.quorum ≤ 1)
  | .message src (.requestVoteReply rvr) =>
    s.role = .candidate && rvr.voteGranted && rvr.term = s.currentTerm &&
      decide (s.quorum ≤ (s.countVote src).voteCount)
  | _ => false

/-- Of what is logged, committed and applied, `s'` has exactly what `s` has. -/
structure Untouched (s s' : Node M) : Prop where
  log : s'.log = s.log
  commitIndex : s'.commitIndex = s.commitIndex
  lastApplied : s'.lastApplied = s.lastApplied
  applying : s'.applying = s.applying
  configChangePending : s'.configChangePending = s.configChangePending

/-- The peers reflect the membership command. -/
def Reflects (s : Node M) : Command → Prop
  | .addServer newId => newId = s.id ∨ newId ∈ s.peers
  | .removeServer remId => remId ∉ s.peers
  | _ => True

theorem Reflects.of_eq {s s' : Node M} {cmd : Command} (h : s.Reflects cmd) (hid : s'.id = s.id)
    (hp : s'.peers = s.peers) : s'.Reflects cmd := by
  unfold Reflects at h ⊢
  rw [hid, hp]
  exact h

end Node

/-- Whom a leader that began its step in `n₀` keeps books for when it writes to `peer`: a peer, or
a node whose rejection it is handling. -/
def Booked {M : Medium} (n₀ : Node M) (s : Node M) (inp : Input M) (peer : NodeId) : Prop :=
  peer ∈ s.peers ∨ (s.peers = n₀.peers ∧ n₀.role = .leader ∧
    ∃ aer, inp = .message peer (.appendEntriesReply aer) ∧ aer.term = n₀.currentTerm)

/-- Who asks a node to place an entry, and for which callback. -/
def Asks {M : Medium} (t : Nat) (cmd : Command) (cb : Callback) (inp : Input M) : Prop :=
  (∃ cid rid, inp = .submit cid rid cmd ∧ cb = ⟨t, none⟩) ∨
    ∃ src cr, inp = .message src (.clientRequest cr) ∧ cr.cmd = cmd ∧ cb = ⟨t, some (src, cr)⟩

/-! ## The moves -/

open Node in
/-- One move of a node inside a step that began in `n₀` on input `inp`. -/
inductive Move {M : Medium} (n₀ : Node M) (ticket : Nat) (inp : Input M) :
    Node M → Node M → Prop
  /-- Timers and callbacks. -/
  | quiet (s : Node M) (tm : Timers) (es : List (Effect M)) (hq : Quiet es) (hst : Unstored es) :
      Move n₀ ticket inp s { s with timers := tm, out := s.out ++ es }
  /-- `become_follower` of a later term. -/
  | newTerm (s : Node M) (T : Nat) (l : Option NodeId) (tm : Timers) (es : List (Effect M))
      (hq : Quiet es) (hT : s.currentTerm < T) (h₀ : s = n₀)
      (hst : ({ s with currentTerm := T, votedFor := none } : Node M).Persists es) :
      Move n₀ ticket inp s
        (({ s with
          currentTerm := T, votedFor := none, role := .follower, leaderId := l
          votesReceived := ∅, voteCount := 0, pendingReads := [], timers := tm }).persisted es)
  /-- `become_follower` of the current term: at the start of a step, or by a leader that has just
  applied its own removal. -/
  | follow (s : Node M) (l : Option NodeId) (tm : Timers) (prs : List PendingRead)
      (es : List (Effect M)) (hq : Quiet es)
      (hprs : prs = [] ∨ (prs = s.pendingReads ∧ s.role = .follower))
      (h₀ : s = n₀ ∨ ∃ e kv, s.applying = some (e, kv) ∧ e.cmd = .removeServer s.id)
      (hst : Unstored es) :
      Move n₀ ticket inp s
        { s with
          role := .follower, leaderId := l, votesReceived := ∅, voteCount := 0
          pendingReads := prs, timers := tm, out := s.out ++ es }
  /-- The vote of `handle_request_vote`. -/
  | grant (s : Node M) (src : NodeId) (rv : RequestVote) (tm : Timers) (es : List (Effect M))
      (hq : Quiet es) (hinp : inp = .message src (.requestVote rv))
      (hterm : rv.term = s.currentTerm)
      (hvote : s.votedFor = none ∨ s.votedFor = some rv.candidateId)
      (hup : s.cfg.bugSkipVoteUptodate = true ∨
        s.isLogUpToDate rv.lastLogIndex rv.lastLogTerm = true)
      (hst : ({ s with votedFor := some rv.candidateId } : Node M).Persists es) :
      Move n₀ ticket inp s
        (({ s with votedFor := some rv.candidateId, timers := tm }).persisted es)
  | replyVote (s : Node M) (src : NodeId) (rv : RequestVote) (granted : Bool)
      (hinp : inp = .message src (.requestVote rv))
      (hg : granted = true → rv.term = s.currentTerm ∧ s.votedFor = some rv.candidateId) :
      Move n₀ ticket inp s (s.send src (.requestVoteReply ⟨s.currentTerm, granted⟩))
  | countVote (s : Node M) (src : NodeId) (rvr : RequestVoteReply)
      (hinp : inp = .message src (.requestVoteReply rvr)) (hg : rvr.voteGranted = true)
      (hrole : s.role = .candidate) (hterm : rvr.term = s.currentTerm)
      (helec : s.electionTerm = s.currentTerm) (h₀ : s = n₀) :
      Move n₀ ticket inp s (s.countVote src)
  /-- `become_candidate` up to the count. -/
  | stand (s : Node M) (tm : Timers) (es es' : List (Effect M)) (hq : Quiet es) (hq' : Quiet es')
      (hrun : s.running = true) (hrole : s.role ≠ .leader) (hpeers : s.peers = n₀.peers)
      (hinp : inp = .electionTimer n₀.timers.electionGeneration)
      (h₀ : ∃ tm, s = { n₀ with timers := tm })
      (hes : .stateChange .candidate (s.currentTerm + 1) ∈ es)
      (hst : ({ s with currentTerm := s.currentTerm + 1, votedFor := some s.id } :
        Node M).Persists es)
      (hst' : Unstored es') :
      Move n₀ ticket inp s
        (({ s with
          currentTerm := s.currentTerm + 1, role := .candidate, votedFor := some s.id
          votesReceived := ∅, voteCount := 1, electionTerm := s.currentTerm + 1
          leaderId := none, timers := tm }).persisted
            (es ++ (s.peers.map fun d => Effect.send d (.requestVote
              ⟨s.currentTerm + 1, s.id, s.log.lastIndex, s.log.lastTerm⟩)) ++ es'))
  /-- `become_leader` up to `replicate_all`. -/
  | win (s : Node M) (tm : Timers) (es : List (Effect M)) (hq : Quiet es)
      (hrole : s.role = .candidate) (hcount : s.quorum ≤ s.voteCount) (hpeers : s.peers = n₀.peers)
      (hwins : n₀.wins inp = true) (hkept : Untouched n₀ s) (hst : Unstored es) :
      Move n₀ ticket inp s
        { s with
          role := .leader, leaderId := some s.id, votesReceived := ∅, voteCount := 0
          nextIndex := (fillIndex s.peers (s.log.lastIndex + 1)).insert s.id (s.log.lastIndex + 1)
          matchIndex := (fillIndex s.peers 0).insert s.id s.log.lastIndex
          timers := tm, out := s.out ++ es }
  /-- Reading `next_index_[peer]`. -/
  | touchNext (s : Node M) (peer : NodeId) (hbook : Booked n₀ s inp peer)
      (hrole : s.role = .leader) :
      Move n₀ ticket inp s { s with nextIndex := s.nextIndex.touch peer 0 }
  | sendSnapshot (s : Node M) (peer : NodeId) (hbook : Booked n₀ s inp peer)
      (hrole : s.role = .leader) (hsnap : s.snapLastIndex ≠ 0)
      (hnext : s.nextIndex.getD peer 0 ≤ s.snapLastIndex) :
      Move n₀ ticket inp s (s.send peer (.installSnapshot
        ⟨s.currentTerm, s.id, s.snapLastIndex, s.snapLastTerm, s.snapData⟩))
  | sendAppend (s : Node M) (peer : NodeId) (next : Nat) (prevTerm : Nat)
      (hbook : Booked n₀ s inp peer) (hrole : s.role = .leader)
      (hnext : s.nextIndex.getD peer 0 = next)
      (hsnap : s.snapLastIndex < next)
      (hprev : (next = 1 ∧ prevTerm = 0) ∨ (1 < next ∧ ∃ t, s.log.termAt (next - 1) = some t ∧
        prevTerm = if s.log.contains (next - 1) t then t else 0)) :
      Move n₀ ticket inp s (s.sendAppend peer (next - 1) prevTerm)
  /-- The entries and the commit index of an `AppendEntries` that passed the check. -/
  | accept (s : Node M) (src : NodeId) (ae : AppendEntries) (es : List (Effect M)) (hq : Quiet es)
      (hinp : inp = .message src (.appendEntries ae)) (hterm : s.currentTerm = ae.term)
      (hrole : s.role = .follower)
      (hprev : s.log.contains ae.prevLogIndex ae.prevLogTerm = true)
      (h₀ : n₀.currentTerm ≤ s.currentTerm) (hlog : s.log = n₀.log)
      (hpend : s.pendingClients = n₀.pendingClients) (happ : s.lastApplied = n₀.lastApplied)
      (hrun : n₀.running = true)
      (hst : ({ s with log := appendLoop ae.entries s.log } : Node M).Persists es) :
      Move n₀ ticket inp s
        ((({ s with
          log := appendLoop ae.entries s.log
          commitIndex := if ae.leaderCommit > s.commitIndex then
            min ae.leaderCommit (appendLoop ae.entries s.log).lastIndex else s.commitIndex
          }).persisted es).emit (.accepted ae))
  | replyAppend (s : Node M) (src : NodeId) (ae : AppendEntries)
      (hinp : inp = .message src (.appendEntries ae)) (hterm : s.currentTerm = ae.term)
      (hacc : .accepted ae ∈ s.out) :
      Move n₀ ticket inp s (s.send src (.appendEntriesReply ⟨s.currentTerm, true, 0, 0⟩))
  /-- Rejection of an `AppendEntries` of an earlier term. -/
  | rejectStale (s : Node M) (src : NodeId) (ae : AppendEntries)
      (hinp : inp = .message src (.appendEntries ae)) (hterm : ae.term < s.currentTerm) :
      Move n₀ ticket inp s (s.send src (.appendEntriesReply ⟨s.currentTerm, false, 0, 0⟩))
  /-- Rejection of an `AppendEntries` whose predecessor the log lacks, under the term the node
  had before. -/
  | rejectConflict (s : Node M) (src : NodeId) (ae : AppendEntries)
      (hinp : inp = .message src (.appendEntries ae)) (hterm : s.currentTerm = ae.term)
      (hrole : s.role = .follower) (h₀ : n₀.currentTerm ≤ s.currentTerm)
      (hprev : s.log.contains ae.prevLogIndex ae.prevLogTerm = false) (hlog : s.log = n₀.log) :
      Move n₀ ticket inp s (s.send src (.appendEntriesReply
        ⟨n₀.currentTerm, false, (conflict s.log ae.prevLogIndex).1,
          (conflict s.log ae.prevLogIndex).2⟩))
  | credit (s : Node M) (src : NodeId) (aer : AppendEntriesReply)
      (hinp : inp = .message src (.appendEntriesReply aer)) (h₀ : s = n₀)
      (hrole : s.role = .leader) (hterm : aer.term = s.currentTerm) (hok : aer.success = true) :
      Move n₀ ticket inp s (s.creditSuccess src)
  | backtrack (s : Node M) (src : NodeId) (aer : AppendEntriesReply)
      (hinp : inp = .message src (.appendEntriesReply aer)) (h₀ : s = n₀)
      (hrole : s.role = .leader) (hterm : aer.term = s.currentTerm) (hok : aer.success = false) :
      Move n₀ ticket inp s (s.backtrack src aer)
  | creditSnapshot (s : Node M) (src : NodeId) (isr : InstallSnapshotReply)
      (hinp : inp = .message src (.installSnapshotReply isr)) (h₀ : s = n₀)
      (hrole : s.role = .leader) (hterm : isr.term ≤ s.currentTerm) :
      Move n₀ ticket inp s (s.creditSnapshot src isr)
  /-- The leader commits up to `n`. -/
  | commit (s : Node M) (n : Nat) (hrole : s.role = .leader) (hlt : s.commitIndex < n)
      (hbase : s.log.baseIndex < n) (hlast : n ≤ s.log.lastIndex)
      (hterm : s.cfg.bugCommitPriorTerm = true ∨
        (s.log.entryAt n).map LogEntry.term = some s.currentTerm)
      (hcount : s.quorum ≤ s.matchCount n) (h₀ : n₀.role = .leader ∧ s.peers = n₀.peers) :
      Move n₀ ticket inp s { s with commitIndex := n }
  /-- `last_applied_` passes an index the snapshot covers. -/
  | skipApplied (s : Node M) (hlt : s.lastApplied < s.commitIndex)
      (hbase : s.lastApplied + 1 ≤ s.log.baseIndex) :
      Move n₀ ticket inp s { s with lastApplied := s.lastApplied + 1 }
  | applyKv (s : Node M) (e : LogEntry) (hlt : s.lastApplied < s.commitIndex)
      (hnone : s.applying = none) (he : s.log.entryAt (s.lastApplied + 1) = some e) :
      Move n₀ ticket inp s (({ s with lastApplied := s.lastApplied + 1 }).applyKv e)
  | joinPeer (s : Node M) (e : LogEntry) (kv : KvStore) (newId : NodeId)
      (happ : s.applying = some (e, kv)) (he : e.cmd = .addServer newId)
      (hnew : newId ∉ s.peers) (hid : newId ≠ s.id)
      (hrole : s.role ≠ .candidate)
      (ps : List NodeId) (nx mx : OrdMap NodeId Nat)
      (hj : s.joinPeer newId = { s with peers := ps, nextIndex := nx, matchIndex := mx }) :
      Move n₀ ticket inp s { s with peers := ps, nextIndex := nx, matchIndex := mx }
  | leavePeer (s : Node M) (e : LogEntry) (kv : KvStore) (remId : NodeId)
      (happ : s.applying = some (e, kv)) (he : e.cmd = .removeServer remId)
      (hrole : s.role ≠ .candidate) :
      Move n₀ ticket inp s (s.leavePeer remId)
  | configDone (s : Node M) (e : LogEntry) (kv : KvStore)
      (happ : s.applying = some (e, kv)) (he : e.cmd.isConfig = true) :
      Move n₀ ticket inp s { s with configChangePending := false }
  | answer (s : Node M) (e : LogEntry) (kv : KvStore) (happ : s.applying = some (e, kv))
      (hdone : s.Reflects e.cmd) (hpend : e.cmd.isConfig = true → s.configChangePending = false)
      (pc : OrdMap Nat Callback) (es : List (Effect M)) (ha : s.answer (kv.apply e.cmd).2 =
        { s with pendingClients := pc, applying := none, out := s.out ++ es }) :
      Move n₀ ticket inp s
        { s with pendingClients := pc, applying := none, out := s.out ++ es }
  | drain (s : Node M) : Move n₀ ticket inp s s.drainPendingReads
  | snapshot (s : Node M) (t : Nat) (es : List (Effect M)) (hq : Quiet es)
      (hthr : 0 < s.cfg.snapshotThreshold)
      (hlt : s.snapLastIndex < s.lastApplied) (ht : s.log.termAt s.lastApplied = some t)
      (hst : ({ s with
        snapData := M.encodeKv s.kv, snapLastIndex := s.lastApplied, snapLastTerm := t
        log := s.log.setSnapshot s.lastApplied t } : Node M).Saves es) :
      Move n₀ ticket inp s
        (({ s with
          snapData := M.encodeKv s.kv, snapLastIndex := s.lastApplied, snapLastTerm := t
          log := s.log.setSnapshot s.lastApplied t
          snapshotStore := .holding (M.encodeSnap ⟨s.lastApplied, t, M.encodeKv s.kv⟩)
          }).persisted es)
  /-- An `InstallSnapshot` whose data does not decode. -/
  | adopt (s : Node M) (src : NodeId) (is : InstallSnapshot M.Blob) (err : String)
      (hinp : inp = .message src (.installSnapshot is))
      (hlt : s.snapLastIndex < is.lastIncludedIndex) (hdec : M.decodeKv is.data = .error err)
      (hrole : s.role = .follower) (hidle : s.applying = none) :
      Move n₀ ticket inp s (s.adoptSnapshot is)
  | install (s : Node M) (src : NodeId) (is : InstallSnapshot M.Blob) (kv : KvStore)
      (es : List (Effect M)) (hq : Quiet es)
      (hinp : inp = .message src (.installSnapshot is)) (hterm : s.currentTerm = is.term)
      (hrole : s.role = .follower) (hlt : s.snapLastIndex < is.lastIncludedIndex)
      (hdec : M.decodeKv is.data = .ok kv)
      (hlog : s.log = n₀.log) (happ : s.lastApplied = n₀.lastApplied)
      (hidle : s.applying = none) (hout : ∀ x ∈ s.out, x ∈ n₀.out ∨ x.quiet = true)
      (hrun : n₀.running = true) (hle : n₀.currentTerm ≤ s.currentTerm)
      (hst : ({ s with
        snapLastIndex := is.lastIncludedIndex, snapLastTerm := is.lastIncludedTerm
        snapData := is.data
        log := s.log.setSnapshot is.lastIncludedIndex is.lastIncludedTerm } : Node M).Saves es) :
      Move n₀ ticket inp s
        (({ s with
          snapLastIndex := is.lastIncludedIndex, snapLastTerm := is.lastIncludedTerm
          snapData := is.data, kv := kv
          log := s.log.setSnapshot is.lastIncludedIndex is.lastIncludedTerm
          commitIndex := max s.commitIndex is.lastIncludedIndex
          lastApplied := max s.lastApplied is.lastIncludedIndex
          snapshotStore := .holding (M.encodeSnap
            ⟨is.lastIncludedIndex, is.lastIncludedTerm, is.data⟩) }).persisted es)
  | replySnapshot (s : Node M) (src : NodeId) (is : InstallSnapshot M.Blob)
      (hinp : inp = .message src (.installSnapshot is)) (hterm : s.currentTerm = is.term)
      (hle : is.lastIncludedIndex ≤ s.snapLastIndex) :
      Move n₀ ticket inp s
        (s.send src (.installSnapshotReply ⟨s.currentTerm, s.snapLastIndex⟩))
  | replyRead (s : Node M) (src : NodeId) (req : ReadIndexRequest)
      (hinp : inp = .message src (.readIndexRequest req)) (hterm : s.currentTerm = req.term) :
      Move n₀ ticket inp s (s.send src (.readIndexReply ⟨s.currentTerm, req.round⟩))
  | ackRead (s : Node M) (src : NodeId) (rep : ReadIndexReply)
      (hinp : inp = .message src (.readIndexReply rep)) (h₀ : s = n₀)
      (hrole : s.role = .leader) (hterm : rep.term = s.currentTerm) :
      Move n₀ ticket inp s { s with pendingReads := ackRead rep.round s.pendingReads }
  /-- A node that is not the leader sends a client away. -/
  | refuse (s : Node M) (src : NodeId) (cr : ClientRequest)
      (hinp : inp = .message src (.clientRequest cr)) (hrole : s.role ≠ .leader) :
      Move n₀ ticket inp s (s.send src (.clientReply ⟨cr.clientId, cr.requestId, false,
        ⟨false, Str.lit "", Str.lit "not_leader"⟩, s.leaderId.getD 0⟩))
  /-- `submit` on a leader that takes the command. -/
  | place (s : Node M) (cmd : Command) (cb : Callback) (cfgPending : Bool) (es : List (Effect M))
      (hq : Quiet es) (h₀ : s = n₀)
      (hinp : Asks ticket cmd cb inp) (hrun : s.running = true) (hrole : s.role = .leader)
      (hcfg : cmd.isConfig = true → s.configChangePending = false)
      (hpend : cfgPending = (cmd.isConfig || s.configChangePending))
      (hst : ({ s with log := s.log.append ⟨s.currentTerm, s.log.lastIndex + 1, cmd⟩ } :
        Node M).Persists es) :
      Move n₀ ticket inp s
        ((({ s with
          configChangePending := cfgPending
          log := s.log.append ⟨s.currentTerm, s.log.lastIndex + 1, cmd⟩
          matchIndex := s.matchIndex.insert s.id (s.log.lastIndex + 1)
          nextIndex := s.nextIndex.insert s.id (s.log.lastIndex + 2)
          pendingClients := s.pendingClients.insert (s.log.lastIndex + 1) cb
          }).persisted es).emit (.placed cb ⟨s.currentTerm, s.log.lastIndex + 1, cmd⟩))
  | beginRead (s : Node M) (key : Str) (hinp : inp = .readIndex key) (h₀ : s = n₀)
      (hrun : s.running = true) (hrole : s.role = .leader) (hpeers : s.peers ≠ []) :
      Move n₀ ticket inp s (s.beginRead key ticket)
  | readNow (s : Node M) (key : Str) (hinp : inp = .readIndex key) (h₀ : s = n₀)
      (hrun : s.running = true) (hrole : s.role = .leader) (hpeers : s.peers = []) :
      Move n₀ ticket inp s (s.readNow key ticket)
  | readTimeout (s : Node M) (round : Nat) (prs : List PendingRead) (es : List (Effect M))
      (hq : Quiet es) (hprs : ∀ pr ∈ prs, pr ∈ s.pendingReads)
      (hr : s.readTimeout round = { s with pendingReads := prs, out := s.out ++ es }) :
      Move n₀ ticket inp s { s with pendingReads := prs, out := s.out ++ es }
  | crash (s : Node M) (kv : KvStore) (hinp : inp = .crash) (h₀ : s = n₀)
      (hkv : (M.blobEmpty s.snapData = true ∧ kv = .empty) ∨
        (M.blobEmpty s.snapData = false ∧ M.decodeKv s.snapData = .ok kv))
      (es : List (Effect M)) (hd : ({ s.stop with kv := kv } : Node M).dropClients =
        { s.stop with
          kv := kv, pendingClients := .empty, pendingReads := [], out := s.out ++ es }) :
      Move n₀ ticket inp s { s.stop with
        kv := kv, pendingClients := .empty, pendingReads := [], out := s.out ++ es }
  /-- `crash` on snapshot data that does not decode. -/
  | crashFail (s : Node M) (err : String) (hinp : inp = .crash) (h₀ : s = n₀)
      (hne : M.blobEmpty s.snapData = false) (hdec : M.decodeKv s.snapData = .error err) :
      Move n₀ ticket inp s s.stop
  /-- `restart` up to `apply_committed_entries`, or as far as it gets. -/
  | boot (s s' : Node M) (hinp : inp = .restart) (h₀ : s = n₀) (hrun : s.running = false)
      (hboot : s.reboot.state = s') : Move n₀ ticket inp s s'

/-- A sequence of moves inside one step. -/
abbrev Moves {M : Medium} (n₀ : Node M) (ticket : Nat) (inp : Input M) : Node M → Node M → Prop :=
  Relation.ReflTransGen (Move n₀ ticket inp)

end SimKV
