/-
# What a node does to its election timer and to its callbacks

The moves of `SimKV.Raft.Moves` leave the timers open, and count a cancelled read
among the quiet effects.  For the election timer and for the callbacks a node has
been given this is too coarse, so a step is cut up once more, along other lines:
an `Act` is one of the few calls that touch the election timer, the waiting
clients or the waiting reads, and whatever happens in between is `Elsewhere`.

`Node.handle_acts` says that a step is a sequence of acts, whatever the input and
the state, and that a new callback is only taken in before all of them
(`Opening`): one step makes at most one.
-/
import SimKV.Raft.Effects

namespace SimKV

variable {M : Medium} {inp : Input M} {t : Nat}

/-! ## Elsewhere -/

/-- Effects other than setting or cancelling the election timer and invoking a callback. -/
def Effect.mute : Effect M → Bool
  | .timer (.scheduleElection _) | .timer .cancelElection | .clientDone _ _
  | .readDone _ _ _ => false
  | _ => true

/-- The fields the acts are about. -/
structure Desk where
  id : NodeId
  running : Bool
  role : Role
  electionScheduled : Bool
  electionGeneration : Nat
  pendingClients : OrdMap Nat Callback
  pendingReads : List PendingRead
  nextReadRound : Nat

namespace Node

def desk (s : Node M) : Desk where
  id := s.id
  running := s.running
  role := s.role
  electionScheduled := s.timers.electionScheduled
  electionGeneration := s.timers.electionGeneration
  pendingClients := s.pendingClients
  pendingReads := s.pendingReads
  nextReadRound := s.nextReadRound

/-- From `s` to `s'` neither the election timer nor a callback was touched, and a node that stands
or leads kept its vote. -/
structure Elsewhere (s s' : Node M) : Prop where
  desk : s'.desk = s.desk
  vote : s.role ≠ .follower → s'.votedFor = s.votedFor
  out : ∃ es, s'.out = s.out ++ es ∧ ∀ e ∈ es, e.mute = true

namespace Elsewhere

variable {s s' s'' : Node M}

theorem of_eq (hd : s'.desk = s.desk) (hv : s.role ≠ .follower → s'.votedFor = s.votedFor)
    (ho : s'.out = s.out) : Elsewhere s s' :=
  ⟨hd, hv, [], by rw [ho, List.append_nil], by simp⟩

theorem refl (s : Node M) : Elsewhere s s := of_eq rfl (fun _ => rfl) rfl

theorem role (h : Elsewhere s s') : s'.role = s.role := congrArg Desk.role h.desk

theorem trans (h : Elsewhere s s') (h' : Elsewhere s' s'') : Elsewhere s s'' := by
  obtain ⟨es, ho, hes⟩ := h.out
  obtain ⟨es', ho', hes'⟩ := h'.out
  refine ⟨h'.desk.trans h.desk, fun hr => (h'.vote (h.role ▸ hr)).trans (h.vote hr),
    es ++ es', by rw [ho', ho, List.append_assoc], fun e he => ?_⟩
  exact (List.mem_append.mp he).elim (hes e) (hes' e)

theorem emit (s : Node M) {e : Effect M} (he : e.mute = true) : Elsewhere s (s.emit e) :=
  ⟨rfl, fun _ => rfl, [e], rfl, by simpa using he⟩

end Elsewhere

theorem mute_rewriteCalls (which : StoreId) (bytes : List M.Cell) :
    ∀ e ∈ rewriteCalls which bytes, e.mute = true := by
  intro e he
  simp only [rewriteCalls, List.mem_cons, List.not_mem_nil, or_false] at he
  rcases he with rfl | rfl | rfl <;> rfl

theorem mute_persistCalls (s : Node M) : ∀ e ∈ s.persistCalls, e.mute = true := fun e he =>
  (List.mem_append.mp he).elim (mute_rewriteCalls _ _ e) (mute_rewriteCalls _ _ e)

theorem persist_elsewhere (s : Node M) : Elsewhere s s.persist := by
  rw [persist_eq]
  exact ⟨rfl, fun _ => rfl, _, rfl, s.mute_persistCalls⟩

theorem saveSnapshot_elsewhere (s : Node M) : Elsewhere s s.saveSnapshot := by
  rw [saveSnapshot_eq]
  exact ⟨rfl, fun _ => rfl, _, rfl, mute_rewriteCalls _ _⟩

theorem scheduleHeartbeat_elsewhere (s : Node M) : Elsewhere s s.scheduleHeartbeat := by
  unfold scheduleHeartbeat
  split
  · exact .refl s
  · exact ⟨rfl, fun _ => rfl, _, rfl, by simp [Effect.mute]⟩

theorem cancelHeartbeat_elsewhere (s : Node M) : Elsewhere s s.cancelHeartbeat := by
  unfold cancelHeartbeat
  split
  · exact ⟨rfl, fun _ => rfl, _, rfl, by simp [Effect.mute]⟩
  · exact .refl s

theorem sendInstallSnapshot_elsewhere (s : Node M) (peer : NodeId) :
    Elsewhere s (s.sendInstallSnapshot peer) := by
  unfold sendInstallSnapshot
  split
  · exact .refl s
  · exact .emit s rfl

theorem sendAppend_elsewhere (s : Node M) (peer : NodeId) (prev pt : Nat) :
    Elsewhere s (s.sendAppend peer prev pt) :=
  ⟨rfl, fun _ => rfl, _, rfl, by simp [Effect.mute]⟩

theorem replicateTo_elsewhere (s : Node M) (peer : NodeId) :
    Elsewhere s (s.replicateTo peer).state := by
  have htouch : Elsewhere s { s with nextIndex := s.nextIndex.touch peer 0 } :=
    .of_eq rfl (fun _ => rfl) rfl
  unfold replicateTo
  split
  · exact .refl s
  · simp only
    split
    · exact htouch.trans (sendInstallSnapshot_elsewhere _ peer)
    · split
      · split
        · exact htouch
        · exact htouch.trans (sendAppend_elsewhere _ peer _ _)
      · exact htouch.trans (sendAppend_elsewhere _ peer _ _)

theorem replicateAll_elsewhere (s : Node M) : Elsewhere s s.replicateAll.state := by
  unfold replicateAll
  generalize s.peers = ps
  induction ps generalizing s with
  | nil => exact .refl s
  | cons p ps ih =>
    rw [List.foldlM_cons]
    have hp := s.replicateTo_elsewhere p
    cases hr : s.replicateTo p with
    | error e => rw [hr] at hp; exact hp
    | ok s' => rw [hr] at hp; exact hp.trans (ih s')

theorem joinPeer_elsewhere (s : Node M) (newId : NodeId) : Elsewhere s (s.joinPeer newId) := by
  obtain ⟨ps, nx, mx, hj⟩ := s.joinPeer_frame newId
  rw [hj]
  exact .of_eq rfl (fun _ => rfl) rfl

theorem takeSnapshot_elsewhere (s : Node M) : Elsewhere s s.takeSnapshot.state := by
  unfold takeSnapshot
  split
  · exact .refl s
  · split
    · exact .refl s
    · refine Elsewhere.trans ?_ ((saveSnapshot_elsewhere _).trans (persist_elsewhere _))
      exact .of_eq rfl (fun _ => rfl) rfl

theorem acceptEntries_elsewhere (s : Node M) (ae : AppendEntries) :
    Elsewhere s (s.acceptEntries ae) := by
  unfold acceptEntries
  have hlog : Elsewhere s { s with log := appendLoop ae.entries s.log } :=
    .of_eq rfl (fun _ => rfl) rfl
  have hp := hlog.trans (persist_elsewhere _)
  simp only
  split
  · refine (hp.trans ?_).trans (.emit _ rfl)
    exact .of_eq rfl (fun _ => rfl) rfl
  · exact hp.trans (.emit _ rfl)

theorem installKv_elsewhere (s : Node M) (kv : KvStore) : Elsewhere s (s.installKv kv) := by
  unfold installKv
  refine Elsewhere.trans ?_ ((saveSnapshot_elsewhere _).trans (persist_elsewhere _))
  exact .of_eq rfl (fun _ => rfl) rfl

/-! ## The calls that reset the timer -/

/-- The effects of dropping the waiting reads `prs`. -/
def cancelReads (prs : List PendingRead) : List (Effect M) :=
  prs.flatMap fun pr => [.timer (.cancelRead pr.round), .readDone pr.ticket false none]

/-- `become_follower` drops all waiting reads or none, gives the role up and resets the timer. -/
theorem becomeFollower_reset (s : Node M) (T : Nat) (l : Option NodeId) :
    ∃ (s₁ : Node M) (dropped : List PendingRead) (es es' : List (Effect M)),
      s.becomeFollower T l = s₁.cancelElectionTimeout.scheduleElectionTimeout ∧
      s₁.desk = { s.desk with role := .follower, pendingReads := s₁.pendingReads } ∧
      s.pendingReads = dropped ++ s₁.pendingReads ∧
      s₁.out = s.out ++ (es ++ cancelReads dropped ++ es') ∧
      (∀ e ∈ es, e.mute = true) ∧ ∀ e ∈ es', e.mute = true := by
  -- the new term, if there is one
  have hterm : ∃ s₁ es, (if decide (T > s.currentTerm) = true then
      ({ s with currentTerm := T, votedFor := none } : Node M).persist else s) = s₁ ∧
      s₁.desk = s.desk ∧ s₁.out = s.out ++ es ∧ ∀ e ∈ es, e.mute = true := by
    split
    · rw [persist_eq]
      exact ⟨_, _, rfl, rfl, rfl, mute_persistCalls _⟩
    · exact ⟨s, [], rfl, rfl, (List.append_nil _).symm, by simp⟩
  obtain ⟨s₁, es, hs₁, hdesk, hout, hes⟩ := hterm
  have hreads : s₁.pendingReads = s.pendingReads := congrArg Desk.pendingReads hdesk
  unfold becomeFollower
  simp only [hs₁]
  by_cases hdrop : s₁.role ≠ .follower ∨ decide (T > s.currentTerm) = true
  · rw [if_pos hdrop]
    obtain ⟨hd, -, es', ho, hes'⟩ :=
      ({ s₁.cancelPendingReads with role := .follower } : Node M).cancelHeartbeat_elsewhere
    generalize ({ s₁.cancelPendingReads with role := .follower } : Node M).cancelHeartbeat = s₂
      at hd ho
    have hnone : s₂.pendingReads = [] := congrArg Desk.pendingReads hd
    refine ⟨_, s.pendingReads, es, es' ++ [.stateChange s₂.role s₂.currentTerm], rfl, ?_, ?_, ?_,
      hes, ?_⟩
    · change s₂.desk = { s.desk with role := .follower, pendingReads := s₂.pendingReads }
      rw [hd, hnone, ← hdesk]
      rfl
    · change s.pendingReads = s.pendingReads ++ s₂.pendingReads
      rw [hnone, List.append_nil]
    · change s₂.out ++ [_] = _
      rw [ho]
      change s₁.out ++ cancelReads s₁.pendingReads ++ es' ++ _ = _
      rw [hout, hreads]
      simp only [List.append_assoc]
    · intro e he
      rcases List.mem_append.mp he with he | he
      · exact hes' e he
      · rw [List.mem_singleton.mp he]
        rfl
  · rw [if_neg hdrop]
    rw [not_or, not_not] at hdrop
    refine ⟨_, [], es, [], rfl, ?_, hreads.symm, ?_, hes, by simp⟩
    · change s₁.desk = { s.desk with role := .follower, pendingReads := s₁.pendingReads }
      rw [← hdesk, ← hdrop.1]
      rfl
    · change s₁.out = _
      rw [hout]
      simp [cancelReads]

theorem grantVote_reset (s : Node M) (candidate : NodeId) :
    ∃ (s₁ : Node M) (es : List (Effect M)),
      s.grantVote candidate = s₁.cancelElectionTimeout.scheduleElectionTimeout ∧
      s₁.desk = s.desk ∧ s₁.out = s.out ++ es ∧ ∀ e ∈ es, e.mute = true := by
  unfold grantVote
  rw [persist_eq]
  exact ⟨_, _, rfl, rfl, rfl, mute_persistCalls _⟩

theorem standForElection_reset (s : Node M) :
    ∃ (s₁ : Node M) (es : List (Effect M)),
      s.standForElection = s₁.cancelElectionTimeout.scheduleElectionTimeout ∧
      s₁.desk = { s.desk with role := .candidate } ∧ s₁.votedFor = some s.id ∧
      s₁.out = s.out ++ es ∧ ∀ e ∈ es, e.mute = true := by
  unfold standForElection
  simp only [persist_eq]
  generalize hc : persistCalls _ = calls
  refine ⟨_, calls ++ ([.stateChange .candidate (s.currentTerm + 1)] ++ s.peers.map fun d =>
    .send d (.requestVote ⟨s.currentTerm + 1, s.id, s.log.lastIndex, s.log.lastTerm⟩)),
    rfl, rfl, rfl, ?_, ?_⟩
  · simp only [sendAll, emit, persisted, List.append_assoc]
  · intro e he
    simp only [List.mem_append, List.mem_singleton, List.mem_map] at he
    rcases he with he | rfl | ⟨d, -, rfl⟩
    · exact mute_persistCalls _ e (hc ▸ he)
    · rfl
    · rfl

/-- `become_leader` takes the role and cancels the timer. -/
theorem takeOffice_cancel (s : Node M) :
    ∃ s₁ : Node M, Elsewhere s₁.cancelElectionTimeout s.takeOffice ∧
      s₁.desk = { s.desk with role := .leader } ∧ s₁.votedFor = s.votedFor ∧ s₁.out = s.out := by
  refine ⟨{ s with role := .leader, leaderId := some s.id, votesReceived := ∅, voteCount := 0 },
    ?_, rfl, rfl, rfl⟩
  unfold takeOffice
  simp only
  generalize cancelElectionTimeout _ = s₁
  have hbooks : Elsewhere s₁ { s₁ with
      nextIndex := (fillIndex s₁.peers (s₁.log.lastIndex + 1)).insert s₁.id (s₁.log.lastIndex + 1)
      matchIndex := (fillIndex s₁.peers 0).insert s₁.id s₁.log.lastIndex } :=
    .of_eq rfl (fun _ => rfl) rfl
  exact hbooks.trans ((Elsewhere.emit _ rfl).trans (scheduleHeartbeat_elsewhere _))

/-! ## The calls that take a callback in -/

theorem placeEntry_desk (s : Node M) (cmd : Command) (cb : Callback) :
    (s.placeEntry cmd cb).desk = { s.desk with
      pendingClients := s.pendingClients.insert (s.log.lastIndex + 1) cb } ∧
    (s.placeEntry cmd cb).votedFor = s.votedFor ∧
    ∃ es, (s.placeEntry cmd cb).out = s.out ++ es ∧ ∀ e ∈ es, e.mute = true := by
  have hmute : ∀ (p : Node M) (e : LogEntry), ∀ x ∈ p.persistCalls ++ [.placed cb e],
      x.mute = true := by
    intro p e x hx
    rcases List.mem_append.mp hx with hx | hx
    · exact p.mute_persistCalls x hx
    · rw [List.mem_singleton.mp hx]
      rfl
  unfold placeEntry
  cases hc : cmd.isConfig with
  | true =>
    simp only [if_true, persist_eq]
    exact ⟨rfl, rfl, _, List.append_assoc _ _ _, hmute _ _⟩
  | false =>
    simp only [Bool.false_eq_true, if_false, persist_eq]
    exact ⟨rfl, rfl, _, List.append_assoc _ _ _, hmute _ _⟩

theorem beginRead_desk (s : Node M) (key : Str) (ticket : Nat) :
    (s.beginRead key ticket).desk = { s.desk with
      nextReadRound := s.nextReadRound + 1
      pendingReads := s.pendingReads ++ [⟨s.nextReadRound, s.commitIndex, key, ticket, 1⟩] } ∧
    (s.beginRead key ticket).votedFor = s.votedFor ∧
    ∃ es, (s.beginRead key ticket).out = s.out ++ es ∧ ∀ e ∈ es, e.mute = true := by
  refine ⟨rfl, rfl, [.readBegun ticket s.commitIndex, .timer (.scheduleRead s.nextReadRound)] ++
    s.peers.map fun d => .send d (.readIndexRequest ⟨s.currentTerm, s.id, s.nextReadRound⟩), ?_, ?_⟩
  · simp only [beginRead, emit, sendAll, List.append_assoc, List.cons_append, List.nil_append]
  · intro e he
    simp only [List.mem_append, List.mem_cons, List.not_mem_nil, or_false, List.mem_map] at he
    rcases he with (rfl | rfl) | ⟨d, -, rfl⟩ <;> rfl

end Node

/-! ## Acts -/

/-- One call that touches the election timer, a waiting client or a waiting read, or something
that happens elsewhere; the step in progress handles `inp`. -/
inductive Act (inp : Input M) : Node M → Node M → Prop
  | elsewhere {s s' : Node M} (h : s.Elsewhere s') : Act inp s s'
  | stepDown (s : Node M) (T : Nat) (l : Option NodeId) (hT : s.currentTerm ≤ T) :
      Act inp s (s.becomeFollower T l)
  | grant (s : Node M) (src : NodeId) (rv : RequestVote)
      (hinp : inp = .message src (.requestVote rv)) (hg : s.grants rv = true) :
      Act inp s (s.grantVote rv.candidateId)
  /-- The current election callback finds a node that is down or leads. -/
  | expire (s : Node M) (hinp : inp = .electionTimer s.timers.electionGeneration)
      (hidle : s.running = false ∨ s.role = .leader) :
      Act inp s { s with timers := { s.timers with electionScheduled := false } }
  /-- The current election callback finds a node that can stand. -/
  | campaign (s : Node M) (hinp : inp = .electionTimer s.timers.electionGeneration)
      (hrun : s.running = true) (hrole : s.role ≠ .leader) :
      Act inp s ({ s with timers := { s.timers with electionScheduled := false } } :
        Node M).standForElection
  | win (s : Node M) (hrole : s.role = .candidate) : Act inp s s.takeOffice
  | answer (s : Node M) (r : CmdResult) : Act inp s (s.answer r)
  | drain (s : Node M) : Act inp s s.drainPendingReads
  | ackRead (s : Node M) (round : Nat) :
      Act inp s { s with pendingReads := Node.ackRead round s.pendingReads }
  | readTimeout (s : Node M) (round : Nat) : Act inp s (s.readTimeout round)
  | stop (s : Node M) (hinp : inp = .crash) : Act inp s s.stop
  | dropClients (s : Node M) (hinp : inp = .crash) : Act inp s s.dropClients
  | boot (s : Node M) (hinp : inp = .restart) : Act inp s s.reboot.state
  | wake (s : Node M) (hinp : inp = .restart) : Act inp s s.scheduleElectionTimeout

abbrev Acts (inp : Input M) : Node M → Node M → Prop := Relation.ReflTransGen (Act inp)

/-- What step `t` may begin with: a callback is taken in, or nothing. -/
inductive Opening (t : Nat) (s : Node M) : Node M → Prop
  | none : Opening t s s
  | place (cmd : Command) (cb : Callback) (hcb : cb.ticket = t) : Opening t s (s.placeEntry cmd cb)
  | readNow (key : Str) : Opening t s (s.readNow key t)
  | beginRead (key : Str) : Opening t s (s.beginRead key t)

theorem Node.Elsewhere.acts {s s' : Node M} (h : s.Elsewhere s') : Acts inp s s' :=
  .single (.elsewhere h)

/-- Sequencing: an exception keeps the state reached, a value goes on. -/
theorem Acts.bind {s : Node M} {r : Res M} {f : Node M → Res M} (h : Acts inp s r.state)
    (hf : ∀ s', r = .ok s' → Acts inp s' (f s').state) : Acts inp s (Res.state (r >>= f)) := by
  cases r with
  | ok s' => exact h.trans (hf s' rfl)
  | error e => exact h

namespace Node

/-! ## Applying and committing -/

theorem applyMembershipChange_acts (s : Node M) (cmd : Command) :
    Acts inp s (s.applyMembershipChange cmd).state := by
  cases cmd with
  | addServer newId =>
    rw [applyMembershipChange]
    split
    · simp only
      split
      · exact ((s.joinPeer_elsewhere newId).trans (replicateTo_elsewhere _ newId)).acts
      · exact (s.joinPeer_elsewhere newId).acts
    · exact .refl
  | removeServer remId =>
    have hleave : Elsewhere s (s.leavePeer remId) := .of_eq rfl (fun _ => rfl) rfl
    rw [applyMembershipChange]
    split
    · exact .tail hleave.acts (.stepDown _ _ none (Nat.le_refl _))
    · exact hleave.acts
  | put key value => exact .refl
  | delete key => exact .refl
  | cas key expected value => exact .refl
  | get key => exact .refl

theorem applyOne_acts (s : Node M) : Acts inp s s.applyOne.state := by
  have hnext : Elsewhere s { s with lastApplied := s.lastApplied + 1 } :=
    .of_eq rfl (fun _ => rfl) rfl
  unfold applyOne
  simp only
  split
  · exact hnext.acts
  · split
    · exact hnext.acts
    · rename_i entry _
      have hkv : Elsewhere ({ s with lastApplied := s.lastApplied + 1 } : Node M)
          (({ s with lastApplied := s.lastApplied + 1 } : Node M).applyKv entry) :=
        ⟨rfl, fun _ => rfl, _, rfl, by simp [Effect.mute]⟩
      refine (hnext.trans hkv).acts.trans ?_
      split
      · refine Acts.bind (applyMembershipChange_acts _ _) fun s₂ _ => ?_
        have hdone : Elsewhere s₂ { s₂ with configChangePending := false } :=
          .of_eq rfl (fun _ => rfl) rfl
        exact hdone.acts.tail (.answer _ _)
      · exact .single (.answer _ _)

theorem applyLoop_acts (k : Nat) (s : Node M) : Acts inp s (applyLoop k s).state := by
  induction k generalizing s with
  | zero => exact .refl
  | succ k ih => exact Acts.bind s.applyOne_acts fun s₁ _ => ih s₁

theorem afterApply_acts (s : Node M) : Acts inp s s.afterApply.state := by
  unfold afterApply
  simp only
  split
  · exact .head (.drain s) (takeSnapshot_elsewhere _).acts
  · exact .single (.drain s)

theorem applyCommittedEntries_acts (s : Node M) : Acts inp s s.applyCommittedEntries.state :=
  Acts.bind (applyLoop_acts _ s) fun s₁ _ => s₁.afterApply_acts

theorem advanceFrom_acts (k : Nat) (s : Node M) : Acts inp s (advanceFrom k s).state := by
  induction k with
  | zero => exact .refl
  | succ k ih =>
    rw [advanceFrom]
    split
    · exact .refl
    · split
      · exact .refl
      · split
        · exact ih
        · split
          · have hcommit : Elsewhere s { s with commitIndex := k + 1 } :=
              .of_eq rfl (fun _ => rfl) rfl
            exact hcommit.acts.trans (applyCommittedEntries_acts _)
          · exact ih

theorem maybeAdvance_acts (s : Node M) : Acts inp s s.maybeAdvanceCommitIndex.state :=
  advanceFrom_acts _ s

/-! ## Elections and clients -/

theorem becomeLeader_acts (s : Node M) (hrole : s.role = .candidate) :
    Acts inp s s.becomeLeader.state := by
  unfold becomeLeader
  rw [if_neg (by rw [hrole]; decide)]
  exact .head (.win s hrole) (replicateAll_elsewhere _).acts

/-- `submit` takes the callback in first, if it takes it at all. -/
theorem submit_acts (s : Node M) (cid rid : Nat) (cmd : Command) (cb : Callback)
    (hcb : cb.ticket = t) :
    ∃ s₁, Opening t s s₁ ∧ Acts inp s₁ (Res.state ((s.submit cid rid cmd cb).map Prod.snd)) := by
  unfold submit
  by_cases hrun : (!s.running) = true ∨ s.role ≠ .leader
  · rw [if_pos hrun]
    exact ⟨s, .none, .refl⟩
  · by_cases hcfg : cmd.isConfig = true ∧ s.configChangePending = true
    · rw [if_neg hrun, if_pos hcfg]
      exact ⟨s, .none, .refl⟩
    · rw [if_neg hrun, if_neg hcfg]
      refine ⟨_, .place cmd cb hcb, ?_⟩
      have hrep := (s.placeEntry cmd cb).replicateAll_elsewhere
      cases hr : (s.placeEntry cmd cb).replicateAll with
      | error e => rw [hr] at hrep; exact hrep.acts
      | ok s₁ =>
        rw [hr] at hrep
        have hadv : Acts inp s₁ _ := s₁.maybeAdvance_acts
        simp only [bind, Except.bind]
        cases hr' : s₁.maybeAdvanceCommitIndex with
        | error e => rw [hr'] at hadv; exact hrep.acts.trans hadv
        | ok s₂ => rw [hr'] at hadv; exact hrep.acts.trans hadv

/-! ## Message handlers -/

theorem handleRequestVote_acts (s : Node M) (src : NodeId) (rv : RequestVote)
    (hinp : inp = .message src (.requestVote rv)) : Acts inp s (s.handleRequestVote src rv) := by
  unfold handleRequestVote
  have hdown : Acts inp s
      (if rv.term > s.currentTerm then s.becomeFollower rv.term none else s) := by
    split
    · rename_i hgt
      exact .single (.stepDown s _ _ (Nat.le_of_lt hgt))
    · exact .refl
  refine hdown.trans ?_
  generalize (if rv.term > s.currentTerm then s.becomeFollower rv.term none else s) = s₁
  have hvote : Acts inp s₁ (if s₁.grants rv = true then s₁.grantVote rv.candidateId else s₁) := by
    split
    · rename_i hg
      exact .single (.grant s₁ src rv hinp hg)
    · exact .refl
  exact hvote.trans (Elsewhere.emit _ rfl).acts

theorem handleRequestVoteReply_acts (s : Node M) (src : NodeId) (rvr : RequestVoteReply) :
    Acts inp s (s.handleRequestVoteReply src rvr).state := by
  unfold handleRequestVoteReply
  split
  · exact .refl
  · rename_i hrole
    rw [not_not] at hrole
    split
    · rename_i hgt
      exact .single (.stepDown s _ _ (Nat.le_of_lt hgt))
    · split
      · exact .refl
      · split
        · have hcount : Elsewhere s (s.countVote src) := .of_eq rfl (fun _ => rfl) rfl
          simp only
          split
          · exact hcount.acts.trans (becomeLeader_acts _ hrole)
          · exact hcount.acts
        · exact .refl

theorem handleAppendEntries_acts (s : Node M) (src : NodeId) (ae : AppendEntries) :
    Acts inp s (s.handleAppendEntries src ae).state := by
  unfold handleAppendEntries
  split
  · exact (Elsewhere.emit s rfl).acts
  · rename_i hge
    simp only [s.stepDown_eq (some src) hge]
    refine .head (.stepDown s _ (some src) (Nat.not_lt.mp hge)) ?_
    generalize s.becomeFollower ae.term (some src) = s₁
    split
    · exact (Elsewhere.emit s₁ rfl).acts
    · refine (s₁.acceptEntries_elsewhere ae).acts.trans ?_
      split
      · refine Acts.bind (applyCommittedEntries_acts _) fun s₂ _ => ?_
        exact (Elsewhere.emit s₂ rfl).acts
      · exact (Elsewhere.emit _ rfl).acts

theorem handleAppendEntriesReply_acts (s : Node M) (src : NodeId) (aer : AppendEntriesReply) :
    Acts inp s (s.handleAppendEntriesReply src aer).state := by
  unfold handleAppendEntriesReply
  split
  · exact .refl
  · split
    · rename_i hgt
      exact .single (.stepDown s _ _ (Nat.le_of_lt hgt))
    · split
      · exact .refl
      · split
        · have hcredit : Elsewhere s (s.creditSuccess src) := .of_eq rfl (fun _ => rfl) rfl
          exact hcredit.acts.trans (maybeAdvance_acts _)
        · have hback : Elsewhere s (s.backtrack src aer) := .of_eq rfl (fun _ => rfl) rfl
          exact (hback.trans (replicateTo_elsewhere _ src)).acts

theorem handleInstallSnapshot_acts (s : Node M) (src : NodeId) (is : InstallSnapshot M.Blob) :
    Acts inp s (s.handleInstallSnapshot src is).state := by
  unfold handleInstallSnapshot
  split
  · exact .refl
  · rename_i hge
    simp only [s.stepDown_eq (some src) hge]
    refine .head (.stepDown s _ (some src) (Nat.not_lt.mp hge)) ?_
    generalize s.becomeFollower is.term (some src) = s₁
    have hadopt : Elsewhere s₁ (s₁.adoptSnapshot is) := .of_eq rfl (fun _ => rfl) rfl
    split
    · exact (Elsewhere.emit s₁ rfl).acts
    · split
      · exact hadopt.acts
      · rename_i kv _
        exact ((hadopt.trans (installKv_elsewhere _ kv)).trans (Elsewhere.emit _ rfl)).acts

theorem handleInstallSnapshotReply_acts (s : Node M) (src : NodeId) (isr : InstallSnapshotReply) :
    Acts inp s (s.handleInstallSnapshotReply src isr).state := by
  unfold handleInstallSnapshotReply
  split
  · exact .refl
  · split
    · rename_i hgt
      exact .single (.stepDown s _ _ (Nat.le_of_lt hgt))
    · have hcredit : Elsewhere s (s.creditSnapshot src isr) := .of_eq rfl (fun _ => rfl) rfl
      exact hcredit.acts.trans (maybeAdvance_acts _)

theorem handleReadIndexRequest_acts (s : Node M) (src : NodeId) (req : ReadIndexRequest) :
    Acts inp s (s.handleReadIndexRequest src req) := by
  unfold handleReadIndexRequest
  split
  · exact .refl
  · rename_i hge
    simp only [s.stepDown_eq (some src) hge]
    exact .head (.stepDown s _ (some src) (Nat.not_lt.mp hge)) (Elsewhere.emit _ rfl).acts

theorem handleReadIndexReply_acts (s : Node M) (src : NodeId) (rep : ReadIndexReply) :
    Acts inp s (s.handleReadIndexReply src rep) := by
  unfold handleReadIndexReply
  split
  · rename_i hgt
    exact .single (.stepDown s _ _ (Nat.le_of_lt hgt))
  · split
    · exact .refl
    · exact .head (.ackRead s rep.round) (.single (.drain _))

theorem dispatch_acts (s : Node M) (src : NodeId) (m : Msg M.Blob) (hinp : inp = .message src m) :
    ∃ s₁, Opening t s s₁ ∧ Acts inp s₁ (s.dispatch src m t).state := by
  cases m with
  | clientRequest cr =>
    rw [dispatch, handleClientRequest]
    split
    · exact ⟨s, .none, (Elsewhere.emit s rfl).acts⟩
    · obtain ⟨s₁, ho, ha⟩ := s.submit_acts cr.clientId cr.requestId cr.cmd
        ⟨t, some (src, cr)⟩ rfl
      refine ⟨s₁, ho, ?_⟩
      cases hr : s.submit cr.clientId cr.requestId cr.cmd ⟨t, some (src, cr)⟩ with
      | error e => rw [hr] at ha; exact ha
      | ok r => rw [hr] at ha; exact ha
  | requestVote rv => exact ⟨s, .none, handleRequestVote_acts s src rv hinp⟩
  | requestVoteReply rvr => exact ⟨s, .none, handleRequestVoteReply_acts s src rvr⟩
  | appendEntries ae => exact ⟨s, .none, handleAppendEntries_acts s src ae⟩
  | appendEntriesReply aer => exact ⟨s, .none, handleAppendEntriesReply_acts s src aer⟩
  | clientReply m => exact ⟨s, .none, .refl⟩
  | installSnapshot is => exact ⟨s, .none, handleInstallSnapshot_acts s src is⟩
  | installSnapshotReply isr => exact ⟨s, .none, handleInstallSnapshotReply_acts s src isr⟩
  | readIndexRequest req => exact ⟨s, .none, handleReadIndexRequest_acts s src req⟩
  | readIndexReply rep => exact ⟨s, .none, handleReadIndexReply_acts s src rep⟩

/-! ## Timers and lifecycle -/

theorem electionTimer_acts (s : Node M) (gen : Nat) (hinp : inp = .electionTimer gen) :
    Acts inp s (s.electionTimer gen).state := by
  unfold electionTimer
  split
  · exact .refl
  · rename_i hgen
    rw [not_not] at hgen
    subst hgen
    simp only
    split
    · rename_i hrun
      exact .single (.expire s hinp (Or.inl (by simpa using hrun)))
    · rename_i hrun
      have hrun' : s.running = true := by simpa using hrun
      unfold onElectionTimeout
      split
      · rename_i hrole
        exact .single (.expire s hinp (Or.inr hrole))
      · rename_i hrole
        unfold becomeCandidate
        rw [if_neg hrun]
        refine .head (.campaign s hinp hrun' hrole) ?_
        obtain ⟨tm, es, es', -, -, -, -, -, he⟩ := ({ s with
          timers := { s.timers with electionScheduled := false } } : Node M).standForElection_eq
        simp only
        split
        · exact becomeLeader_acts _ (by rw [he]; rfl)
        · exact .refl

theorem heartbeatTimer_acts (s : Node M) : Acts inp s s.heartbeatTimer.state := by
  have hset : Elsewhere s { s with timers := { s.timers with heartbeatScheduled := false } } :=
    .of_eq rfl (fun _ => rfl) rfl
  unfold heartbeatTimer
  simp only
  split
  · exact hset.acts
  · unfold onHeartbeat
    split
    · exact hset.acts
    · refine hset.acts.trans (Acts.bind (replicateAll_elsewhere _).acts fun s₁ _ => ?_)
      exact s₁.scheduleHeartbeat_elsewhere.acts

theorem crash_acts (s : Node M) (hinp : inp = .crash) : Acts inp s s.crash.state := by
  refine .head (.stop s hinp) ?_
  unfold crash
  simp only
  split
  · exact .single (.dropClients _ hinp)
  · split
    · exact .refl
    · rename_i kv _
      have hkv : Elsewhere s.stop { s.stop with kv := kv } := .of_eq rfl (fun _ => rfl) rfl
      exact hkv.acts.tail (.dropClients _ hinp)

theorem restart_acts (s : Node M) (hinp : inp = .restart) : Acts inp s s.restart.state := by
  rw [restart_eq]
  refine Acts.bind (.single (.boot s hinp)) fun s₁ _ => ?_
  refine Acts.bind s₁.applyCommittedEntries_acts fun s₂ _ => ?_
  exact .single (.wake s₂ hinp)

/-- **Every step opens with at most one new callback and goes on by acts.** -/
theorem handle_acts (s : Node M) (t : Nat) (inp : Input M) :
    ∃ s₁, Opening t s s₁ ∧ Acts inp s₁ (s.handle t inp) := by
  cases inp with
  | message src m =>
    rw [handle, onMessage]
    split
    · exact ⟨s, .none, .refl⟩
    · exact s.dispatch_acts src m rfl
  | electionTimer gen => exact ⟨s, .none, s.electionTimer_acts gen rfl⟩
  | heartbeatTimer => exact ⟨s, .none, s.heartbeatTimer_acts⟩
  | readTimer round => exact ⟨s, .none, .single (.readTimeout s round)⟩
  | submit cid rid cmd =>
    obtain ⟨s₁, ho, ha⟩ := s.submit_acts cid rid cmd ⟨t, none⟩ rfl
    refine ⟨s₁, ho, ?_⟩
    rw [handle]
    cases hr : s.submit cid rid cmd ⟨t, none⟩ with
    | error e => rw [hr] at ha; exact ha
    | ok r => rw [hr] at ha; exact ha
  | readIndex key =>
    rw [handle, readIndex]
    split
    · exact ⟨s, .none, .refl⟩
    · split
      · exact ⟨_, .readNow key, .refl⟩
      · exact ⟨_, .beginRead key, .refl⟩
  | crash =>
    rw [handle]
    split
    · exact ⟨s, .none, s.crash_acts rfl⟩
    · exact ⟨s, .none, .refl⟩
  | restart =>
    rw [handle]
    split
    · exact ⟨s, .none, .refl⟩
    · exact ⟨s, .none, s.restart_acts rfl⟩

end Node

end SimKV
