/-
# What a message that throws leaves behind

`RaftNode::on_message` catches every exception of a handler and prints it.  The
handler has run up to the point where it threw, and what it had changed by then
stays.  Here is where each handler can throw and what has happened by then: a
payload that the decoder rejects has changed nothing, a snapshot whose data does
not decode has already replaced the old one, a request of a client is already in
the log.  `Spoils` is the exact condition, and `throws_intact_iff` the theorem.

Two places can throw besides the decoders: `replicate_to`, when the log does not
reach from the peer's next index, and `take_snapshot`, when it does not hold the
entry applied last.  The apply loop itself does not lose anything but its place.
-/
import SimKV.Raft.Wire

namespace SimKV

variable {M : Medium}

namespace Node

/-- What `on_message` should leave as it was when it swallows an exception: all but a change to a
later term, which must be in the store. -/
structure Intact (s s' : Node M) : Prop where
  log : s'.log = s.log
  snapLastIndex : s'.snapLastIndex = s.snapLastIndex
  snapLastTerm : s'.snapLastTerm = s.snapLastTerm
  snapData : s'.snapData = s.snapData
  kv : s'.kv = s.kv
  commitIndex : s'.commitIndex = s.commitIndex
  lastApplied : s'.lastApplied = s.lastApplied
  nextIndex : s'.nextIndex = s.nextIndex
  matchIndex : s'.matchIndex = s.matchIndex
  term : (s'.currentTerm = s.currentTerm ∧ s'.votedFor = s.votedFor) ∨
    (s.currentTerm < s'.currentTerm ∧ s'.votedFor = none ∧
      s'.metaStore = .holding (M.encodeMeta ⟨s'.currentTerm, s'.votedFor⟩))

theorem Intact.refl (s : Node M) : Intact s s :=
  ⟨rfl, rfl, rfl, rfl, rfl, rfl, rfl, rfl, rfl, Or.inl ⟨rfl, rfl⟩⟩

theorem becomeFollower_intact (s : Node M) {T : Nat} (l : Option NodeId) (h : s.currentTerm ≤ T) :
    Intact s (s.becomeFollower T l) := by
  rcases Nat.eq_or_lt_of_le h with rfl | hlt
  · obtain ⟨tm, prs, es, -, -, -, he⟩ := s.becomeFollower_same l
    rw [he]
    exact ⟨rfl, rfl, rfl, rfl, rfl, rfl, rfl, rfl, rfl, Or.inl ⟨rfl, rfl⟩⟩
  · obtain ⟨tm, es, -, -, he⟩ := s.becomeFollower_newTerm l hlt
    rw [he]
    exact ⟨rfl, rfl, rfl, rfl, rfl, rfl, rfl, rfl, rfl, Or.inr ⟨hlt, rfl, rfl⟩⟩

/-! ## Where applying throws -/

/-- A stretch of applying: the log and the commit index stay, and `last_applied_` does not go
back. -/
structure Applies (s s' : Node M) : Prop where
  log : s'.log = s.log
  commitIndex : s'.commitIndex = s.commitIndex
  lastApplied : s.lastApplied ≤ s'.lastApplied

theorem Applies.trans {s s' s'' : Node M} (h : Applies s s') (h' : Applies s' s'') :
    Applies s s'' :=
  ⟨h'.log.trans h.log, h'.commitIndex.trans h.commitIndex, h.lastApplied.trans h'.lastApplied⟩

theorem replicateTo_applies (s : Node M) (peer : NodeId) :
    Applies s (s.replicateTo peer).state := by
  obtain ⟨nx, es, he⟩ := s.replicateTo_frame peer
  rw [he]
  exact ⟨rfl, rfl, Nat.le_refl _⟩

theorem applyMembershipChange_applies (s : Node M) (cmd : Command) :
    Applies s (s.applyMembershipChange cmd).state := by
  have hrefl : Applies s s := ⟨rfl, rfl, Nat.le_refl _⟩
  cases cmd with
  | addServer newId =>
    rw [applyMembershipChange]
    obtain ⟨ps, nx, mx, hj⟩ := s.joinPeer_frame newId
    have hjoin : Applies s (s.joinPeer newId) := by
      rw [hj]
      exact ⟨rfl, rfl, Nat.le_refl _⟩
    split
    · simp only
      split
      · exact hjoin.trans (replicateTo_applies _ newId)
      · exact hjoin
    · exact hrefl
  | removeServer remId =>
    rw [applyMembershipChange]
    split
    · have hf := (s.leavePeer remId).becomeFollower_spec none (Nat.le_refl _)
      exact ⟨hf.log, hf.commitIndex, Nat.le_of_eq hf.lastApplied.symm⟩
    · exact ⟨rfl, rfl, Nat.le_refl _⟩
  | put key value => exact hrefl
  | delete key => exact hrefl
  | cas key expected value => exact hrefl
  | get key => exact hrefl

/-- A round counts before it does anything else. -/
theorem applyOne_applies (s : Node M) :
    Applies s s.applyOne.state ∧ s.lastApplied < s.applyOne.state.lastApplied := by
  have hnext : Applies s { s with lastApplied := s.lastApplied + 1 } :=
    ⟨rfl, rfl, Nat.le_succ _⟩
  have key : ∀ {s' : Node M}, Applies ({ s with lastApplied := s.lastApplied + 1 } : Node M) s' →
      Applies s s' ∧ s.lastApplied < s'.lastApplied := fun h =>
    ⟨hnext.trans h, h.lastApplied⟩
  have answered : ∀ (s₁ : Node M) (r : CmdResult), Applies s₁ (s₁.answer r) := by
    intro s₁ r
    obtain ⟨pc, es, he⟩ := s₁.answer_frame r
    rw [he]
    exact ⟨rfl, rfl, Nat.le_refl _⟩
  unfold applyOne
  simp only
  split
  · exact key ⟨rfl, rfl, Nat.le_refl _⟩
  · split
    · exact key ⟨rfl, rfl, Nat.le_refl _⟩
    · rename_i entry _
      have hkv : Applies ({ s with lastApplied := s.lastApplied + 1 } : Node M)
          (({ s with lastApplied := s.lastApplied + 1 } : Node M).applyKv entry) :=
        ⟨rfl, rfl, Nat.le_refl _⟩
      split
      · have hcfg := applyMembershipChange_applies
          (({ s with lastApplied := s.lastApplied + 1 } : Node M).applyKv entry) entry.cmd
        cases hr : applyMembershipChange entry.cmd
            (({ s with lastApplied := s.lastApplied + 1 } : Node M).applyKv entry) with
        | error e => rw [hr] at hcfg; exact key (hkv.trans hcfg)
        | ok s₂ =>
          rw [hr] at hcfg
          have hdone : Applies s₂ { s₂ with configChangePending := false } :=
            ⟨rfl, rfl, Nat.le_refl _⟩
          exact key (((hkv.trans hcfg).trans hdone).trans (answered _ _))
      · exact key (hkv.trans (answered _ _))

theorem applyLoop_applies (k : Nat) (s : Node M) :
    Applies s (applyLoop k s).state ∧
      (0 < k → s.lastApplied < (applyLoop k s).state.lastApplied) := by
  induction k generalizing s with
  | zero => exact ⟨⟨rfl, rfl, Nat.le_refl _⟩, fun h => (nomatch h)⟩
  | succ k ih =>
    obtain ⟨hone, hlt⟩ := s.applyOne_applies
    rw [applyLoop]
    cases hr : s.applyOne with
    | error e => rw [hr] at hone hlt; exact ⟨hone, fun _ => hlt⟩
    | ok s₁ =>
      rw [hr] at hone hlt
      obtain ⟨hrest, -⟩ := ih s₁
      exact ⟨hone.trans hrest, fun _ => Nat.lt_of_lt_of_le hlt hrest.lastApplied⟩

/-- The end of the apply loop throws before the snapshot is taken. -/
theorem afterApply_error {s s' : Node M} {err : String} (h : s.afterApply = .error (err, s')) :
    s' = s.drainPendingReads := by
  unfold afterApply takeSnapshot at h
  simp only at h
  split at h
  · split at h
    · exact nomatch h
    · split at h
      · simp only [Except.error.injEq, Prod.mk.injEq] at h
        exact h.2.symm
      · exact nomatch h
  · exact nomatch h

theorem applyCommittedEntries_error {s s' : Node M} {err : String}
    (h : s.applyCommittedEntries = .error (err, s')) :
    Applies s s' ∧ (s.lastApplied < s.commitIndex → s.lastApplied < s'.lastApplied) := by
  obtain ⟨hloop, hlt⟩ := applyLoop_applies (s.commitIndex - s.lastApplied) s
  unfold applyCommittedEntries at h
  cases hr : applyLoop (s.commitIndex - s.lastApplied) s with
  | error e =>
    rw [hr] at h hloop hlt
    obtain rfl : e = (err, s') := Except.error.inj h
    exact ⟨hloop, fun hc => hlt (Nat.sub_pos_of_lt hc)⟩
  | ok s₁ =>
    rw [hr] at h hloop hlt
    obtain rfl := afterApply_error h
    exact ⟨⟨hloop.log, hloop.commitIndex, hloop.lastApplied⟩,
      fun hc => hlt (Nat.sub_pos_of_lt hc)⟩

/-- An advance that throws has raised the commit index. -/
theorem advanceFrom_error {s s' : Node M} {err : String} {k : Nat}
    (h : advanceFrom k s = .error (err, s')) :
    s'.log = s.log ∧ s.commitIndex < s'.commitIndex := by
  induction k with
  | zero => cases h
  | succ k ih =>
    rw [advanceFrom] at h
    split at h
    · cases h
    · rename_i hlt
      split at h
      · cases h
      · split at h
        · exact ih h
        · split at h
          · obtain ⟨happ, -⟩ := applyCommittedEntries_error h
            refine ⟨happ.log, ?_⟩
            rw [happ.commitIndex]
            exact not_not.mp hlt
          · exact ih h

/-! ## Where replicating throws -/

theorem replicateTo_error {s s' : Node M} {peer : NodeId} {err : String}
    (h : s.replicateTo peer = .error (err, s')) :
    s' = { s with nextIndex := s.nextIndex.touch peer 0 } := by
  unfold replicateTo at h
  simp only at h
  split at h
  · exact nomatch h
  · split at h
    · exact nomatch h
    · split at h
      · split at h
        · simp only [Except.error.injEq, Prod.mk.injEq] at h
          exact h.2.symm
        · exact nomatch h
      · exact nomatch h

/-- A node that has just taken office does not throw. -/
theorem becomeLeader_ok (s : Node M) : ∃ s', s.becomeLeader = .ok s' := by
  have hall : ∀ (ps : List NodeId) (s : Node M),
      (∀ p ∈ ps, s.nextIndex.getD p 0 = s.log.lastIndex + 1) →
      ∃ s', ps.foldlM (fun s peer => s.replicateTo peer) s = Except.ok s' := by
    intro ps
    induction ps with
    | nil => exact fun s _ => ⟨s, rfl⟩
    | cons p ps ih =>
      intro s hs
      obtain ⟨s₁, hs₁, hlog, hnext⟩ := s.replicateTo_uptodate (hs p List.mem_cons_self)
      rw [List.foldlM_cons, hs₁]
      exact ih s₁ fun q hq => by rw [hnext, hlog]; exact hs q (List.mem_cons_of_mem _ hq)
  unfold becomeLeader
  split
  · exact ⟨s, rfl⟩
  · refine hall s.takeOffice.peers s.takeOffice fun p hp => ?_
    obtain ⟨tm, es, -, -, he⟩ := s.takeOffice_eq
    rw [he] at hp ⊢
    by_cases hid : p = s.id
    · rw [hid]
      exact OrdMap.getD_insert_self _ _ _ _
    · rw [OrdMap.getD_insert_of_ne _ _ _ hid, OrdMap.getD, find?_fillIndex, if_pos hp]
      rfl

/-! ## The handlers -/

/-- What had been changed by the time the handling of `m` threw, if it throws. -/
def Spoils (src : NodeId) (s : Node M) : Msg M.Blob → Prop
  | .appendEntries ae =>
    appendLoop ae.entries s.log ≠ s.log ∨ s.log.lastIndex ≠ s.commitIndex ∨
      s.lastApplied < s.commitIndex
  | .appendEntriesReply aer =>
    aer.success = true ∨ (s.backtrack src aer).nextIndex ≠ s.nextIndex
  | .clientRequest _ | .installSnapshot _ | .installSnapshotReply _ => True
  | _ => False

theorem handleRequestVoteReply_ok (s : Node M) (src : NodeId) (rvr : RequestVoteReply) :
    ∃ s', s.handleRequestVoteReply src rvr = .ok s' := by
  unfold handleRequestVoteReply
  split
  · exact ⟨_, rfl⟩
  · split
    · exact ⟨_, rfl⟩
    · split
      · exact ⟨_, rfl⟩
      · split
        · simp only
          split
          · exact becomeLeader_ok _
          · exact ⟨_, rfl⟩
        · exact ⟨_, rfl⟩

/-- `handle_append_entries` throws only while it applies. -/
theorem handleAppendEntries_error {s s' : Node M} {src : NodeId} {ae : AppendEntries}
    {err : String} (h : s.handleAppendEntries src ae = .error (err, s')) :
    ¬ ae.term < s.currentTerm ∧ ae.leaderCommit > s.commitIndex ∧
      ((s.becomeFollower ae.term (some src)).acceptEntries ae).applyCommittedEntries =
        .error (err, s') := by
  unfold handleAppendEntries at h
  split at h
  · exact nomatch h
  · rename_i hge
    have hf := s.becomeFollower_spec (some src) (Nat.not_lt.mp hge)
    simp only [s.stepDown_eq (some src) hge] at h
    split at h
    · exact nomatch h
    · split at h
      · rename_i hraise
        refine ⟨hge, by simpa [hf.commitIndex] using hraise, ?_⟩
        cases hr :
            ((s.becomeFollower ae.term (some src)).acceptEntries ae).applyCommittedEntries with
        | error e =>
          rw [hr] at h
          exact h
        | ok s₂ =>
          rw [hr] at h
          exact nomatch h
      · exact nomatch h

theorem appendEntries_intact_iff {s s' : Node M} {src : NodeId} {ae : AppendEntries}
    {err : String} (h : s.handleAppendEntries src ae = .error (err, s')) :
    Intact s s' ↔ ¬ s.Spoils src (.appendEntries ae) := by
  obtain ⟨hge, hraise, happ⟩ := handleAppendEntries_error h
  have hin := s.becomeFollower_intact (some src) (Nat.not_lt.mp hge)
  generalize s.becomeFollower ae.term (some src) = s₁ at hin happ
  obtain ⟨es, -, -, he⟩ := s₁.acceptEntries_eq ae
  have hlog : (s₁.acceptEntries ae).log = appendLoop ae.entries s.log := by
    rw [he, ← hin.log]
    rfl
  have hcommit : (s₁.acceptEntries ae).commitIndex =
      min ae.leaderCommit (appendLoop ae.entries s.log).lastIndex := by
    rw [he, ← hin.log]
    exact if_pos (by rw [hin.commitIndex]; exact hraise)
  have hlast : (s₁.acceptEntries ae).lastApplied = s.lastApplied := by
    rw [he]
    exact hin.lastApplied
  obtain ⟨hst, hlt⟩ := applyCommittedEntries_error happ
  constructor
  · rintro hi (hsp | hsp | hsp)
    · exact hsp (hlog.symm.trans (hst.log.symm.trans hi.log))
    · have hsame : appendLoop ae.entries s.log = s.log :=
        hlog.symm.trans (hst.log.symm.trans hi.log)
      have hmin : min ae.leaderCommit s.log.lastIndex = s.commitIndex := by
        rw [← hsame, ← hcommit]
        exact hst.commitIndex.symm.trans hi.commitIndex
      omega
    · have hc : (s₁.acceptEntries ae).commitIndex = s.commitIndex :=
        hst.commitIndex.symm.trans hi.commitIndex
      rw [hlast, hc, hi.lastApplied] at hlt
      exact Nat.lt_irrefl _ (hlt hsp)
  · intro hsp
    simp only [Spoils, not_or, not_not, Nat.not_lt] at hsp
    obtain ⟨hsame, hend, hle⟩ := hsp
    have hmin : min ae.leaderCommit s.log.lastIndex = s.commitIndex := by omega
    rw [hsame] at hlog hcommit
    -- nothing new to apply: what threw is the snapshot
    have hzero : (s₁.acceptEntries ae).commitIndex - (s₁.acceptEntries ae).lastApplied = 0 := by
      rw [hcommit, hmin, hlast]
      exact Nat.sub_eq_zero_of_le hle
    have hafter : (s₁.acceptEntries ae).afterApply = .error (err, s') := by
      rw [applyCommittedEntries, hzero] at happ
      exact happ
    obtain rfl := afterApply_error hafter
    rw [hmin] at hcommit
    refine ⟨hlog, ?_, ?_, ?_, ?_, hcommit, hlast, ?_, ?_, ?_⟩
    · rw [he]; exact hin.snapLastIndex
    · rw [he]; exact hin.snapLastTerm
    · rw [he]; exact hin.snapData
    · rw [he]; exact hin.kv
    · rw [he]; exact hin.nextIndex
    · rw [he]; exact hin.matchIndex
    · rw [he]
      rcases hin.term with hterm | ⟨hterm, hvote, -⟩
      · exact Or.inl hterm
      · exact Or.inr ⟨hterm, hvote, rfl⟩

theorem appendEntriesReply_intact_iff {s s' : Node M} {src : NodeId} {aer : AppendEntriesReply}
    {err : String} (h : s.handleAppendEntriesReply src aer = .error (err, s')) :
    Intact s s' ↔ ¬ s.Spoils src (.appendEntriesReply aer) := by
  unfold handleAppendEntriesReply at h
  split at h
  · exact nomatch h
  · split at h
    · exact nomatch h
    · split at h
      · exact nomatch h
      · split at h
        · rename_i hok
          have hlt : s.commitIndex < s'.commitIndex := (advanceFrom_error h).2
          refine iff_of_false (fun hi => Nat.ne_of_gt hlt hi.commitIndex) ?_
          exact fun hn => hn (Or.inl hok)
        · rename_i hok
          obtain rfl := replicateTo_error h
          -- the rejection has just bound the key
          have htouch : (s.backtrack src aer).nextIndex.touch src 0 =
              (s.backtrack src aer).nextIndex := by
            refine OrdMap.touch_eq_self ?_
            simp [backtrack]
          rw [htouch]
          constructor
          · rintro hi (hsp | hsp)
            · exact hok hsp
            · exact hsp hi.nextIndex
          · intro hsp
            have hnext : (s.backtrack src aer).nextIndex = s.nextIndex := by
              by_contra hne
              exact hsp (Or.inr hne)
            exact ⟨rfl, rfl, rfl, rfl, rfl, rfl, rfl, hnext, rfl, Or.inl ⟨rfl, rfl⟩⟩

/-- A `submit` that throws has put the command into the log. -/
theorem submit_error {s s' : Node M} {cid rid : Nat} {cmd : Command} {cb : Callback} {err : String}
    (h : s.submit cid rid cmd cb = .error (err, s')) : s'.log.lastIndex = s.log.lastIndex + 1 := by
  obtain ⟨es, -, -, hplace⟩ := s.placeEntry_eq cmd cb
  have hlog : (s.placeEntry cmd cb).log.lastIndex = s.log.lastIndex + 1 := by
    rw [hplace]
    exact RaftLog.lastIndex_append _ _
  obtain ⟨nx, es', hrep⟩ := (s.placeEntry cmd cb).replicateAll_frame
  unfold submit at h
  split at h
  · exact nomatch h
  · split at h
    · exact nomatch h
    · cases hr : (s.placeEntry cmd cb).replicateAll with
      | error e =>
        rw [hr] at h hrep
        obtain rfl : e = (err, s') := Except.error.inj h
        have hs' : s' = _ := hrep
        rw [hs']
        exact hlog
      | ok s₁ =>
        rw [hr] at h hrep
        have hs₁ : s₁ = _ := hrep
        simp only [bind, Except.bind] at h
        cases hr' : s₁.maybeAdvanceCommitIndex with
        | error e =>
          rw [hr'] at h
          obtain rfl : e = (err, s') := Except.error.inj h
          rw [(advanceFrom_error hr').1, hs₁]
          exact hlog
        | ok s₂ =>
          rw [hr'] at h
          exact nomatch h

theorem clientRequest_spoilt {s s' : Node M} {src : NodeId} {cr : ClientRequest} {t : Nat}
    {err : String} (h : s.handleClientRequest src cr t = .error (err, s')) : ¬ Intact s s' := by
  unfold handleClientRequest at h
  split at h
  · exact nomatch h
  · cases hr : s.submit cr.clientId cr.requestId cr.cmd ⟨t, some (src, cr)⟩ with
    | error e =>
      rw [hr] at h
      obtain rfl : e = (err, s') := Except.error.inj h
      intro hi
      have hgrown := submit_error hr
      rw [hi.log] at hgrown
      exact Nat.ne_of_lt (Nat.lt_succ_self _) hgrown
    | ok q =>
      rw [hr] at h
      exact nomatch h

theorem installSnapshot_spoilt {s s' : Node M} {src : NodeId} {is : InstallSnapshot M.Blob}
    {err : String} (h : s.handleInstallSnapshot src is = .error (err, s')) : ¬ Intact s s' := by
  unfold handleInstallSnapshot at h
  split at h
  · exact nomatch h
  · rename_i hge
    have hf := s.becomeFollower_spec (some src) (Nat.not_lt.mp hge)
    simp only [s.stepDown_eq (some src) hge] at h
    split at h
    · exact nomatch h
    · rename_i hnew
      split at h
      · simp only [Except.error.injEq, Prod.mk.injEq] at h
        obtain ⟨-, rfl⟩ := h
        rw [hf.snapLastIndex] at hnew
        intro hi
        exact hnew (Nat.le_of_eq hi.snapLastIndex)
      · exact nomatch h

theorem installSnapshotReply_spoilt {s s' : Node M} {src : NodeId} {isr : InstallSnapshotReply}
    {err : String} (h : s.handleInstallSnapshotReply src isr = .error (err, s')) :
    ¬ Intact s s' := by
  unfold handleInstallSnapshotReply at h
  split at h
  · exact nomatch h
  · split at h
    · exact nomatch h
    · have hlt : s.commitIndex < s'.commitIndex := (advanceFrom_error h).2
      exact fun hi => Nat.ne_of_gt hlt hi.commitIndex

theorem dispatch_intact_iff {s s' : Node M} {src : NodeId} {m : Msg M.Blob} {t : Nat}
    {err : String} (h : s.dispatch src m t = .error (err, s')) :
    Intact s s' ↔ ¬ s.Spoils src m := by
  cases m with
  | requestVote rv => cases h
  | requestVoteReply rvr =>
    obtain ⟨s₁, hs₁⟩ := s.handleRequestVoteReply_ok src rvr
    rw [dispatch, hs₁] at h
    cases h
  | appendEntries ae => exact appendEntries_intact_iff h
  | appendEntriesReply aer => exact appendEntriesReply_intact_iff h
  | clientRequest cr => exact iff_of_false (clientRequest_spoilt h) fun hn => hn trivial
  | clientReply m => cases h
  | installSnapshot is => exact iff_of_false (installSnapshot_spoilt h) fun hn => hn trivial
  | installSnapshotReply isr =>
    exact iff_of_false (installSnapshotReply_spoilt h) fun hn => hn trivial
  | readIndexRequest req => cases h
  | readIndexReply rep => cases h

/-! ## Payloads -/

/-- `on_message` of a payload, the exception handler apart. -/
def handlePayload (src : NodeId) (payload : List UInt8) (ticket : Nat) (s : Node Medium.bytes) :
    Res Medium.bytes :=
  if !s.running then .ok s
  else match nodeMessage payload with
    | .ok (some m) => s.dispatch src m ticket
    | .ok none => .ok s
    | .error e => .error (e, s)

/-- The exception handler keeps the state reached. -/
theorem onPayload_eq (src : NodeId) (payload : List UInt8) (ticket : Nat)
    (s : Node Medium.bytes) :
    s.onPayload src payload ticket = (s.handlePayload src payload ticket).state := by
  unfold onPayload handlePayload
  cases hrun : s.running with
  | false => rfl
  | true =>
    simp only [Bool.not_true, Bool.false_eq_true, if_false]
    cases nodeMessage payload with
    | error e => rfl
    | ok m =>
      cases m with
      | none => rfl
      | some m => simp only [onMessage, hrun, Bool.not_true, Bool.false_eq_true, if_false]

/-- **Which rejected messages leave the node intact.**  Whatever the state and the payload, if the
handling throws, the node is as it was, but for a later term, exactly if the payload did not decode
or the message had changed nothing by then. -/
theorem throws_intact_iff (s s' : Node Medium.bytes) (src : NodeId) (payload : List UInt8)
    (ticket : Nat) (err : String)
    (h : s.handlePayload src payload ticket = .error (err, s')) :
    Intact s s' ↔ ¬ ∃ m, nodeMessage payload = .ok (some m) ∧ s.Spoils src m := by
  unfold handlePayload at h
  split at h
  · exact nomatch h
  · split at h
    · rename_i m hm
      rw [dispatch_intact_iff h]
      constructor
      · rintro hn ⟨m', hm', hsp⟩
        rw [hm] at hm'
        obtain rfl : m = m' := by simpa using hm'
        exact hn hsp
      · exact fun hn hsp => hn ⟨m, hm, hsp⟩
    · exact nomatch h
    · rename_i e hm
      simp only [Except.error.injEq, Prod.mk.injEq] at h
      obtain ⟨-, rfl⟩ := h
      refine iff_of_true (Intact.refl s) ?_
      rintro ⟨m, hm', -⟩
      rw [hm] at hm'
      exact nomatch hm'

/-- Node 2 of two holds one entry, applied. -/
def holder : Node Medium.bytes :=
  ((init Medium.bytes 2 [1] {}).handle 0 .restart).handle 1 (.message 1 (.appendEntries
    ⟨1, 1, 0, 0, [⟨1, 1, .put (Str.lit "k") (Str.lit "a")⟩], 1⟩))

/-- A request for a vote without its fields is rejected by the decoder, and leaves no trace. -/
theorem throws_intact_iff_shortRequest :
    (holder.handlePayload 1 [1] 2).isOk = false ∧ Intact holder (holder.onPayload 1 [1] 2) := by
  have hrun : holder.running = true := by decide +kernel
  have hm : nodeMessage [1] = .error "Decoder: buffer underrun" := rfl
  have h : holder.handlePayload 1 [1] 2 = .error ("Decoder: buffer underrun", holder) := by
    rw [handlePayload, hrun, hm]
    rfl
  refine ⟨by rw [h]; rfl, ?_⟩
  rw [onPayload_eq, h]
  refine (throws_intact_iff holder holder 1 [1] 2 _ h).mpr ?_
  rintro ⟨m, hm', -⟩
  rw [hm] at hm'
  exact nomatch hm'

/-- A snapshot up to index 5 whose data is empty, so that not even its count can be read. -/
def emptySnapshot : List UInt8 := (Msg.installSnapshot ⟨1, 1, 5, 1, []⟩).encode

/-- **A rejected snapshot replaces the state it was to restore.**  The exception is caught, but the
node has lost its data and claims to hold a snapshot up to index 5. -/
theorem rejected_snapshot_replaces :
    (holder.handlePayload 1 emptySnapshot 2).isOk = false ∧
    holder.snapLastIndex = 0 ∧ (holder.onPayload 1 emptySnapshot 2).snapLastIndex = 5 ∧
    holder.localGet (Str.lit "k") = some (Str.lit "a") ∧
    (holder.onPayload 1 emptySnapshot 2).localGet (Str.lit "k") = none ∧
    (holder.onPayload 1 emptySnapshot 2).currentTerm = holder.currentTerm ∧
    ¬ Intact holder (holder.onPayload 1 emptySnapshot 2) := by
  refine ⟨by decide +kernel, by decide +kernel, by decide +kernel, by decide +kernel,
    by decide +kernel, by decide +kernel, fun hi => ?_⟩
  have hsnap : (holder.onPayload 1 emptySnapshot 2).snapLastIndex ≠ holder.snapLastIndex := by
    decide +kernel
  exact hsnap hi.snapLastIndex

end Node

end SimKV
