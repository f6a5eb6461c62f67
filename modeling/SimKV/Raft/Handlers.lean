/-
# Every handler is a sequence of moves

One spec lemma per member function of `SimKV.Raft.Node`, bottom up, ending in
`Node.handle_moves`: whatever the input, the step is a sequence of `Move`s from
the state it began in.  `Plan` is the shape of such a lemma for a function that
may throw: the state reached, exception or not, is reached by moves, no iteration
of the apply loop is left half done, and everything committed has been applied
(`Node.Rested`).
-/
import SimKV.Raft.Moves

namespace SimKV

variable {M : Medium} {n₀ : Node M} {t : Nat} {inp : Input M}

/-- No apply round is open, and everything committed has been applied. -/
def Node.Rested (s : Node M) : Prop := s.applying = none ∧ s.commitIndex ≤ s.lastApplied

theorem Node.Rested.of_eq {s s' : Node M} (h : s.Rested) (ha : s'.applying = s.applying)
    (hc : s'.commitIndex = s.commitIndex) (hl : s'.lastApplied = s.lastApplied) : s'.Rested :=
  ⟨ha.trans h.1, by rw [hc, hl]; exact h.2⟩

/-- From `s`, the result `r` is reached by moves, with nothing left to apply. -/
structure Plan (n₀ : Node M) (t : Nat) (inp : Input M) (s : Node M) (r : Res M) : Prop where
  moves : Moves n₀ t inp s r.state
  rest : r.state.Rested

namespace Plan

theorem stay {s : Node M} (hi : s.Rested) : Plan n₀ t inp s (.ok s) :=
  ⟨Relation.ReflTransGen.refl, hi⟩

theorem of_moves {s s' : Node M} {r : Res M} (h : Moves n₀ t inp s s') (h' : Plan n₀ t inp s' r) :
    Plan n₀ t inp s r := ⟨h.trans h'.moves, h'.rest⟩

theorem of_move {s s' : Node M} {r : Res M} (h : Move n₀ t inp s s') (h' : Plan n₀ t inp s' r) :
    Plan n₀ t inp s r := of_moves (.single h) h'

/-- Sequencing: an exception keeps the state reached, a value goes on. -/
theorem bind {s : Node M} {r : Res M} {f : Node M → Res M} (h : Plan n₀ t inp s r)
    (hf : ∀ s', r = .ok s' → Plan n₀ t inp s' (f s')) : Plan n₀ t inp s (r >>= f) := by
  cases r with
  | ok s' => exact of_moves h.moves (hf s' rfl)
  | error e => exact ⟨h.moves, h.rest⟩

end Plan

namespace Node

theorem QuietStep.move {s s' : Node M} (h : QuietStep s s') : Move n₀ t inp s s' := by
  obtain ⟨tm, es, hq, hst, rfl⟩ := h
  exact Move.quiet s tm es hq hst

/-! ## `become_follower` -/

/-- The effects with which reads are closed: the timer goes, the callback is called. -/
theorem forall_closedReads {P : Effect M → Prop} (prs : List PendingRead) (ok : Bool)
    (f : PendingRead → Option Str) (hc : ∀ r, P (.timer (.cancelRead r)))
    (hd : ∀ t v, P (.readDone t ok v)) :
    ∀ e ∈ prs.flatMap fun pr =>
      [.timer (.cancelRead pr.round), .readDone pr.ticket ok (f pr)], P e := by
  intro e he
  simp only [List.mem_flatMap, List.mem_cons, List.not_mem_nil, or_false] at he
  obtain ⟨pr, -, rfl | rfl⟩ := he
  · exact hc _
  · exact hd _ _

theorem quiet_cancelReads (prs : List PendingRead) :
    Quiet (M := M) (prs.flatMap fun pr =>
      [.timer (.cancelRead pr.round), .readDone pr.ticket false none]) :=
  forall_closedReads _ _ _ (fun _ => rfl) fun _ _ => rfl

theorem unstored_cancelReads (prs : List PendingRead) :
    Unstored (M := M) (prs.flatMap fun pr =>
      [.timer (.cancelRead pr.round), .readDone pr.ticket false none]) :=
  unstored_of_forall (forall_closedReads _ _ _ (fun _ => rfl) fun _ _ => rfl)

theorem becomeFollower_newTerm (s : Node M) {T : Nat} (l : Option NodeId)
    (h : s.currentTerm < T) : ∃ tm es, Quiet es ∧
      ({ s with currentTerm := T, votedFor := none } : Node M).Persists es ∧ s.becomeFollower T l =
      (({ s with
        currentTerm := T, votedFor := none, role := .follower, leaderId := l
        votesReceived := ∅, voteCount := 0, pendingReads := [], timers := tm }).persisted es) := by
  unfold becomeFollower
  simp only [h, decide_true, if_true, or_true, persist_eq]
  obtain ⟨tm₁, es₁, hq₁, hst₁, he₁⟩ := quietStep_cancelHeartbeat
    { (({ s with currentTerm := T, votedFor := none }).persisted
      (persistCalls { s with currentTerm := T, votedFor := none })).cancelPendingReads with
      role := .follower }
  rw [he₁]
  obtain ⟨tm₂, es₂, hq₂, hst₂, he₂⟩ := quietStep_resetElection (M := M) _
  rw [he₂]
  refine ⟨tm₂, persistCalls { s with currentTerm := T, votedFor := none } ++ (
    (s.pendingReads.flatMap fun pr =>
      [Effect.timer (.cancelRead pr.round), .readDone pr.ticket false none]) ++ (es₁ ++
      ([Effect.stateChange .follower T] ++ es₂))), ?_, ?_, ?_⟩
  · exact (quiet_persistCalls _).append ((quiet_cancelReads _).append (hq₁.append
      ((Quiet.singleton rfl).append hq₂)))
  · exact Persists.append ((unstored_cancelReads _).append (hst₁.append
      ((Unstored.singleton rfl).append hst₂)))
  · simp only [emit, cancelPendingReads, persisted, List.append_assoc]

theorem becomeFollower_same (s : Node M) (l : Option NodeId) :
    ∃ tm prs es, Quiet es ∧ Unstored es ∧
      (prs = [] ∨ (prs = s.pendingReads ∧ s.role = .follower)) ∧
      s.becomeFollower s.currentTerm l =
        { s with
          role := .follower, leaderId := l, votesReceived := ∅, voteCount := 0
          pendingReads := prs, timers := tm, out := s.out ++ es } := by
  unfold becomeFollower
  simp only [gt_iff_lt, lt_irrefl, decide_false, Bool.false_eq_true, if_false, or_false]
  by_cases hr : s.role = .follower
  · rw [if_neg (not_not_intro hr)]
    obtain ⟨tm₂, es₂, hq₂, hst₂, he₂⟩ := quietStep_resetElection
      { s with leaderId := l, votesReceived := ∅, voteCount := 0 }
    rw [he₂]
    exact ⟨tm₂, s.pendingReads, es₂, hq₂, hst₂, Or.inr ⟨rfl, hr⟩, by rw [hr]⟩
  · rw [if_pos hr]
    obtain ⟨tm₁, es₁, hq₁, hst₁, he₁⟩ := quietStep_cancelHeartbeat
      { s.cancelPendingReads with role := .follower }
    rw [he₁]
    obtain ⟨tm₂, es₂, hq₂, hst₂, he₂⟩ := quietStep_resetElection (M := M) _
    rw [he₂]
    refine ⟨tm₂, [], (s.pendingReads.flatMap fun pr =>
      [Effect.timer (.cancelRead pr.round), .readDone pr.ticket false none]) ++ (es₁ ++
      ([Effect.stateChange .follower s.currentTerm] ++ es₂)), ?_, ?_, Or.inl rfl, ?_⟩
    · exact (quiet_cancelReads _).append (hq₁.append ((Quiet.singleton rfl).append hq₂))
    · exact (unstored_cancelReads _).append (hst₁.append ((Unstored.singleton rfl).append hst₂))
    · simp only [emit, cancelPendingReads, List.append_assoc]

theorem becomeFollower_move (s : Node M) {T : Nat} (l : Option NodeId) (h : s.currentTerm ≤ T)
    (h₀ : s = n₀) : Move n₀ t inp s (s.becomeFollower T l) := by
  rcases Nat.eq_or_lt_of_le h with rfl | hlt
  · obtain ⟨tm, prs, es, hq, hst, hprs, he⟩ := s.becomeFollower_same l
    rw [he]
    exact Move.follow s l tm prs es hq hprs (Or.inl h₀) hst
  · obtain ⟨tm, es, hq, hst, he⟩ := s.becomeFollower_newTerm l hlt
    rw [he]
    exact Move.newTerm s T l tm es hq hlt h₀ hst

/-- What a node that stepped down to term `T` has kept. -/
structure SteppedDown (s : Node M) (T : Nat) (s' : Node M) : Prop where
  term : s'.currentTerm = T
  role : s'.role = .follower
  log : s'.log = s.log
  peers : s'.peers = s.peers
  pendingClients : s'.pendingClients = s.pendingClients
  snapLastIndex : s'.snapLastIndex = s.snapLastIndex
  lastApplied : s'.lastApplied = s.lastApplied
  commitIndex : s'.commitIndex = s.commitIndex
  applying : s'.applying = s.applying
  out : ∀ e ∈ s.out, e ∈ s'.out
  quiet : ∀ e ∈ s'.out, e ∈ s.out ∨ e.quiet = true

theorem becomeFollower_spec (s : Node M) {T : Nat} (l : Option NodeId) (h : s.currentTerm ≤ T) :
    SteppedDown s T (s.becomeFollower T l) := by
  rcases Nat.eq_or_lt_of_le h with rfl | hlt
  · obtain ⟨tm, prs, es, hq, -, -, he⟩ := s.becomeFollower_same l
    rw [he]
    exact ⟨rfl, rfl, rfl, rfl, rfl, rfl, rfl, rfl, rfl, fun e h => List.mem_append_left _ h,
      fun e h => (List.mem_append.mp h).imp_right (hq e)⟩
  · obtain ⟨tm, es, hq, -, he⟩ := s.becomeFollower_newTerm l hlt
    rw [he]
    exact ⟨rfl, rfl, rfl, rfl, rfl, rfl, rfl, rfl, rfl, fun e h => List.mem_append_left _ h,
      fun e h => (List.mem_append.mp h).imp_right (hq e)⟩

theorem SteppedDown.rested {s s' : Node M} {T : Nat} (h : SteppedDown s T s') (hi : s.Rested) :
    s'.Rested := hi.of_eq h.applying h.commitIndex h.lastApplied

/-- The two calls of `become_follower` in a handler are one. -/
theorem stepDown_eq (s : Node M) {T : Nat} (l : Option NodeId) (h : ¬ T < s.currentTerm) :
    (if T > s.currentTerm then s.becomeFollower T l else s.becomeFollower s.currentTerm l) =
      s.becomeFollower T l := by
  split
  · rfl
  · rename_i hle
    rw [show s.currentTerm = T by omega]

/-! ## Replication -/

theorem sendInstallSnapshot_moves (s : Node M) {peer : NodeId} (hbook : Booked n₀ s inp peer)
    (h : s.role = .leader) (hnext : s.nextIndex.getD peer 0 ≤ s.snapLastIndex) :
    Moves n₀ t inp s (s.sendInstallSnapshot peer) := by
  unfold sendInstallSnapshot
  split
  · exact .refl
  · rename_i hsnap
    exact .single (Move.sendSnapshot s peer hbook h hsnap hnext)

theorem sendInstallSnapshot_frame (s : Node M) (peer : NodeId) :
    ∃ es, s.sendInstallSnapshot peer = { s with out := s.out ++ es } := by
  unfold sendInstallSnapshot
  split
  · exact ⟨[], by simp⟩
  · exact ⟨_, rfl⟩

theorem sendAppend_frame (s : Node M) (peer : NodeId) (prev : Nat) (pt : Nat) :
    ∃ nx es, s.sendAppend peer prev pt = { s with nextIndex := nx, out := s.out ++ es } :=
  ⟨_, _, rfl⟩

theorem replicateTo_moves (s : Node M) {peer : NodeId} (hbook : Booked n₀ s inp peer) :
    Moves n₀ t inp s (s.replicateTo peer).state := by
  unfold replicateTo
  by_cases hrole : s.role = .leader
  · rw [if_neg (by simp [hrole])]
    refine Relation.ReflTransGen.head (Move.touchNext s peer hbook hrole) ?_
    generalize hs : ({ s with nextIndex := s.nextIndex.touch peer 0 } : Node M) = s₁
    have hrole₁ : s₁.role = .leader := by rw [← hs]; exact hrole
    have hbook₁ : Booked n₀ s₁ inp peer := by rw [← hs]; exact hbook
    simp only
    split
    · rename_i hsnap
      exact sendInstallSnapshot_moves s₁ hbook₁ hrole₁ hsnap
    · rename_i hsnap
      split
      · rename_i hprev
        split
        · exact .refl
        · rename_i tm htm
          exact .single (Move.sendAppend s₁ peer _ _ hbook₁ hrole₁ rfl (by omega)
            (Or.inr ⟨by omega, tm, htm, rfl⟩))
      · exact .single (Move.sendAppend s₁ peer _ _ hbook₁ hrole₁ rfl (by omega)
          (Or.inl ⟨by omega, rfl⟩))
  · rw [if_pos hrole]
    exact .refl

/-- Replication touches `next_index_` and the outbox only. -/
theorem replicateTo_frame (s : Node M) (peer : NodeId) :
    ∃ nx es, (s.replicateTo peer).state = { s with nextIndex := nx, out := s.out ++ es } := by
  unfold replicateTo
  split
  · exact ⟨s.nextIndex, [], by simp [Res.state]⟩
  · simp only
    split
    · obtain ⟨es, he⟩ := sendInstallSnapshot_frame
        { s with nextIndex := s.nextIndex.touch peer 0 } peer
      exact ⟨s.nextIndex.touch peer 0, es, he⟩
    · split
      · split
        · exact ⟨s.nextIndex.touch peer 0, [], by simp [Res.state]⟩
        · obtain ⟨nx, es, he⟩ := sendAppend_frame
            { s with nextIndex := s.nextIndex.touch peer 0 } peer _ _
          exact ⟨nx, es, he⟩
      · obtain ⟨nx, es, he⟩ := sendAppend_frame
          { s with nextIndex := s.nextIndex.touch peer 0 } peer _ _
        exact ⟨nx, es, he⟩

theorem replicateList_moves (ps : List NodeId) (s : Node M) (hps : ∀ p ∈ ps, p ∈ s.peers) :
    Moves n₀ t inp s (Res.state (ps.foldlM (fun s peer => s.replicateTo peer) s)) ∧
      ∃ nx es, Res.state (ps.foldlM (fun s peer => s.replicateTo peer) s) =
        { s with nextIndex := nx, out := s.out ++ es } := by
  induction ps generalizing s with
  | nil => exact ⟨.refl, s.nextIndex, [], by simp [Res.state, pure, Except.pure]⟩
  | cons p ps ih =>
    rw [List.foldlM_cons]
    have hp := hps p List.mem_cons_self
    have hm : Moves n₀ t inp s _ := replicateTo_moves s (Or.inl hp)
    obtain ⟨nx, es, hf⟩ := s.replicateTo_frame p
    cases hr : s.replicateTo p with
    | error e =>
      rw [hr] at hm hf
      exact ⟨hm, nx, es, hf⟩
    | ok s' =>
      rw [hr] at hm hf
      have hs' : s' = { s with nextIndex := nx, out := s.out ++ es } := hf
      obtain ⟨hm', nx', es', hf'⟩ := ih s' fun p' hp' => by
        rw [hs']; exact hps p' (List.mem_cons_of_mem _ hp')
      refine ⟨hm.trans hm', nx', es ++ es', ?_⟩
      exact hf'.trans (by rw [hs']; simp)

theorem replicateAll_moves (s : Node M) : Moves n₀ t inp s s.replicateAll.state :=
  (replicateList_moves s.peers s fun _ h => h).1

theorem replicateAll_frame (s : Node M) :
    ∃ nx es, s.replicateAll.state = { s with nextIndex := nx, out := s.out ++ es } :=
  have h : Moves s 0 .crash s _ ∧ _ := replicateList_moves s.peers s fun _ h => h
  h.2

/-- To a peer that has the whole log, the window is empty. -/
theorem sendAppend_uptodate (s : Node M) (peer : NodeId) (pt : Nat) :
    (s.sendAppend peer s.log.lastIndex pt).nextIndex = s.nextIndex := by
  have hwin : s.window s.log.lastIndex = [] := by
    rw [window, RaftLog.slice, if_pos (Nat.min_le_right _ _)]
  change s.nextAfter peer (s.window s.log.lastIndex) = s.nextIndex
  rw [hwin]
  rfl

/-- To a peer whose next index is the end of the log, replication does not throw, and the next
indices stay. -/
theorem replicateTo_uptodate (s : Node M) {peer : NodeId}
    (h : s.nextIndex.getD peer 0 = s.log.lastIndex + 1) :
    ∃ s', s.replicateTo peer = .ok s' ∧ s'.log = s.log ∧
      ∀ q, s'.nextIndex.getD q 0 = s.nextIndex.getD q 0 := by
  obtain ⟨t, ht⟩ := s.log.exists_termAt_lastIndex
  have htouch : ∀ s₁ : Node M, s₁.nextIndex = s.nextIndex.touch peer 0 →
      ∀ q, s₁.nextIndex.getD q 0 = s.nextIndex.getD q 0 := by
    intro s₁ hs₁ q
    rw [hs₁, OrdMap.getD_touch]
  have hsend := sendAppend_uptodate { s with nextIndex := s.nextIndex.touch peer 0 } peer
  unfold replicateTo
  simp only [OrdMap.getD_touch, h, Nat.add_sub_cancel, ht]
  split
  · exact ⟨s, rfl, rfl, fun _ => rfl⟩
  · split
    · refine ⟨_, rfl, ?_, htouch _ ?_⟩
      · unfold sendInstallSnapshot
        split <;> rfl
      · unfold sendInstallSnapshot
        split <;> rfl
    · split
      · exact ⟨_, rfl, rfl, htouch _ (hsend _)⟩
      · exact ⟨_, rfl, rfl, htouch _ (hsend _)⟩

/-! ## Applying -/

/-- What a stretch of applying leaves alone: the term and the commit index stay, the role is
kept or given up, and no effect is taken back. -/
structure Onward (s s' : Node M) : Prop where
  term : s'.currentTerm = s.currentTerm
  commit : s'.commitIndex = s.commitIndex
  role : s'.role = s.role ∨ s'.role = .follower
  out : ∀ e ∈ s.out, e ∈ s'.out

theorem Onward.refl (s : Node M) : Onward s s := ⟨rfl, rfl, Or.inl rfl, fun _ h => h⟩

theorem Onward.trans {s s' s'' : Node M} (h : Onward s s') (h' : Onward s' s'') : Onward s s'' :=
  ⟨h'.term.trans h.term, h'.commit.trans h.commit,
    h'.role.elim (fun h' => h.role.imp h'.trans h'.trans) Or.inr,
    fun e he => h'.out e (h.out e he)⟩

/-- A node that is no candidate does not become one by applying. -/
theorem Onward.unelected {s s' : Node M} (h : Onward s s') (hr : s.role ≠ .candidate) :
    s'.role ≠ .candidate := by
  rcases h.role with h | h
  · rw [h]; exact hr
  · rw [h]; decide

theorem invoke_frame (s : Node M) (cb : Callback) (r : CmdResult) :
    ∃ es, s.invoke cb r = { s with out := s.out ++ es } := by
  unfold invoke
  cases cb.origin with
  | none => exact ⟨_, rfl⟩
  | some p => exact ⟨[.clientDone cb r, _], by simp [send, emit]; rfl⟩

theorem answer_frame (s : Node M) (r : CmdResult) : ∃ pc es, s.answer r =
    { s with pendingClients := pc, applying := none, out := s.out ++ es } := by
  unfold answer
  split
  · exact ⟨s.pendingClients, [], by simp⟩
  · rename_i cb _
    obtain ⟨es, he⟩ := s.invoke_frame cb r
    exact ⟨_, es, by rw [he]⟩

theorem answer_move (s : Node M) (e : LogEntry) (kv : KvStore) (happ : s.applying = some (e, kv))
    (hdone : s.Reflects e.cmd)
    (hpend : e.cmd.isConfig = true → s.configChangePending = false) :
    Move n₀ t inp s (s.answer (kv.apply e.cmd).2) := by
  obtain ⟨pc, es, ha⟩ := s.answer_frame (kv.apply e.cmd).2
  exact ha ▸ Move.answer s e kv happ hdone hpend pc es ha

theorem answer_onward (s : Node M) (r : CmdResult) :
    Onward s (s.answer r) ∧ (s.answer r).applying = none ∧
      (s.answer r).lastApplied = s.lastApplied ∧ (s.answer r).log = s.log := by
  obtain ⟨pc, es, he⟩ := s.answer_frame r
  rw [he]
  exact ⟨⟨rfl, rfl, Or.inl rfl, fun _ h => List.mem_append_left _ h⟩, rfl, rfl, rfl⟩

theorem joinPeer_frame (s : Node M) (newId : NodeId) :
    ∃ ps nx mx, s.joinPeer newId = { s with peers := ps, nextIndex := nx, matchIndex := mx } := by
  unfold joinPeer
  simp only
  split
  · exact ⟨_, _, _, rfl⟩
  · exact ⟨_, _, _, rfl⟩

theorem joinPeer_peers (s : Node M) (newId : NodeId) :
    (s.joinPeer newId).peers = (s.peers ++ [newId]).insertionSort (· ≤ ·) := by
  unfold joinPeer
  simp only
  split <;> rfl

theorem mem_joinPeer (s : Node M) {m newId : NodeId} :
    m ∈ (s.joinPeer newId).peers ↔ m ∈ s.peers ∨ m = newId := by
  rw [joinPeer_peers, (List.perm_insertionSort _ _).mem_iff, List.mem_append, List.mem_singleton]

/-- The state after the membership part of an apply round. -/
structure Changed (s : Node M) (cmd : Command) (s' : Node M) : Prop extends Onward s s' where
  applying : s'.applying = s.applying
  lastApplied : s'.lastApplied = s.lastApplied
  log : s'.log = s.log
  reflects : s'.Reflects cmd

/-- The membership part of an apply round never throws. -/
theorem applyMembershipChange_spec (s : Node M) {e : LogEntry} {kv : KvStore}
    (happ : s.applying = some (e, kv)) (hr : s.role ≠ .candidate) :
    ∃ s', s.applyMembershipChange e.cmd = .ok s' ∧ Moves n₀ t inp s s' ∧ Changed s e.cmd s' := by
  cases hc : e.cmd with
  | addServer newId =>
    rw [applyMembershipChange]
    split
    · rename_i hnew
      have hmem : newId ∈ (s.joinPeer newId).peers := s.mem_joinPeer.mpr (Or.inr rfl)
      obtain ⟨ps, nx, mx, hj⟩ := s.joinPeer_frame newId
      have hm : Move n₀ t inp s (s.joinPeer newId) :=
        hj ▸ Move.joinPeer s e kv newId happ hc hnew.1 hnew.2 hr ps nx mx hj
      simp only
      split
      · rename_i hrole
        have hnext : (s.joinPeer newId).nextIndex.getD newId 0 =
            (s.joinPeer newId).log.lastIndex + 1 := by
          have hr : s.role = .leader := by rw [hj] at hrole; exact hrole
          simp [joinPeer, hr]
        obtain ⟨s', hs', -⟩ := replicateTo_uptodate _ hnext
        have hmr : Moves n₀ t inp _ _ :=
          replicateTo_moves (s.joinPeer newId) (Or.inl hmem)
        obtain ⟨nx', es', hf⟩ := (s.joinPeer newId).replicateTo_frame newId
        rw [hs'] at hmr hf
        have hs'' : s' = { s.joinPeer newId with
          nextIndex := nx', out := (s.joinPeer newId).out ++ es' } := hf
        refine ⟨s', hs', .head hm hmr, ?_⟩
        rw [hj] at hs'' hmem
        rw [hs'']
        exact ⟨⟨rfl, rfl, Or.inl rfl, fun _ h => List.mem_append_left _ h⟩, rfl, rfl, rfl,
          Or.inr hmem⟩
      · refine ⟨_, rfl, .single hm, ?_⟩
        rw [hj] at hmem ⊢
        exact ⟨⟨rfl, rfl, Or.inl rfl, fun _ h => h⟩, rfl, rfl, rfl, Or.inr hmem⟩
    · rename_i hnew
      refine ⟨s, rfl, .refl, Onward.refl s, rfl, rfl, rfl, ?_⟩
      by_cases hid : newId = s.id
      · exact Or.inl hid
      · exact Or.inr (by_contra fun h => hnew ⟨h, hid⟩)
  | removeServer remId =>
    rw [applyMembershipChange]
    have hm : Move n₀ t inp s (s.leavePeer remId) := Move.leavePeer s e kv remId happ hc hr
    have hgone : remId ∉ (s.leavePeer remId).peers := by simp [leavePeer]
    split
    · rename_i hself
      have hf := (s.leavePeer remId).becomeFollower_spec none (Nat.le_refl _)
      obtain ⟨tm, prs, es, hq, hst, hprs, he⟩ := (s.leavePeer remId).becomeFollower_same none
      have hm' : Move n₀ t inp (s.leavePeer remId)
          ((s.leavePeer remId).becomeFollower (s.leavePeer remId).currentTerm none) := by
        rw [he]
        exact Move.follow _ none tm prs es hq hprs
          (Or.inr ⟨e, kv, happ, hc.trans (congrArg Command.removeServer hself.1)⟩) hst
      refine ⟨_, rfl, .tail (.single hm) hm', ⟨hf.term, hf.commitIndex, Or.inr hf.role, hf.out⟩,
        hf.applying, hf.lastApplied, hf.log, ?_⟩
      change remId ∉ Node.peers _
      rw [hf.peers]
      exact hgone
    · exact ⟨_, rfl, .single hm, ⟨rfl, rfl, Or.inl rfl, fun _ h => h⟩, rfl, rfl, rfl, hgone⟩
  | put key value => exact ⟨s, rfl, .refl, Onward.refl s, rfl, rfl, rfl, trivial⟩
  | delete key => exact ⟨s, rfl, .refl, Onward.refl s, rfl, rfl, rfl, trivial⟩
  | cas key expected value => exact ⟨s, rfl, .refl, Onward.refl s, rfl, rfl, rfl, trivial⟩
  | get key => exact ⟨s, rfl, .refl, Onward.refl s, rfl, rfl, rfl, trivial⟩

/-- The state after an apply round. -/
structure Round (n₀ : Node M) (t : Nat) (inp : Input M) (s s' : Node M) : Prop
    extends Onward s s' where
  moves : Moves n₀ t inp s s'
  idle : s'.applying = none
  lastApplied : s'.lastApplied = s.lastApplied + 1
  log : s'.log = s.log

/-- With the committed entries in the log, an apply round does not throw. -/
theorem applyOne_round (s : Node M) (hi : s.applying = none) (hlt : s.lastApplied < s.commitIndex)
    (hlast : s.commitIndex ≤ s.log.lastIndex) (hr : s.role ≠ .candidate) :
    ∃ s', s.applyOne = .ok s' ∧ Round n₀ t inp s s' := by
  unfold applyOne
  simp only
  split
  · rename_i hbase
    exact ⟨_, rfl, ⟨rfl, rfl, Or.inl rfl, fun _ h => h⟩, .single (Move.skipApplied s hlt hbase),
      hi, rfl, rfl⟩
  · rename_i hbase
    obtain ⟨e, he⟩ := RaftLog.exists_entryAt (l := s.log) (i := s.lastApplied + 1)
      (Nat.not_le.mp hbase) (by omega)
    -- the round: apply, change the membership if the entry says so, answer
    have hm : Move n₀ t inp s (({ s with lastApplied := s.lastApplied + 1 }).applyKv e) :=
      Move.applyKv s e hlt hi he
    simp only [he]
    generalize hs₁ : ({ s with lastApplied := s.lastApplied + 1 } : Node M).applyKv e = s₁
    rw [hs₁] at hm
    have happ : s₁.applying = some (e, s.kv) := by rw [← hs₁]; rfl
    have hla : s₁.lastApplied = s.lastApplied + 1 := by rw [← hs₁]; rfl
    have hlog : s₁.log = s.log := by rw [← hs₁]; rfl
    have hon : Onward s s₁ := by
      rw [← hs₁]; exact ⟨rfl, rfl, Or.inl rfl, fun _ h => List.mem_append_left _ h⟩
    by_cases hc : e.cmd.isConfig = true
    · obtain ⟨s₂, hs₂, hm₂, hch⟩ : ∃ s₂, _ ∧ Moves n₀ t inp s₁ s₂ ∧ _ :=
        applyMembershipChange_spec s₁ happ (hon.unelected hr)
      have happ₂ := hch.applying.trans happ
      have hm₃ : Move n₀ t inp s₂ { s₂ with configChangePending := false } :=
        Move.configDone s₂ e s.kv happ₂ hc
      have hm₄ : Move n₀ t inp { s₂ with configChangePending := false } _ :=
        answer_move _ e s.kv happ₂ (hch.reflects.of_eq rfl rfl) fun _ => rfl
      obtain ⟨ho, ha, hl, hlg⟩ := answer_onward { s₂ with configChangePending := false }
        (s.kv.apply e.cmd).2
      simp only [hc, if_true, hs₂, bind, Except.bind, pure, Except.pure]
      exact ⟨_, rfl, (hon.trans hch.toOnward).trans ⟨ho.term, ho.commit, ho.role, ho.out⟩,
        ((Relation.ReflTransGen.single hm).trans hm₂).tail hm₃ |>.tail hm₄, ha,
        hl.trans (hch.lastApplied.trans hla), hlg.trans (hch.log.trans hlog)⟩
    · have hm₄ : Move n₀ t inp s₁ _ := answer_move _ e s.kv happ
        (by revert hc; cases e.cmd <;> simp [Command.isConfig, Reflects]) fun h => absurd h hc
      obtain ⟨ho, ha, hl, hlg⟩ := answer_onward s₁ (s.kv.apply e.cmd).2
      simp only [hc, Bool.false_eq_true, if_false, bind, Except.bind, pure, Except.pure]
      exact ⟨_, rfl, hon.trans ho, (Relation.ReflTransGen.single hm).tail hm₄, ha, hl.trans hla,
        hlg.trans hlog⟩

/-- The loop applies everything committed. -/
theorem applyLoop_spec (k : Nat) (s : Node M) (hi : s.applying = none)
    (hk : s.lastApplied + k = s.commitIndex) (hlast : s.commitIndex ≤ s.log.lastIndex)
    (hr : s.role ≠ .candidate) :
    ∃ s', applyLoop k s = .ok s' ∧ Moves n₀ t inp s s' ∧ s'.Rested ∧ Onward s s' := by
  induction k generalizing s with
  | zero => exact ⟨s, rfl, .refl, ⟨hi, Nat.le_of_eq hk.symm⟩, Onward.refl s⟩
  | succ k ih =>
    obtain ⟨s₁, hs₁, hround⟩ : ∃ s₁, _ ∧ Round n₀ t inp s s₁ :=
      applyOne_round s hi (by omega) hlast hr
    obtain ⟨s₂, hs₂, hm, hrest, hon⟩ := ih s₁ hround.idle
      (by rw [hround.lastApplied, hround.commit]; omega)
      (by rw [hround.commit, hround.log]; exact hlast) (hround.unelected hr)
    rw [applyLoop, hs₁]
    exact ⟨s₂, hs₂, hround.moves.trans hm, hrest, hround.toOnward.trans hon⟩

theorem takeSnapshot_plan (s : Node M) (hi : s.Rested) (hthr : 0 < s.cfg.snapshotThreshold) :
    Plan n₀ t inp s s.takeSnapshot ∧ Onward s s.takeSnapshot.state := by
  unfold takeSnapshot
  split
  · exact ⟨Plan.stay hi, Onward.refl s⟩
  · rename_i hlt
    cases ht : s.log.termAt s.lastApplied with
    | none => exact ⟨⟨.refl, hi⟩, Onward.refl s⟩
    | some tm =>
      simp only [saveSnapshot_eq, persist_eq]
      generalize hc₁ : snapshotCalls _ = c₁
      generalize hc₂ : persistCalls _ = c₂
      have hq : Quiet (c₁ ++ c₂) := by
        rw [← hc₁, ← hc₂]
        exact (quiet_snapshotCalls _).append (quiet_persistCalls _)
      refine ⟨⟨.single ?_, hi⟩, rfl, rfl, Or.inl rfl, fun _ h =>
        List.mem_append_left _ (List.mem_append_left _ h)⟩
      have h : Move n₀ t inp s _ := Move.snapshot s tm (c₁ ++ c₂) hq hthr
        (Nat.not_le.mp hlt) ht (by rw [← hc₁, ← hc₂]; rfl)
      simpa only [Res.state, persisted, List.append_assoc] using h

theorem afterApply_plan (s : Node M) (hi : s.Rested) :
    Plan n₀ t inp s s.afterApply ∧ Onward s s.afterApply.state := by
  have hm : Move n₀ t inp s s.drainPendingReads := Move.drain s
  have hon : Onward s s.drainPendingReads :=
    ⟨rfl, rfl, Or.inl rfl, fun _ h => List.mem_append_left _ h⟩
  have hi' : s.drainPendingReads.Rested := hi
  unfold afterApply
  simp only
  split
  · rename_i hthr
    obtain ⟨hp, hok⟩ : Plan n₀ t inp _ _ ∧ _ := takeSnapshot_plan _ hi' hthr.1
    exact ⟨Plan.of_move hm hp, hon.trans hok⟩
  · exact ⟨⟨.single hm, hi'⟩, hon⟩

theorem applyCommittedEntries_plan (s : Node M) (hi : s.applying = none)
    (h : (s.commitIndex ≤ s.log.lastIndex ∧ s.role ≠ .candidate) ∨
      s.commitIndex ≤ s.lastApplied) :
    Plan n₀ t inp s s.applyCommittedEntries ∧ Onward s s.applyCommittedEntries.state := by
  have hloop : ∃ s', applyLoop (s.commitIndex - s.lastApplied) s = .ok s' ∧
      Moves n₀ t inp s s' ∧ s'.Rested ∧ Onward s s' := by
    rcases Nat.lt_or_ge s.lastApplied s.commitIndex with hlt | hle
    · obtain ⟨hlast, hr⟩ := h.resolve_right (Nat.not_le.mpr hlt)
      exact applyLoop_spec _ s hi (by omega) hlast hr
    · rw [Nat.sub_eq_zero_of_le hle]
      exact ⟨s, rfl, .refl, ⟨hi, hle⟩, Onward.refl s⟩
  obtain ⟨s₁, hs₁, hm, hrest, hon⟩ := hloop
  obtain ⟨hp, hok⟩ : Plan n₀ t inp s₁ _ ∧ _ := afterApply_plan s₁ hrest
  rw [applyCommittedEntries, hs₁]
  exact ⟨Plan.of_moves hm hp, hon.trans hok⟩

/-! ## Committing -/

theorem advanceFrom_plan (k : Nat) (s : Node M) (hi : s.Rested)
    (hrole : s.role = .leader) (h₀ : n₀.role = .leader ∧ s.peers = n₀.peers)
    (hk : k ≤ s.log.lastIndex) : Plan n₀ t inp s (advanceFrom k s) := by
  induction k with
  | zero => exact Plan.stay hi
  | succ k ih =>
    rw [advanceFrom]
    split
    · exact Plan.stay hi
    · rename_i hlt
      split
      · exact Plan.stay hi
      · rename_i hbase
        split
        · exact ih (by omega)
        · rename_i hterm
          split
          · rename_i hcount
            have hterm' : s.cfg.bugCommitPriorTerm = true ∨
                (s.log.entryAt (k + 1)).map LogEntry.term = some s.currentTerm := by
              by_cases hb : s.cfg.bugCommitPriorTerm = true
              · exact Or.inl hb
              · right
                by_contra hne
                exact hterm ⟨by simp [hb], hne⟩
            exact Plan.of_move
              (Move.commit s (k + 1) hrole (by omega) (by omega) hk hterm' hcount h₀)
              (applyCommittedEntries_plan { s with commitIndex := k + 1 } hi.1
                (Or.inl ⟨hk, by change s.role ≠ _; rw [hrole]; decide⟩)).1
          · exact ih (by omega)

theorem maybeAdvance_plan (s : Node M) (hi : s.Rested) (hrole : s.role = .leader)
    (h₀ : n₀.role = .leader ∧ s.peers = n₀.peers) : Plan n₀ t inp s s.maybeAdvanceCommitIndex :=
  advanceFrom_plan _ s hi hrole h₀ (Nat.le_refl _)

/-! ## Elections -/

/-- A map filled with one value. -/
theorem find?_fillIndex (ps : List NodeId) (v : Nat) (q : NodeId) :
    (fillIndex ps v).find? q = if q ∈ ps then some v else none := by
  have key : ∀ acc : OrdMap NodeId Nat, (ps.foldl (fun m p => m.insert p v) acc).find? q =
      if q ∈ ps then some v else acc.find? q := by
    induction ps with
    | nil => intro acc; simp
    | cons p ps ih =>
      intro acc
      rw [List.foldl_cons, ih]
      by_cases hq : q ∈ ps
      · simp [hq]
      · by_cases hqp : q = p
        · subst hqp
          simp [hq, OrdMap.find?_insert_self]
        · simp [hq, hqp, OrdMap.find?_insert_of_ne acc v hqp]
  exact key OrdMap.empty

theorem takeOffice_eq (s : Node M) : ∃ tm es, Quiet es ∧ Unstored es ∧ s.takeOffice =
    { s with
      role := .leader, leaderId := some s.id, votesReceived := ∅, voteCount := 0
      nextIndex := (fillIndex s.peers (s.log.lastIndex + 1)).insert s.id (s.log.lastIndex + 1)
      matchIndex := (fillIndex s.peers 0).insert s.id s.log.lastIndex
      timers := tm, out := s.out ++ es } := by
  unfold takeOffice
  obtain ⟨tm₁, es₁, hq₁, hst₁, he₁⟩ := quietStep_cancelElection
    { s with role := .leader, leaderId := some s.id, votesReceived := ∅, voteCount := 0 }
  simp only [he₁]
  obtain ⟨tm₂, es₂, hq₂, hst₂, he₂⟩ := quietStep_scheduleHeartbeat (M := M) _
  rw [he₂]
  exact ⟨tm₂, es₁ ++ ([Effect.stateChange .leader s.currentTerm] ++ es₂),
    hq₁.append ((Quiet.singleton rfl).append hq₂),
    hst₁.append ((Unstored.singleton rfl).append hst₂), by simp only [emit, List.append_assoc]⟩

theorem becomeLeader_plan (s : Node M) (hi : s.Rested) (hrole : s.role = .candidate)
    (hcount : s.quorum ≤ s.voteCount) (hpeers : s.peers = n₀.peers) (hwins : n₀.wins inp = true)
    (hkept : Untouched n₀ s) : Plan n₀ t inp s s.becomeLeader := by
  obtain ⟨tm, es, hq, hst, he⟩ := s.takeOffice_eq
  have hm : Move n₀ t inp s s.takeOffice := by
    rw [he]
    exact Move.win s tm es hq hrole hcount hpeers hwins hkept hst
  have hidle : s.takeOffice.replicateAll.state.Rested := by
    obtain ⟨nx, es', he'⟩ := s.takeOffice.replicateAll_frame
    rw [he', he]
    exact hi
  unfold becomeLeader
  rw [if_neg (by rw [hrole]; decide)]
  exact Plan.of_move hm ⟨replicateAll_moves _, hidle⟩

theorem standForElection_eq (s : Node M) : ∃ tm es es', Quiet es ∧ Quiet es' ∧
    ({ s with currentTerm := s.currentTerm + 1, votedFor := some s.id } : Node M).Persists es ∧
    Unstored es' ∧ .stateChange .candidate (s.currentTerm + 1) ∈ es ∧
    s.standForElection = (({ s with
      currentTerm := s.currentTerm + 1, role := .candidate, votedFor := some s.id
      votesReceived := ∅, voteCount := 1, electionTerm := s.currentTerm + 1
      leaderId := none, timers := tm }).persisted
        (es ++ (s.peers.map fun d => Effect.send d (.requestVote
          ⟨s.currentTerm + 1, s.id, s.log.lastIndex, s.log.lastTerm⟩)) ++ es')) := by
  unfold standForElection
  simp only [persist_eq]
  generalize hc : persistCalls _ = calls
  obtain ⟨tm, es, hq, hst, he⟩ := quietStep_resetElection (M := M) _
  rw [he]
  refine ⟨tm, calls ++ [Effect.stateChange .candidate (s.currentTerm + 1)], es, ?_, hq, ?_, hst,
    by simp, ?_⟩
  · rw [← hc]
    exact (quiet_persistCalls _).append (Quiet.singleton rfl)
  · rw [← hc]
    exact Persists.append (Unstored.singleton rfl)
  · simp only [emit, persisted, sendAll, List.append_assoc]

theorem becomeCandidate_plan (s : Node M) (hi : s.Rested) (hrole : s.role ≠ .leader) {gen : Nat}
    (hinp : inp = .electionTimer gen) (hgen : gen = n₀.timers.electionGeneration)
    (h₀ : ∃ tm, s = { n₀ with timers := tm }) : Plan n₀ t inp s s.becomeCandidate := by
  unfold becomeCandidate
  split
  · exact Plan.stay hi
  · rename_i hrun
    have hpeers : s.peers = n₀.peers := by obtain ⟨tm, h₀⟩ := h₀; rw [h₀]
    obtain ⟨tm, es, es', hq, hq', hst, hst', hes, he⟩ := s.standForElection_eq
    have hm : Move n₀ t inp s s.standForElection := by
      rw [he]
      exact Move.stand s tm es es' hq hq' (by simpa using hrun) hrole hpeers
        (hgen ▸ hinp) h₀ hes hst hst'
    have hi' : s.standForElection.Rested := by rw [he]; exact hi
    simp only
    split
    · rename_i hcount
      have hwins : n₀.wins inp = true := by
        rw [he] at hcount
        obtain ⟨tm', rfl⟩ := h₀
        have hq1 : n₀.quorum ≤ 1 := hcount
        have hrun' : n₀.running = true := by simpa using hrun
        simp [hinp, wins, hgen, hrun', hq1, show n₀.role ≠ .leader from hrole]
      have hkept : Untouched n₀ s.standForElection := by
        obtain ⟨tm', rfl⟩ := h₀
        rw [he]
        exact ⟨rfl, rfl, rfl, rfl, rfl⟩
      exact Plan.of_move hm (becomeLeader_plan _ hi' (by rw [he]; rfl) hcount
        (by rw [he]; exact hpeers) hwins hkept)
    · exact ⟨.single hm, hi'⟩

/-! ## Client interface -/

theorem placeEntry_eq (s : Node M) (cmd : Command) (cb : Callback) : ∃ es, Quiet es ∧
    ({ s with log := s.log.append ⟨s.currentTerm, s.log.lastIndex + 1, cmd⟩ } :
      Node M).Persists es ∧
    s.placeEntry cmd cb = ((({ s with
      configChangePending := cmd.isConfig || s.configChangePending
      log := s.log.append ⟨s.currentTerm, s.log.lastIndex + 1, cmd⟩
      matchIndex := s.matchIndex.insert s.id (s.log.lastIndex + 1)
      nextIndex := s.nextIndex.insert s.id (s.log.lastIndex + 2)
      pendingClients := s.pendingClients.insert (s.log.lastIndex + 1) cb
      }).persisted es).emit (.placed cb ⟨s.currentTerm, s.log.lastIndex + 1, cmd⟩)) := by
  unfold placeEntry
  cases hc : cmd.isConfig with
  | true => exact ⟨_, quiet_persistCalls _, rfl, by
      simp only [if_true, persist_eq, Bool.true_or]; rfl⟩
  | false => exact ⟨_, quiet_persistCalls _, rfl, by
      simp only [Bool.false_eq_true, if_false, persist_eq, Bool.false_or]; rfl⟩

/-- `submit` does nothing, or it places the entry first; what it does then has nothing to do with
who asked. -/
theorem submit_placing (s : Node M) (cid rid : Nat) (cmd : Command) (cb : Callback)
    (hi : s.Rested) (h₀ : s = n₀) (hasks : Asks t cmd cb inp) :
    (s.submit cid rid cmd cb).map Prod.snd = .ok s ∨
      (Move n₀ t inp s (s.placeEntry cmd cb) ∧ ∀ inp', Plan n₀ t inp' (s.placeEntry cmd cb)
        ((s.submit cid rid cmd cb).map Prod.snd)) := by
  unfold submit
  by_cases hrun : (!s.running) = true ∨ s.role ≠ .leader
  · rw [if_pos hrun]
    exact Or.inl rfl
  · by_cases hcfg : cmd.isConfig = true ∧ s.configChangePending = true
    · rw [if_neg hrun, if_pos hcfg]
      exact Or.inl rfl
    · rw [if_neg hrun, if_neg hcfg]
      rw [not_or, not_not] at hrun
      obtain ⟨es, hq, hst, he⟩ := s.placeEntry_eq cmd cb
      have hm : Move n₀ t inp s (s.placeEntry cmd cb) := by
        rw [he]
        refine Move.place s cmd cb _ es hq h₀ hasks (by simpa using hrun.1) hrun.2 (fun h => ?_)
          rfl hst
        by_contra hne
        exact hcfg ⟨h, by simpa using hne⟩
      obtain ⟨nx, es', hf⟩ := (s.placeEntry cmd cb).replicateAll_frame
      have hidle : (s.placeEntry cmd cb).replicateAll.state.Rested := by
        rw [hf, he]; exact hi
      have hrole : (s.placeEntry cmd cb).replicateAll.state.role = .leader := by
        rw [hf, he]; exact hrun.2
      have hpeers : (s.placeEntry cmd cb).replicateAll.state.peers = n₀.peers := by
        rw [hf, he, ← h₀]; rfl
      refine Or.inr ⟨hm, fun inp' => ?_⟩
      have hmr : Moves n₀ t inp' _ _ := replicateAll_moves (s.placeEntry cmd cb)
      cases hr : (s.placeEntry cmd cb).replicateAll with
      | error e =>
        rw [hr] at hmr hidle
        exact ⟨hmr, hidle⟩
      | ok s₁ =>
        rw [hr] at hmr hidle hrole hpeers
        have hp : Plan n₀ t inp' s₁ _ :=
          maybeAdvance_plan s₁ hidle hrole ⟨h₀ ▸ hrun.2, hpeers⟩
        cases hr' : s₁.maybeAdvanceCommitIndex with
        | error e =>
          rw [hr'] at hp
          simp only [bind, Except.bind, hr']
          exact Plan.of_moves hmr hp
        | ok s₂ =>
          rw [hr'] at hp
          simp only [bind, Except.bind, hr']
          exact Plan.of_moves hmr hp

/-- `submit` as a plan for the state it leaves. -/
theorem submit_plan (s : Node M) (cid rid : Nat) (cmd : Command) (cb : Callback)
    (hi : s.Rested) (h₀ : s = n₀) (hasks : Asks t cmd cb inp) :
    Plan n₀ t inp s ((s.submit cid rid cmd cb).map Prod.snd) := by
  rcases submit_placing s cid rid cmd cb hi h₀ hasks with hsame | ⟨hm, hp⟩
  · rw [hsame]
    exact Plan.stay hi
  · exact Plan.of_moves (.single hm) (hp inp)

/-! ## Message handlers -/

theorem handleRequestVote_plan (s : Node M) (src : NodeId) (rv : RequestVote)
    (hinp : inp = .message src (.requestVote rv)) (hi : s.Rested) (h₀ : s = n₀) :
    Plan n₀ t inp s (.ok (s.handleRequestVote src rv)) := by
  unfold handleRequestVote
  -- the node is now in the term of the request, or in a later one
  have hdown : ∃ s₁, (if rv.term > s.currentTerm then s.becomeFollower rv.term none else s) = s₁ ∧
      Moves n₀ t inp s s₁ ∧ rv.term ≤ s₁.currentTerm ∧ s₁.Rested := by
    split
    · rename_i hgt
      have hf := s.becomeFollower_spec none (Nat.le_of_lt hgt)
      exact ⟨_, rfl, .single (becomeFollower_move s none (Nat.le_of_lt hgt) h₀), by rw [hf.term],
        hf.rested hi⟩
    · rename_i hle
      exact ⟨s, rfl, .refl, Nat.not_lt.mp hle, hi⟩
  obtain ⟨s₁, hs₁, hm₁, hle, hi₁⟩ := hdown
  simp only [hs₁]
  by_cases hg : s₁.grants rv = true
  · have hg' := hg
    simp only [grants, Bool.and_eq_true, Bool.or_eq_true, decide_eq_true_eq, beq_iff_eq] at hg'
    obtain ⟨⟨hterm, hvote⟩, hup⟩ := hg'
    have heq : rv.term = s₁.currentTerm := Nat.le_antisymm hle hterm
    obtain ⟨tm, es, hq, hst, he⟩ := quietStep_resetElection
      ({ s₁ with votedFor := some rv.candidateId } : Node M).persist
    have hgv : s₁.grantVote rv.candidateId = (({ s₁ with
        votedFor := some rv.candidateId, timers := tm }).persisted
        (persistCalls { s₁ with votedFor := some rv.candidateId } ++ es)) := by
      rw [grantVote, he, persist_eq]
      simp only [persisted, List.append_assoc]
    have hm₂ : Move n₀ t inp s₁ (s₁.grantVote rv.candidateId) := by
      rw [hgv]
      exact Move.grant s₁ src rv tm _ ((quiet_persistCalls _).append hq) hinp heq
        (hvote.imp (by simp) fun h => h) hup (Persists.append hst)
    have hm₃ : Move n₀ t inp (s₁.grantVote rv.candidateId) _ :=
      Move.replyVote _ src rv true hinp fun _ => by rw [hgv]; exact ⟨heq, rfl⟩
    simp only [hg, if_true]
    exact ⟨(hm₁.tail hm₂).tail hm₃, by rw [hgv]; exact hi₁⟩
  · simp only [hg, if_false, Bool.false_eq_true]
    exact ⟨hm₁.tail (Move.replyVote s₁ src rv false hinp (by simp)), hi₁⟩

theorem handleRequestVoteReply_plan (s : Node M) (src : NodeId) (rvr : RequestVoteReply)
    (hinp : inp = .message src (.requestVoteReply rvr)) (hi : s.Rested) (h₀ : s = n₀) :
    Plan n₀ t inp s (s.handleRequestVoteReply src rvr) := by
  unfold handleRequestVoteReply
  split
  · exact Plan.stay hi
  · rename_i hrole
    rw [not_not] at hrole
    split
    · rename_i hgt
      have hf := s.becomeFollower_spec none (Nat.le_of_lt hgt)
      exact ⟨.single (becomeFollower_move s none (Nat.le_of_lt hgt) h₀), hf.rested hi⟩
    · rename_i hle
      split
      · exact Plan.stay hi
      · rename_i hterm
        split
        · rename_i hg
          have heq : rvr.term = s.currentTerm := by omega
          have hm : Move n₀ t inp s (s.countVote src) :=
            Move.countVote s src rvr hinp hg hrole heq (by omega) h₀
          simp only
          split
          · rename_i hcount
            have hwins : n₀.wins inp = true := by
              simp only [hinp, wins, ← h₀, hrole, hg, heq, decide_true, Bool.true_and,
                decide_eq_true_eq]
              exact hcount
            exact Plan.of_move hm (becomeLeader_plan _ hi hrole hcount (by rw [← h₀]; rfl) hwins
              (by rw [← h₀]; exact ⟨rfl, rfl, rfl, rfl, rfl⟩))
          · exact ⟨.single hm, hi⟩
        · exact Plan.stay hi

theorem acceptEntries_eq (s : Node M) (ae : AppendEntries) : ∃ es, Quiet es ∧
    ({ s with log := appendLoop ae.entries s.log } : Node M).Persists es ∧
    s.acceptEntries ae = ((({ s with
      log := appendLoop ae.entries s.log
      commitIndex := if ae.leaderCommit > s.commitIndex then
        min ae.leaderCommit (appendLoop ae.entries s.log).lastIndex else s.commitIndex
      }).persisted es).emit (.accepted ae)) := by
  refine ⟨_, quiet_persistCalls { s with log := appendLoop ae.entries s.log }, rfl, ?_⟩
  unfold acceptEntries
  simp only [persist_eq, persisted]
  split <;> rfl

/-- Where the commit index was raised, the log reaches it. -/
theorem acceptEntries_commit_le (s : Node M) {ae : AppendEntries}
    (h : ae.leaderCommit > s.commitIndex) :
    (s.acceptEntries ae).commitIndex ≤ (s.acceptEntries ae).log.lastIndex := by
  obtain ⟨es, -, -, he⟩ := s.acceptEntries_eq ae
  rw [he]
  simp only [emit, persisted, if_pos h]
  exact Nat.min_le_right _ _

theorem acceptEntries_role (s : Node M) (ae : AppendEntries) :
    (s.acceptEntries ae).role = s.role := by
  obtain ⟨es, -, -, he⟩ := s.acceptEntries_eq ae
  rw [he]
  rfl

theorem handleAppendEntries_plan (s : Node M) (src : NodeId) (ae : AppendEntries)
    (hinp : inp = .message src (.appendEntries ae)) (hi : s.Rested) (h₀ : s = n₀)
    (hrun : s.running = true) : Plan n₀ t inp s (s.handleAppendEntries src ae) := by
  unfold handleAppendEntries
  split
  · rename_i hlt
    exact ⟨.single (Move.rejectStale s src ae hinp hlt), hi⟩
  · rename_i hge
    simp only [s.stepDown_eq (some src) hge]
    have hf := s.becomeFollower_spec (some src) (Nat.not_lt.mp hge)
    have hm : Move n₀ t inp s _ := becomeFollower_move s (some src) (Nat.not_lt.mp hge) h₀
    generalize s.becomeFollower ae.term (some src) = s₁ at hf hm ⊢
    have hi₁ : s₁.Rested := hf.rested hi
    cases hprev : s₁.log.contains ae.prevLogIndex ae.prevLogTerm with
    | false =>
      simp only [Bool.not_false, if_true]
      have hm₂ : Move n₀ t inp s₁ _ := Move.rejectConflict s₁ src ae hinp hf.term hf.role
        (by rw [hf.term, ← h₀]; exact Nat.not_lt.mp hge) hprev (by rw [hf.log, h₀])
      rw [← h₀] at hm₂ ⊢
      rw [← h₀] at hm
      exact ⟨(Relation.ReflTransGen.single hm).tail hm₂, hi₁⟩
    | true =>
      simp only [Bool.not_true, Bool.false_eq_true, if_false]
      obtain ⟨es, hq, hst, he⟩ := s₁.acceptEntries_eq ae
      have hm₂ : Move n₀ t inp s₁ (s₁.acceptEntries ae) := by
        rw [he]
        exact Move.accept s₁ src ae es hq hinp hf.term hf.role hprev
          (by rw [hf.term, ← h₀]; exact Nat.not_lt.mp hge) (by rw [hf.log, h₀])
          (by rw [hf.pendingClients, h₀]) (by rw [hf.lastApplied, h₀]) (by rw [← h₀]; exact hrun)
          hst
      have hi₂ : (s₁.acceptEntries ae).applying = none := by rw [he]; exact hi₁.1
      have hacc : Effect.accepted ae ∈ (s₁.acceptEntries ae).out := by
        rw [he]; exact List.mem_append_right _ (List.mem_singleton.mpr rfl)
      have hterm : (s₁.acceptEntries ae).currentTerm = ae.term := by rw [he]; exact hf.term
      have hmm : Moves n₀ t inp s (s₁.acceptEntries ae) :=
        (Relation.ReflTransGen.single hm).tail hm₂
      refine Plan.of_moves hmm ?_
      split
      · rename_i hraise
        have hrole : (s₁.acceptEntries ae).role ≠ .candidate := by
          rw [acceptEntries_role, hf.role]
          decide
        obtain ⟨hp, hon⟩ : Plan n₀ t inp _ _ ∧ _ :=
          applyCommittedEntries_plan (s₁.acceptEntries ae) hi₂
            (Or.inl ⟨s₁.acceptEntries_commit_le (of_decide_eq_true hraise), hrole⟩)
        refine Plan.bind hp fun s₂ hs₂ => ?_
        rw [hs₂] at hp hon
        exact ⟨.single (Move.replyAppend s₂ src ae hinp (hon.term.trans hterm)
          (hon.out _ hacc)), hp.rest⟩
      · rename_i hraise
        have hrest : (s₁.acceptEntries ae).Rested := by
          rw [he]
          refine ⟨hi₁.1, ?_⟩
          simp only [emit, persisted, if_neg (of_decide_eq_false (Bool.eq_false_iff.mpr hraise))]
          exact hi₁.2
        exact ⟨.single (Move.replyAppend _ src ae hinp hterm hacc), hrest⟩

/-- The branch of `handle_append_entries` that lacks the predecessor. -/
theorem handleAppendEntries_rejects {s : Node M} {ae : AppendEntries} (src : NodeId)
    (hge : ¬ ae.term < s.currentTerm)
    (hprev : s.log.contains ae.prevLogIndex ae.prevLogTerm = false) :
    s.handleAppendEntries src ae = .ok ((s.becomeFollower ae.term (some src)).send src
      (.appendEntriesReply ⟨s.currentTerm, false, (conflict s.log ae.prevLogIndex).1,
        (conflict s.log ae.prevLogIndex).2⟩)) := by
  have hf := s.becomeFollower_spec (some src) (Nat.not_lt.mp hge)
  unfold handleAppendEntries
  simp only [if_neg hge, s.stepDown_eq (some src) hge, hf.log, hprev, Bool.not_false, if_true]

/-- The branch that takes the entries in: the node steps down, takes them in and may apply some,
and then, unless that throws, it replies. -/
theorem handleAppendEntries_takes {s : Node M} {ae : AppendEntries} (src : NodeId) (hi : s.Rested)
    (hge : ¬ ae.term < s.currentTerm)
    (hprev : s.log.contains ae.prevLogIndex ae.prevLogTerm = true) :
    ∃ s₂, (∀ n₀ t inp, Moves n₀ t inp ((s.becomeFollower ae.term (some src)).acceptEntries ae) s₂) ∧
      Onward ((s.becomeFollower ae.term (some src)).acceptEntries ae) s₂ ∧
      ((s.handleAppendEntries src ae).state = s₂ ∨
        ∃ m, (s.handleAppendEntries src ae).state = s₂.send src m) := by
  have hf := s.becomeFollower_spec (some src) (Nat.not_lt.mp hge)
  unfold handleAppendEntries
  simp only [if_neg hge, s.stepDown_eq (some src) hge]
  generalize s.becomeFollower ae.term (some src) = s₁ at hf ⊢
  rw [hf.log, hprev]
  simp only [Bool.not_true, Bool.false_eq_true, if_false]
  split
  · rename_i hraise
    obtain ⟨es, -, -, he⟩ := s₁.acceptEntries_eq ae
    have hplan : ∀ n₀ t inp, Plan n₀ t inp (s₁.acceptEntries ae) _ ∧ _ := fun n₀ t inp =>
      applyCommittedEntries_plan (s₁.acceptEntries ae) (by rw [he]; exact (hf.rested hi).1)
        (Or.inl ⟨s₁.acceptEntries_commit_le (of_decide_eq_true hraise),
          by rw [acceptEntries_role, hf.role]; decide⟩)
    refine ⟨_, fun n₀ t inp => (hplan n₀ t inp).1.moves, (hplan s 0 .crash).2, ?_⟩
    cases (s₁.acceptEntries ae).applyCommittedEntries with
    | ok s₂ => exact Or.inr ⟨_, rfl⟩
    | error err => exact Or.inl rfl
  · exact ⟨_, fun _ _ _ => .refl, Onward.refl _, Or.inr ⟨_, rfl⟩⟩

theorem handleAppendEntriesReply_plan (s : Node M) (src : NodeId) (aer : AppendEntriesReply)
    (hinp : inp = .message src (.appendEntriesReply aer)) (hi : s.Rested) (h₀ : s = n₀) :
    Plan n₀ t inp s (s.handleAppendEntriesReply src aer) := by
  unfold handleAppendEntriesReply
  split
  · exact Plan.stay hi
  · rename_i hrole
    rw [not_not] at hrole
    split
    · rename_i hgt
      have hf := s.becomeFollower_spec none (Nat.le_of_lt hgt)
      exact ⟨.single (becomeFollower_move s none (Nat.le_of_lt hgt) h₀), hf.rested hi⟩
    · split
      · exact Plan.stay hi
      · have heq : aer.term = s.currentTerm := by omega
        split
        · rename_i hok
          exact Plan.of_move (Move.credit s src aer hinp h₀ hrole heq hok)
            (maybeAdvance_plan _ hi hrole (h₀ ▸ ⟨hrole, rfl⟩))
        · rename_i hok
          have hidle : ((s.backtrack src aer).replicateTo src).state.Rested := by
            obtain ⟨nx, es, he⟩ := (s.backtrack src aer).replicateTo_frame src
            rw [he]; exact hi
          exact Plan.of_move (Move.backtrack s src aer hinp h₀ hrole heq (by simpa using hok))
            ⟨replicateTo_moves _ (Or.inr ⟨by rw [← h₀]; rfl, h₀ ▸ hrole, aer, hinp, h₀ ▸ heq⟩),
              hidle⟩

theorem installKv_eq (s : Node M) (kv : KvStore) : ∃ es, Quiet es ∧
    ({ s with log := s.log.setSnapshot s.snapLastIndex s.snapLastTerm } : Node M).Saves es ∧
    s.installKv kv =
    (({ s with
      kv := kv
      log := s.log.setSnapshot s.snapLastIndex s.snapLastTerm
      commitIndex := max s.commitIndex s.snapLastIndex
      lastApplied := max s.lastApplied s.snapLastIndex
      snapshotStore := .holding (M.encodeSnap ⟨s.snapLastIndex, s.snapLastTerm, s.snapData⟩)
      }).persisted es) := by
  unfold installKv
  simp only [saveSnapshot_eq, persist_eq]
  generalize hc₁ : snapshotCalls _ = c₁
  generalize hc₂ : persistCalls _ = c₂
  refine ⟨c₁ ++ c₂, ?_, by rw [← hc₁, ← hc₂]; rfl, by simp only [persisted, List.append_assoc]⟩
  rw [← hc₁, ← hc₂]
  exact (quiet_snapshotCalls _).append (quiet_persistCalls _)

theorem handleInstallSnapshot_plan (s : Node M) (src : NodeId) (is : InstallSnapshot M.Blob)
    (hinp : inp = .message src (.installSnapshot is)) (hi : s.Rested) (h₀ : s = n₀)
    (hrun : s.running = true) : Plan n₀ t inp s (s.handleInstallSnapshot src is) := by
  unfold handleInstallSnapshot
  split
  · exact Plan.stay hi
  · rename_i hge
    simp only [s.stepDown_eq (some src) hge]
    have hf := s.becomeFollower_spec (some src) (Nat.not_lt.mp hge)
    have hm : Move n₀ t inp s _ := becomeFollower_move s (some src) (Nat.not_lt.mp hge) h₀
    generalize s.becomeFollower is.term (some src) = s₁ at hf hm ⊢
    have hi₁ : s₁.Rested := hf.rested hi
    split
    · rename_i hle
      exact ⟨(Relation.ReflTransGen.single hm).tail
        (Move.replySnapshot s₁ src is hinp hf.term hle), hi₁⟩
    · rename_i hlt
      cases hdec : M.decodeKv is.data with
      | error e =>
        exact ⟨(Relation.ReflTransGen.single hm).tail
          (Move.adopt s₁ src is e hinp (Nat.not_le.mp hlt) hdec hf.role hi₁.1), hi₁⟩
      | ok kv =>
        obtain ⟨es, hq, hst, he⟩ := (s₁.adoptSnapshot is).installKv_eq kv
        have hm₂ : Move n₀ t inp s₁ ((s₁.adoptSnapshot is).installKv kv) := by
          rw [he]
          exact Move.install s₁ src is kv es hq hinp hf.term hf.role (Nat.not_le.mp hlt) hdec
            (by rw [hf.log, h₀]) (by rw [hf.lastApplied, h₀]) hi₁.1 (h₀ ▸ hf.quiet)
            (h₀ ▸ hrun) (by rw [hf.term, ← h₀]; exact Nat.not_lt.mp hge) hst
        have hterm₂ : ((s₁.adoptSnapshot is).installKv kv).currentTerm = is.term := by
          rw [he]
          exact hf.term
        have hle₂ : is.lastIncludedIndex ≤
            ((s₁.adoptSnapshot is).installKv kv).snapLastIndex := by
          rw [he]
          exact Nat.le_refl _
        have hi₂ : ((s₁.adoptSnapshot is).installKv kv).Rested := by
          rw [he]
          exact ⟨hi₁.1, max_le_max_right _ hi₁.2⟩
        dsimp only
        generalize (s₁.adoptSnapshot is).installKv kv = s₂ at hm₂ hterm₂ hle₂ hi₂ ⊢
        exact ⟨((Relation.ReflTransGen.single hm).tail hm₂).tail
          (Move.replySnapshot s₂ src is hinp hterm₂ hle₂), hi₂⟩

theorem handleInstallSnapshotReply_plan (s : Node M) (src : NodeId) (isr : InstallSnapshotReply)
    (hinp : inp = .message src (.installSnapshotReply isr)) (hi : s.Rested)
    (h₀ : s = n₀) : Plan n₀ t inp s (s.handleInstallSnapshotReply src isr) := by
  unfold handleInstallSnapshotReply
  split
  · exact Plan.stay hi
  · rename_i hrole
    rw [not_not] at hrole
    split
    · rename_i hgt
      have hf := s.becomeFollower_spec none (Nat.le_of_lt hgt)
      exact ⟨.single (becomeFollower_move s none (Nat.le_of_lt hgt) h₀), hf.rested hi⟩
    · rename_i hle
      exact Plan.of_move (Move.creditSnapshot s src isr hinp h₀ hrole (Nat.not_lt.mp hle))
        (maybeAdvance_plan _ hi hrole (h₀ ▸ ⟨hrole, rfl⟩))

theorem handleReadIndexRequest_plan (s : Node M) (src : NodeId) (req : ReadIndexRequest)
    (hinp : inp = .message src (.readIndexRequest req)) (hi : s.Rested) (h₀ : s = n₀) :
    Plan n₀ t inp s (.ok (s.handleReadIndexRequest src req)) := by
  unfold handleReadIndexRequest
  split
  · exact Plan.stay hi
  · rename_i hge
    simp only [s.stepDown_eq (some src) hge]
    have hf := s.becomeFollower_spec (some src) (Nat.not_lt.mp hge)
    have hm : Move n₀ t inp s _ := becomeFollower_move s (some src) (Nat.not_lt.mp hge) h₀
    generalize s.becomeFollower req.term (some src) = s₁ at hf hm ⊢
    exact ⟨(Relation.ReflTransGen.single hm).tail (Move.replyRead s₁ src req hinp hf.term),
      hf.rested hi⟩

theorem handleReadIndexReply_plan (s : Node M) (src : NodeId) (rep : ReadIndexReply)
    (hinp : inp = .message src (.readIndexReply rep)) (hi : s.Rested) (h₀ : s = n₀) :
    Plan n₀ t inp s (.ok (s.handleReadIndexReply src rep)) := by
  unfold handleReadIndexReply
  split
  · rename_i hgt
    have hf := s.becomeFollower_spec none (Nat.le_of_lt hgt)
    exact ⟨.single (becomeFollower_move s none (Nat.le_of_lt hgt) h₀), hf.rested hi⟩
  · split
    · exact Plan.stay hi
    · rename_i hrole
      rw [not_or, not_not, not_not] at hrole
      exact ⟨(Relation.ReflTransGen.single (Move.ackRead s src rep hinp h₀ hrole.1 hrole.2)).tail
        (Move.drain _), hi⟩

theorem handleClientRequest_plan (s : Node M) (src : NodeId) (cr : ClientRequest)
    (hinp : inp = .message src (.clientRequest cr)) (hi : s.Rested) (h₀ : s = n₀) :
    Plan n₀ t inp s (s.handleClientRequest src cr t) := by
  unfold handleClientRequest
  split
  · rename_i hrole
    exact ⟨.single (Move.refuse s src cr hinp hrole), hi⟩
  · have hp : Plan n₀ t inp s _ := submit_plan s cr.clientId cr.requestId cr.cmd
      ⟨t, some (src, cr)⟩ hi h₀ (Or.inr ⟨src, cr, hinp, rfl, rfl⟩)
    cases hr : s.submit cr.clientId cr.requestId cr.cmd ⟨t, some (src, cr)⟩ with
    | error e => rw [hr] at hp; exact hp
    | ok r => rw [hr] at hp; exact hp

theorem dispatch_plan (s : Node M) (src : NodeId) (m : Msg M.Blob)
    (hinp : inp = .message src m) (hi : s.Rested) (h₀ : s = n₀) (hrun : s.running = true) :
    Plan n₀ t inp s (s.dispatch src m t) := by
  cases m with
  | requestVote rv => exact handleRequestVote_plan s src rv hinp hi h₀
  | requestVoteReply rvr => exact handleRequestVoteReply_plan s src rvr hinp hi h₀
  | appendEntries ae => exact handleAppendEntries_plan s src ae hinp hi h₀ hrun
  | appendEntriesReply aer => exact handleAppendEntriesReply_plan s src aer hinp hi h₀
  | clientRequest cr => exact handleClientRequest_plan s src cr hinp hi h₀
  | clientReply m => exact Plan.stay hi
  | installSnapshot is => exact handleInstallSnapshot_plan s src is hinp hi h₀ hrun
  | installSnapshotReply isr => exact handleInstallSnapshotReply_plan s src isr hinp hi h₀
  | readIndexRequest req => exact handleReadIndexRequest_plan s src req hinp hi h₀
  | readIndexReply rep => exact handleReadIndexReply_plan s src rep hinp hi h₀

/-! ## Timers and lifecycle -/

theorem setTimers_move (s : Node M) (tm : Timers) : Move n₀ t inp s { s with timers := tm } := by
  have h : Move n₀ t inp s _ := Move.quiet s tm [] Quiet.nil rfl
  simpa using h

theorem electionTimer_plan (s : Node M) (gen : Nat) (hinp : inp = .electionTimer gen)
    (hi : s.Rested) (h₀ : s = n₀) : Plan n₀ t inp s (s.electionTimer gen) := by
  unfold electionTimer
  split
  · exact Plan.stay hi
  · rename_i hgen
    rw [not_not] at hgen
    have hm : Move n₀ t inp s { s with timers := { s.timers with electionScheduled := false } } :=
      setTimers_move s _
    simp only
    split
    · exact ⟨.single hm, hi⟩
    · unfold onElectionTimeout
      split
      · exact ⟨.single hm, hi⟩
      · rename_i hrole
        exact Plan.of_move hm (becomeCandidate_plan _ hi hrole hinp (h₀ ▸ hgen)
          ⟨_, by rw [← h₀]⟩)

theorem heartbeatTimer_plan (s : Node M) (hi : s.Rested) :
    Plan n₀ t inp s s.heartbeatTimer := by
  have hm : Move n₀ t inp s { s with timers := { s.timers with heartbeatScheduled := false } } :=
    setTimers_move s _
  unfold heartbeatTimer
  simp only
  split
  · exact ⟨.single hm, hi⟩
  · unfold onHeartbeat
    split
    · exact ⟨.single hm, hi⟩
    · obtain ⟨nx, es, hf⟩ := ({ s with timers := { s.timers with heartbeatScheduled := false } } :
        Node M).replicateAll_frame
      have hmr : Moves n₀ t inp _ _ := replicateAll_moves
        { s with timers := { s.timers with heartbeatScheduled := false } }
      refine Plan.of_move hm (Plan.bind ⟨hmr, by rw [hf]; exact hi⟩ fun s₁ hs₁ => ?_)
      have hi₁ : s₁.Rested := by
        rw [hs₁] at hf
        have hs : s₁ = _ := hf
        rw [hs]; exact hi
      obtain ⟨tm, es', hq, -, he⟩ := quietStep_scheduleHeartbeat s₁
      exact ⟨.single (quietStep_scheduleHeartbeat s₁).move, by
        change s₁.scheduleHeartbeat.Rested
        rw [he]; exact hi₁⟩

theorem loadSnapshot_rested (s : Node M) (hi : s.Rested) : s.loadSnapshot.state.Rested := by
  unfold loadSnapshot
  split
  · exact hi
  · split
    · exact hi
    · simp only
      split
      · exact hi
      · exact ⟨hi.1, Nat.le_refl _⟩

theorem loadMeta_rested (s : Node M) (hi : s.Rested) : s.loadMeta.state.Rested := by
  unfold loadMeta
  split
  · split <;> exact hi
  · exact hi

theorem loadLog_rested (s : Node M) (hi : s.Rested) : s.loadLog.state.Rested := by
  unfold loadLog
  split
  · split <;> exact hi
  · exact hi

theorem reboot_rested (s : Node M) (hi : s.Rested) : s.reboot.state.Rested := by
  unfold reboot
  have h₁ := loadSnapshot_rested { s with
    currentTerm := 0, votedFor := none, log := .empty, kv := .empty, running := true } hi
  simp only
  cases hr₁ : loadSnapshot _ with
  | error e => rw [hr₁] at h₁; exact h₁
  | ok s₁ =>
    rw [hr₁] at h₁
    have h₂ := loadMeta_rested s₁ h₁
    change (Res.state (s₁.loadMeta >>= loadLog)).Rested
    cases hr₂ : s₁.loadMeta with
    | error e => rw [hr₂] at h₂; exact h₂
    | ok s₂ =>
      rw [hr₂] at h₂
      exact loadLog_rested s₂ h₂

theorem restart_eq (s : Node M) : s.restart = (do
    let s ← s.reboot
    let s ← s.applyCommittedEntries
    pure s.scheduleElectionTimeout) := by
  unfold restart start reboot
  simp only [bind_assoc]

theorem restart_plan (s : Node M) (hinp : inp = .restart) (hi : s.Rested) (h₀ : s = n₀)
    (hrun : s.running = false) : Plan n₀ t inp s s.restart := by
  rw [restart_eq]
  have hidle := s.reboot_rested hi
  cases hr : s.reboot with
  | error e =>
    rw [hr] at hidle
    exact ⟨.single (Move.boot s e.2 hinp h₀ hrun (by rw [hr]; rfl)), hidle⟩
  | ok s₁ =>
    rw [hr] at hidle
    refine Plan.of_move (Move.boot s s₁ hinp h₀ hrun (by rw [hr]; rfl)) ?_
    change Plan n₀ t inp s₁ (s₁.applyCommittedEntries >>= fun s => pure s.scheduleElectionTimeout)
    have hp : Plan n₀ t inp s₁ _ :=
      (applyCommittedEntries_plan s₁ hidle.1 (Or.inr hidle.2)).1
    refine Plan.bind hp fun s₂ hs₂ => ?_
    have hi₂ := hp.rest
    rw [hs₂] at hi₂
    obtain ⟨tm, es', hq, -, he⟩ := quietStep_scheduleElection s₂
    exact ⟨.single (quietStep_scheduleElection s₂).move, by
      change s₂.scheduleElectionTimeout.Rested
      rw [he]; exact hi₂⟩

theorem invokeAll_frame (ps : List (Nat × Callback)) (r : CmdResult) (s : Node M) :
    ∃ es, ps.foldl (fun s p => s.invoke p.2 r) s = { s with out := s.out ++ es } := by
  induction ps generalizing s with
  | nil => exact ⟨[], by simp⟩
  | cons p ps ih =>
    obtain ⟨es, he⟩ := s.invoke_frame p.2 r
    obtain ⟨es', he'⟩ := ih (s.invoke p.2 r)
    refine ⟨es ++ es', ?_⟩
    rw [List.foldl_cons, he', he]
    simp

theorem dropClients_frame (s : Node M) : ∃ es, s.dropClients =
    { s with pendingClients := .empty, pendingReads := [], out := s.out ++ es } := by
  unfold dropClients
  obtain ⟨es, he⟩ := invokeAll_frame s.pendingClients.toList nodeCrashed s
  simp only [he]
  exact ⟨es ++ _, by rw [List.append_assoc]⟩

theorem crash_plan (s : Node M) (hinp : inp = .crash) (hi : s.Rested) (h₀ : s = n₀) :
    Plan n₀ t inp s s.crash := by
  have hdrop : ∀ kv, (M.blobEmpty s.snapData = true ∧ kv = .empty) ∨
      (M.blobEmpty s.snapData = false ∧ M.decodeKv s.snapData = .ok kv) →
      Plan n₀ t inp s (.ok ({ s.stop with kv := kv } : Node M).dropClients) := by
    intro kv hkv
    obtain ⟨es, he⟩ := ({ s.stop with kv := kv } : Node M).dropClients_frame
    rw [he]
    exact ⟨.single (Move.crash s kv hinp h₀ hkv es he), hi.1, Nat.le_refl _⟩
  unfold crash
  simp only
  cases hb : M.blobEmpty s.stop.snapData with
  | true =>
    simp only [if_true]
    exact hdrop .empty (Or.inl ⟨hb, rfl⟩)
  | false =>
    simp only [Bool.false_eq_true, if_false]
    cases hd : M.decodeKv s.stop.snapData with
    | error e => exact ⟨.single (Move.crashFail s e hinp h₀ hb hd), hi.1, Nat.le_refl _⟩
    | ok kv => exact hdrop kv (Or.inr ⟨hb, hd⟩)

theorem readTimeout_frame (s : Node M) (round : Nat) : ∃ prs es, Quiet es ∧
    (∀ pr ∈ prs, pr ∈ s.pendingReads) ∧
    s.readTimeout round = { s with pendingReads := prs, out := s.out ++ es } := by
  unfold readTimeout
  split
  · exact ⟨s.pendingReads, [], Quiet.nil, fun _ h => h, by simp⟩
  · exact ⟨_, _, Quiet.singleton rfl, fun _ h => List.mem_of_mem_eraseP h, rfl⟩

end Node

/-- A running node that is offered entries of no earlier term and lacks the predecessor steps down
and rejects, under the term it had. -/
theorem Node.handle_conflict (s : Node M) (t : Nat) (src : NodeId) (ae : AppendEntries)
    (hrun : s.running = true) (hle : s.currentTerm ≤ ae.term)
    (hprev : s.log.contains ae.prevLogIndex ae.prevLogTerm = false) :
    s.handle t (.message src (.appendEntries ae)) =
      (s.becomeFollower ae.term (some src)).send src (.appendEntriesReply ⟨s.currentTerm, false,
        (conflict s.log ae.prevLogIndex).1, (conflict s.log ae.prevLogIndex).2⟩) := by
  simp only [handle, onMessage, hrun, Bool.not_true, Bool.false_eq_true, if_false, dispatch,
    handleAppendEntries_rejects src (Nat.not_lt.mpr hle) hprev]
  rfl

/-- **Every step of a node is a sequence of moves.** -/
theorem Node.handle_moves (s : Node M) (ticket : Nat) (inp : Input M) (hi : s.Rested) :
    Moves s ticket inp s (s.handle ticket inp) ∧ (s.handle ticket inp).Rested := by
  have of : ∀ {r : Res M}, Plan s ticket inp s r →
      Moves s ticket inp s r.state ∧ r.state.Rested := fun h => ⟨h.moves, h.rest⟩
  cases inp with
  | message src m =>
    rw [Node.handle, Node.onMessage]
    split
    · exact ⟨.refl, hi⟩
    · rename_i hrun
      exact of (Node.dispatch_plan s src m rfl hi rfl (by simpa using hrun))
  | electionTimer gen => exact of (Node.electionTimer_plan s gen rfl hi rfl)
  | heartbeatTimer => exact of (Node.heartbeatTimer_plan s hi)
  | readTimer round =>
    obtain ⟨prs, es, hq, hprs, hr⟩ := s.readTimeout_frame round
    rw [Node.handle, hr]
    exact ⟨.single (Move.readTimeout s round prs es hq hprs hr), hi⟩
  | submit cid rid cmd =>
    have h := of (Node.submit_plan s cid rid cmd ⟨ticket, none⟩ hi rfl
      (Or.inl ⟨cid, rid, rfl, rfl⟩))
    rw [Node.handle]
    cases hr : s.submit cid rid cmd ⟨ticket, none⟩ with
    | error e => rw [hr] at h; exact h
    | ok r => rw [hr] at h; exact h
  | readIndex key =>
    rw [Node.handle, Node.readIndex]
    split
    · exact ⟨.refl, hi⟩
    · rename_i hrun
      rw [not_or, not_not] at hrun
      have hrun' : s.running = true := by simpa using hrun.1
      split
      · rename_i hp
        exact ⟨.single (Move.readNow s key rfl rfl hrun' hrun.2 (by simpa using hp)), hi⟩
      · rename_i hp
        exact ⟨.single (Move.beginRead s key rfl rfl hrun' hrun.2 (by simpa using hp)), hi⟩
  | crash =>
    rw [Node.handle]
    split
    · exact of (Node.crash_plan s rfl hi rfl)
    · exact ⟨.refl, hi⟩
  | restart =>
    rw [Node.handle]
    split
    · exact ⟨.refl, hi⟩
    · rename_i hrun
      exact of (Node.restart_plan s rfl hi rfl (by simpa using hrun))

end SimKV
