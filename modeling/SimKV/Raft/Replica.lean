/-
# Nodes as replicas: what a node, a packet and an effect mean

The history of a run is a `World` of `SimKV.Lib.TermLog`: the votes, every node's
whole log, the log of every leader, what each node has confirmed to each leader
and what each leader has committed.  `Replica` ties a node's fields to it, and
`PacketOk` says what a message in flight stands for; both are stable under
whatever the other nodes do (`Replica.others`, `PacketOk.steps`).

How much of this holds depends on what may happen in the run, and the results below
differ in that.  `Mode` keeps the variants in one development:

  * `repl`: a leader acts on an `AppendEntriesReply` only if it answers an
    `AppendEntries` of its own term, and on a success only if that message reached
    as far as `next_index_` now says.  Without it `match_index_` means nothing;
  * `full`: moreover the bug flags are off and a window has room for an entry
    (`max_entries_per_ae > 0`, where `prev_index + max_entries_per_ae` does not wrap
    around).  Then voters compare logs and leaders commit entries of their own term, so
    leader completeness holds;
  * `comp`: nodes compact their logs and send snapshots.

Log matching needs none of them.  Who is a member is no part of it: what counts is that
the majorities with which nodes are elected and commit are quorums of one system `Q`.
-/
import SimKV.Lib.TermLogWindow
import SimKV.Raft.Election
import SimKV.Raft.LogRep

namespace SimKV

open TermLog

variable {M : Medium}

/-- Votes, logs and commitments over a whole run. -/
abbrev RaftWorld : Type := World NodeId LogEntry

/-- What may be assumed of a run. -/
structure Mode where
  repl : Prop
  full : Prop
  comp : Prop
  repl_of_full : full → repl
  full_of_comp : comp → full

/-- Steps of a history, for these quorums. -/
abbrev Mode.Steps (md : Mode) (Q : Quorums NodeId) : RaftWorld → RaftWorld → Prop :=
  World.Steps Q LogEntry.term md.full

/-! ## Histories -/

/-- The invariant of histories; entries carry their own index. -/
structure Coherent (md : Mode) (Q : Quorums NodeId) (w : RaftWorld) : Prop where
  sound : w.Sound Q LogEntry.term md.full
  indexed_llog : ∀ T, Indexed (w.llog T)

namespace Coherent

variable {md : Mode} {Q : Quorums NodeId} {w w' : RaftWorld}

theorem init (md : Mode) (Q : Quorums NodeId) : Coherent md Q World.init :=
  ⟨World.init_sound _ _ _, fun _ _ _ h => absurd h (by simp [World.init])⟩

/-- Every entry of a node's log is an entry of a leader's. -/
theorem indexed_log (h : Coherent md Q w) (n : NodeId) : Indexed (w.log n) := by
  intro k e hk
  refine h.indexed_llog e.term k e (getElem?_of_isPre (h.sound.log_chained n k e hk) ?_)
  rw [List.getElem?_take_of_lt (Nat.lt_succ_self k)]
  exact hk

theorem matching (h : Coherent md Q w) (n : NodeId) (T : Nat) :
    LogRep.Matching (w.log n) (w.llog T) :=
  fun _ _ _ hk hk' ht => (h.sound.log_chained n).matching (h.sound.llog_chained T) hk hk' ht

/-- A step after which every entry of a leader's log was in some log before, or carries its index,
keeps the history coherent. -/
theorem step (h : Coherent md Q w)
    (hstep : World.Step Q LogEntry.term md.full w w')
    (hnew : ∀ T k e, (w'.llog T)[k]? = some e → (w.llog T)[k]? = some e ∨
      (∃ n, (w.log n)[k]? = some e) ∨ e.index = k + 1) :
    Coherent md Q w' := by
  refine ⟨(hstep.sound_extends h.sound).1, fun T k e hk => ?_⟩
  rcases hnew T k e hk with hk | ⟨n, hk⟩ | hok
  · exact h.indexed_llog T k e hk
  · exact h.indexed_log n k e hk
  · exact hok

theorem elected (h : Coherent md Q w) {c : NodeId}
    (hstep : World.Step Q LogEntry.term md.full w (w.elected c)) :
    Coherent md Q (w.elected c) := by
  refine h.step hstep fun T k e hk => ?_
  by_cases hT : T = w.term c
  · subst hT
    exact Or.inr (Or.inl ⟨c, by simpa [World.elected] using hk⟩)
  · exact Or.inl (by simpa [World.elected, Function.update_of_ne hT] using hk)

theorem append (h : Coherent md Q w) {c : NodeId} {x : LogEntry}
    (hstep : World.Step Q LogEntry.term md.full w (w.append c x))
    (hindex : x.index = (w.llog (w.term c)).length + 1) :
    Coherent md Q (w.append c x) := by
  refine h.step hstep fun T k e hk => ?_
  by_cases hT : T = w.term c
  · subst hT
    have hk' : (w.llog (w.term c) ++ [x])[k]? = some e := by simpa [World.append] using hk
    rcases Nat.lt_or_ge k (w.llog (w.term c)).length with hlt | hge
    · rw [List.getElem?_append_left hlt] at hk'
      exact Or.inl hk'
    · rw [List.getElem?_append_right hge] at hk'
      obtain ⟨hlt, heq⟩ := List.getElem?_eq_some_iff.mp hk'
      rw [List.length_singleton] at hlt
      have hxe : x = e := by simpa using heq
      rw [← hxe]
      exact Or.inr (Or.inr (by omega))
  · exact Or.inl (by simpa [World.append, Function.update_of_ne hT] using hk)

theorem steps_extends (h : Coherent md Q w) (hs : md.Steps Q w w') : w.Extends w' :=
  (World.Steps.sound_extends hs h.sound).2

end Coherent

/-- From `w` to `w'` only node `n` has done anything. -/
structure Only (n : NodeId) (w w' : RaftWorld) : Prop where
  ballot : OnlyOf n w.toBallot w'.toBallot
  log : ∀ m, m ≠ n → w'.log m = w.log m
  llog : ∀ m T, m ≠ n → w.leader T = some m → w'.llog T = w.llog T
  lcommit : ∀ m T, m ≠ n → w.leader T = some m → w'.lcommit T = w.lcommit T

namespace Only

variable {n : NodeId} {w w' w'' : RaftWorld}

theorem refl (n : NodeId) (w : RaftWorld) : Only n w w :=
  ⟨OnlyOf.refl n _, fun _ _ => rfl, fun _ _ _ _ => rfl, fun _ _ _ _ => rfl⟩

theorem advance (w : RaftWorld) (n : NodeId) (T : Nat) : Only n w (w.advance n T) :=
  ⟨OnlyOf.advance _ n T, fun _ _ => rfl, fun _ _ _ _ => rfl, fun _ _ _ _ => rfl⟩

theorem castFor (w : RaftWorld) (n c : NodeId) : Only n w (w.castFor n c) :=
  ⟨OnlyOf.cast _ n c, fun _ _ => rfl, fun _ _ _ _ => rfl, fun _ _ _ _ => rfl⟩

theorem advance_stand (w : RaftWorld) (n : NodeId) (T : Nat) :
    Only n w ((w.advance n T).stand n) :=
  ⟨(OnlyOf.advance _ n T).trans (OnlyOf.cast _ n n), fun _ _ => rfl, fun _ _ _ _ => rfl,
    fun _ _ _ _ => rfl⟩

theorem elected {w : RaftWorld} {n : NodeId} (hno : w.leader (w.term n) = none) :
    Only n w (w.elected n) := by
  refine ⟨OnlyOf.elect _ n, fun _ _ => rfl, fun m T _ hl => ?_, fun _ _ _ _ => rfl⟩
  have hT : T ≠ w.term n := by
    rintro rfl
    rw [hno] at hl
    exact absurd hl (by simp)
  simp [World.elected, Function.update_of_ne hT]

theorem append {w : RaftWorld} {n : NodeId} (e : LogEntry) (hled : w.leader (w.term n) = some n) :
    Only n w (w.append n e) := by
  refine ⟨OnlyOf.refl n _, fun m hm => ?_, fun m T hm hl => ?_, fun _ _ _ _ => rfl⟩
  · simp [World.append, Function.update_of_ne hm]
  · have hT : T ≠ w.term n := by
      rintro rfl
      rw [hled] at hl
      exact hm (Option.some.inj hl).symm
    simp [World.append, Function.update_of_ne hT]

theorem accept (w : RaftWorld) (n : NodeId) (m : Nat) : Only n w (w.accept n m) :=
  ⟨OnlyOf.refl n _, fun k hk => by simp [World.accept, Function.update_of_ne hk],
    fun _ _ _ _ => rfl, fun _ _ _ _ => rfl⟩

theorem commitTo {w : RaftWorld} {n : NodeId} {T : Nat} (i : Nat) (hled : w.leader T = some n) :
    Only n w (w.commitTo T i) := by
  refine ⟨OnlyOf.refl n _, fun _ _ => rfl, fun _ _ _ _ => rfl, fun m T' hm hl => ?_⟩
  have hT : T' ≠ T := by
    rintro rfl
    rw [hled] at hl
    exact hm (Option.some.inj hl).symm
  simp [World.commitTo, Function.update_of_ne hT]

end Only

/-! ## Nodes -/

/-- What the mode promises about a node's configuration. -/
structure ConfigOk (md : Mode) (cfg : RaftConfig) : Prop where
  flags : md.full → cfg.bugCommitPriorTerm = false ∧ cfg.bugSkipVoteUptodate = false
  room : md.full → 0 < cfg.maxEntriesPerAe
  whole : md.comp ∨ cfg.snapshotThreshold = 0

/-- The node with only the fields that `Replica` looks at. -/
def Node.core (s : Node M) : Node M :=
  { s with
    running := true, metaStore := .empty, logStore := .empty, snapshotStore := .empty
    snapData := M.noBlob, leaderId := none, kv := .empty, pendingClients := .empty
    pendingReads := [], nextReadRound := 0, timers := ⟨false, 0, false⟩, electionTerm := 0
    configChangePending := false, applying := none, out := [] }

/-- What node `n`, the leader of term `T`, has noted down agrees with the history. -/
structure LeaderOk (md : Mode) (w : RaftWorld) (n : NodeId) (T : Nat) (peers : List NodeId)
    (nextIndex matchIndex : OrdMap NodeId Nat) (commitIndex : Nat) : Prop where
  log : w.log n = w.llog T
  /-- A match index is something the peer has confirmed in this term. -/
  matched : md.repl → ∀ p v, matchIndex.find? p = some v →
    p ∈ insert n peers.toFinset ∧ v ≤ w.acked p T
  /-- Whatever the peer has that the leader has not, it has before `next_index_`, unless that has
  wrapped around to 0. -/
  nexts : md.full → ∀ p ∈ peers,
    (nextIndex.getD p 0 = 0 ∧ matchIndex.getD p 0 ≤ 2 ^ 64 - 1 ∧ ¬ md.comp) ∨
      w.Anchored T p (nextIndex.getD p 0 - 1)
  lcommit : md.full → w.lcommit T ≤ commitIndex

/-- Node `n` in state `s` and the history `w` agree. -/
structure Replica (md : Mode) (w : RaftWorld) (n : NodeId) (s : Node M) : Prop where
  id : s.id = n
  self : n ∉ s.peers
  elector : Elector w.toBallot n s
  cfg : ConfigOk md s.cfg
  log : LogRep s.log (w.log n)
  snap : s.snapLastIndex = s.log.baseIndex ∧ s.snapLastTerm = s.log.baseTerm
  whole : md.comp ∨ s.log.baseIndex = 0
  lead : s.role = .leader →
    LeaderOk md w n s.currentTerm s.peers s.nextIndex s.matchIndex s.commitIndex
  standing : s.role = .candidate → w.cand n s.currentTerm = some (w.log n)
  commit : md.full → w.CommittedIn s.currentTerm (w.log n) s.commitIndex
  applied : md.full → s.log.baseIndex ≤ s.lastApplied ∧ s.lastApplied ≤ s.commitIndex

namespace Replica

variable {md : Mode} {Q : Quorums NodeId} {w w' : RaftWorld} {n m : NodeId} {s s' : Node M}

theorem term (h : Replica md w n s) : w.term n = s.currentTerm := h.elector.term

theorem basic (h : Replica md w n s) : s.Basic n := ⟨h.id, h.self⟩

theorem leading (h : Replica md w n s) (hr : s.role = .leader) : w.log n = w.llog s.currentTerm :=
  (h.lead hr).log

theorem leader_ne (h : Replica md w n s) (hr : s.role = .leader) :
    w.leader s.currentTerm ≠ none := by
  rw [h.elector.leader hr]
  simp

/-- Only the core matters. -/
theorem frame (h : Replica md w n s) (hc : s'.core = s.core) : Replica md w n s' := by
  have h' : Replica md w n s.core := { h with elector := h.elector.frame rfl rfl rfl rfl rfl rfl }
  rw [← hc] at h'
  exact { h' with elector := h'.elector.frame rfl rfl rfl rfl rfl rfl }

/-- The compacted part of a log is committed, so every leader of the node's term or a later one
has it. -/
theorem base_isPre (hw : Coherent md Q w) (h : Replica md w n s)
    (hl : w.leader s.currentTerm ≠ none) :
    (w.log n).take s.log.baseIndex <+: w.llog s.currentTerm := by
  rcases h.whole with hc | h0
  · have hf := md.full_of_comp hc
    obtain ⟨h1, h2⟩ := h.applied hf
    exact (((h.commit hf).mono (Nat.le_refl _) (Nat.le_trans h1 h2) List.prefix_rfl).in_llog hf
      hw.sound (Nat.le_refl _) hl).2
  · rw [h0]
    simp

/-- What another node does leaves the statement about this one in place. -/
theorem others (hw : Coherent md Q w) (hs : md.Steps Q w w') (ho : Only n w w') (hmn : m ≠ n)
    (h : Replica md w m s) : Replica md w' m s := by
  have hx := hw.steps_extends hs
  have hlog := ho.log m hmn
  exact { h with
    elector := h.elector.others hx.ballot ho.ballot hmn
    log := by rw [hlog]; exact h.log
    lead := fun hr => by
      have hl := h.lead hr
      have hled := h.elector.leader hr
      exact {
        log := by rw [hlog, ho.llog m _ hmn hled]; exact hl.log
        matched := fun hm p v hp =>
          (hl.matched hm p v hp).imp_right fun hv => Nat.le_trans hv (hx.acked_le p _)
        nexts := fun hf p hp =>
          (hl.nexts hf p hp).imp_right fun ha => ha.steps hw.sound hs (h.leader_ne hr)
        lcommit := fun hf => by rw [ho.lcommit m _ hmn hled]; exact hl.lcommit hf }
    standing := fun hr => by rw [hlog]; exact hx.cand_keep _ _ _ (h.standing hr)
    commit := fun hf => by rw [hlog]; exact (h.commit hf).extends hw.sound hx }

end Replica

/-! ## Packets -/

/-- An `AppendEntries` is a window of the log of the leader that sent it. -/
structure AppendOk (md : Mode) (w : RaftWorld) (src dst : NodeId)
    (ae : AppendEntries) : Prop where
  leader : w.leader ae.term = some src
  len : ae.prevLogIndex + ae.entries.length ≤ (w.llog ae.term).length
  entries : ae.entries =
    ((w.llog ae.term).take (ae.prevLogIndex + ae.entries.length)).drop ae.prevLogIndex
  prev : ae.prevLogIndex ≠ 0 → ae.prevLogTerm = stampAt (w.llog ae.term) ae.prevLogIndex
  anchored : md.full → w.Anchored ae.term dst ae.prevLogIndex
  commit : md.full → w.CommittedIn ae.term (w.llog ae.term) ae.leaderCommit
  reach : md.full → ae.leaderCommit ≤ ae.prevLogIndex + ae.entries.length ∨ 0 < ae.entries.length

/-- The conflict fields of a rejection by `src` give the leader of `T` an anchor for `src`. -/
structure RejectOk (w : RaftWorld) (T : Nat) (src : NodeId) (r : AppendEntriesReply) : Prop where
  leader : w.leader T ≠ none
  plain : w.Anchored T src (max r.conflictIndex 1 - 1)
  term : r.conflictTerm ≠ 0 → r.conflictTerm ≠ T ∧ ∀ j x, (w.llog T)[j]? = some x →
    x.term = r.conflictTerm → (∀ k y, j < k → (w.llog T)[k]? = some y → y.term ≠ r.conflictTerm) →
    w.Anchored T src (j + 1)

/-- The `AppendEntries` that the sender of a packet was handling. -/
def Packet.request (p : Packet M) : Option AppendEntries :=
  match p.re with
  | some (.appendEntries ae) => some ae
  | _ => none

/-- A reply to an `AppendEntries` confirms what that message carried, or says where to go back. -/
structure ReplyOk (md : Mode) (w : RaftWorld) (p : Packet M) (r : AppendEntriesReply) :
    Prop where
  success : r.success = true → ∃ ae, p.request = some ae ∧ ae.term = r.term ∧
    ae.prevLogIndex + ae.entries.length ≤ w.acked p.src r.term
  reject : md.full → r.success = false → ∃ ae, p.request = some ae ∧
    (ae.term = r.term → RejectOk w r.term p.src r)

/-- An `InstallSnapshot` stands for a committed part of its leader's log. -/
structure InstallOk {B : Type} (md : Mode) (w : RaftWorld) (src dst : NodeId)
    (is : InstallSnapshot B) : Prop where
  comp : md.comp
  leader : w.leader is.term = some src
  pos : 0 < is.lastIncludedIndex
  len : is.lastIncludedIndex ≤ (w.llog is.term).length
  term : is.lastIncludedTerm = stampAt (w.llog is.term) is.lastIncludedIndex
  commit : w.CommittedIn is.term (w.llog is.term) is.lastIncludedIndex
  anchored : w.Anchored is.term dst (is.lastIncludedIndex - 1)

structure InstallReplyOk (md : Mode) (w : RaftWorld) (src : NodeId) (r : InstallSnapshotReply) :
    Prop where
  comp : md.comp
  leader : w.leader r.term ≠ none
  acked : r.lastIncludedIndex ≤ w.acked src r.term
  anchored : w.Anchored r.term src r.lastIncludedIndex

/-- What a packet stands for, votes apart. -/
def MsgOk (md : Mode) (w : RaftWorld) (p : Packet M) : Prop :=
  match p.msg with
  | .requestVote rv => ∃ lc, w.cand p.src rv.term = some lc ∧ rv.lastLogIndex = lc.length ∧
      rv.lastLogTerm = lastTm LogEntry.term lc
  | .appendEntries ae => AppendOk md w p.src p.dst ae
  | .appendEntriesReply r => ReplyOk md w p r
  | .installSnapshot is => InstallOk md w p.src p.dst is
  | .installSnapshotReply r => InstallReplyOk md w p.src r
  | _ => True

/-- What a packet stands for. -/
structure PacketOk (md : Mode) (w : RaftWorld) (p : Packet M) : Prop where
  vote : VoteMsg w.toBallot p.src p.dst p.msg
  msg : MsgOk md w p

/-- What a recorded effect of node `n` stands for. -/
def EffectOk (md : Mode) (w : RaftWorld) (n : NodeId) : Effect M → Prop
  | .accepted ae => ae.prevLogIndex + ae.entries.length ≤ w.acked n ae.term
  | .applied i e _ => 0 < i ∧ e.index = i ∧
      (md.full → ∃ T, i ≤ w.lcommit T ∧ (w.llog T)[i - 1]? = some e)
  | _ => True

section Stable

variable {md : Mode} {Q : Quorums NodeId} {w w' : RaftWorld} {src dst n : NodeId}

theorem AppendOk.steps {ae : AppendEntries} (hw : Coherent md Q w) (hs : md.Steps Q w w')
    (h : AppendOk md w src dst ae) : AppendOk md w' src dst ae := by
  have hx := hw.steps_extends hs
  have hpre := hx.llog_isPre ae.term
  have hled : w.leader ae.term ≠ none := by rw [h.leader]; simp
  have hlen := h.len
  exact {
    leader := hx.ballot.leader_keep _ _ h.leader
    len := Nat.le_trans h.len hpre.length_le
    entries := by rw [hx.llog_take h.len]; exact h.entries
    prev := fun h0 => by rw [h.prev h0, stampAt_isPre hpre (by omega)]
    anchored := fun hf => (h.anchored hf).steps hw.sound hs hled
    commit := fun hf =>
      ((h.commit hf).extends hw.sound hx).mono (Nat.le_refl _) (Nat.le_refl _) hpre
    reach := h.reach }

theorem RejectOk.steps {T : Nat} {r : AppendEntriesReply} (hw : Coherent md Q w)
    (hs : md.Steps Q w w') (h : RejectOk w T src r) : RejectOk w' T src r := by
  have hx := hw.steps_extends hs
  refine ⟨hx.leader_ne h.leader, h.plain.steps hw.sound hs h.leader, fun h0 => ?_⟩
  obtain ⟨hne, hlast⟩ := h.term h0
  refine ⟨hne, fun j x hx' hxt hno => ?_⟩
  -- an entry of another term is in the log the leader started from
  have hs' := (World.Steps.sound_extends hs hw.sound).1
  have hj : j < (w'.ilog T).length := by
    by_contra hge
    exact hne (hxt.symm.trans (hs'.tail_tm T j x (by omega) hx'))
  rw [hx.ilog_keep T h.leader] at hj
  have hjl : j < (w.llog T).length := Nat.lt_of_lt_of_le hj (hw.sound.ilog_isPre T).length_le
  rw [getElem?_isPre_eq (hx.llog_isPre T) hjl] at hx'
  exact (hlast j x hx' hxt fun k y hk hy =>
    hno k y hk (getElem?_of_isPre (hx.llog_isPre T) hy)).steps hw.sound hs h.leader

theorem ReplyOk.steps {p : Packet M} {r : AppendEntriesReply} (hw : Coherent md Q w)
    (hs : md.Steps Q w w') (h : ReplyOk md w p r) : ReplyOk md w' p r := by
  have hx := hw.steps_extends hs
  refine ⟨fun hr => ?_, fun hf hr => ?_⟩
  · obtain ⟨ae, h1, h2, h3⟩ := h.success hr
    exact ⟨ae, h1, h2, Nat.le_trans h3 (hx.acked_le _ _)⟩
  · obtain ⟨ae, h1, h2⟩ := h.reject hf hr
    exact ⟨ae, h1, fun ht => (h2 ht).steps hw hs⟩

theorem InstallOk.steps {B : Type} {is : InstallSnapshot B} (hw : Coherent md Q w)
    (hs : md.Steps Q w w') (h : InstallOk md w src dst is) :
    InstallOk md w' src dst is := by
  have hx := hw.steps_extends hs
  have hpre := hx.llog_isPre is.term
  have hled : w.leader is.term ≠ none := by rw [h.leader]; simp
  exact {
    comp := h.comp
    leader := hx.ballot.leader_keep _ _ h.leader
    pos := h.pos
    len := Nat.le_trans h.len hpre.length_le
    term := by rw [h.term, stampAt_isPre hpre h.len]
    commit := (h.commit.extends hw.sound hx).mono (Nat.le_refl _) (Nat.le_refl _) hpre
    anchored := h.anchored.steps hw.sound hs hled }

theorem InstallReplyOk.steps {r : InstallSnapshotReply} (hw : Coherent md Q w)
    (hs : md.Steps Q w w') (h : InstallReplyOk md w src r) :
    InstallReplyOk md w' src r := by
  have hx := hw.steps_extends hs
  exact ⟨h.comp, hx.leader_ne h.leader, Nat.le_trans h.acked (hx.acked_le _ _),
    h.anchored.steps hw.sound hs h.leader⟩

theorem PacketOk.steps {p : Packet M} (hw : Coherent md Q w) (hs : md.Steps Q w w')
    (h : PacketOk md w p) : PacketOk md w' p := by
  have hx := hw.steps_extends hs
  refine ⟨h.vote.extends hx.ballot, ?_⟩
  have hm := h.msg
  unfold MsgOk at hm ⊢
  cases hp : p.msg with
  | requestVote rv =>
    rw [hp] at hm
    obtain ⟨lc, h1, h2⟩ := hm
    exact ⟨lc, hx.cand_keep _ _ _ h1, h2⟩
  | appendEntries ae => rw [hp] at hm; exact AppendOk.steps hw hs hm
  | appendEntriesReply r => rw [hp] at hm; exact ReplyOk.steps hw hs hm
  | installSnapshot is => rw [hp] at hm; exact InstallOk.steps hw hs hm
  | installSnapshotReply r => rw [hp] at hm; exact InstallReplyOk.steps hw hs hm
  | _ => trivial

theorem EffectOk.steps {x : Effect M} (hw : Coherent md Q w) (hs : md.Steps Q w w')
    (h : EffectOk md w n x) : EffectOk md w' n x := by
  have hx := hw.steps_extends hs
  cases x with
  | accepted ae => exact Nat.le_trans h (hx.acked_le _ _)
  | applied i e kv =>
    refine ⟨h.1, h.2.1, fun hf => ?_⟩
    obtain ⟨T, h1, h2⟩ := h.2.2 hf
    exact ⟨T, Nat.le_trans h1 (hx.lcommit_le T), getElem?_of_isPre (hx.llog_isPre T) h2⟩
  | _ => trivial

end Stable

end SimKV
