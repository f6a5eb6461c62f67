/-
# Append windows in any order

A leader's log only grows within its term, and each `AppendEntries` it sends is a
window cut from what the log was at that moment.  The network may deliver the
windows late, twice and in any order to a follower whose log ends in anything at
all.  This module says what becomes of the follower's log, with compaction off:
its common prefix with the leader's log never shrinks, an accepted window is in it
whole, and the assertion of `RaftLog::append` holds at every call.

The loop is analysed in `SimKV.Raft.LogRep`: offered a stretch of `K` it leaves the
log alone if the stretch is there, and makes it a prefix of `K` otherwise
(`LogRep.spliced`).  What is left is that a window is such a stretch (`CutFrom`) and
that nothing else in the handler touches the log (`Node.hear_log`).
-/
import SimKV.Raft.Books

namespace SimKV

variable {M : Medium}

/-! ## The longest common prefix -/

section CommonPrefix

variable {α : Type} [DecidableEq α]

/-- The length of the longest common prefix of two lists. -/
def commonLen : List α → List α → Nat
  | a :: as, b :: bs => if a = b then commonLen as bs + 1 else 0
  | _, _ => 0

/-- It is at least `n` exactly if both lists have their first `n` elements in common. -/
theorem le_commonLen_iff {as bs : List α} {n : Nat} :
    n ≤ commonLen as bs ↔ n ≤ as.length ∧ n ≤ bs.length ∧ as.take n = bs.take n := by
  induction as generalizing bs n with
  | nil =>
    simp only [commonLen, List.length_nil]
    constructor
    · intro hn
      rw [Nat.le_zero.mp hn]
      simp
    · exact And.left
  | cons a as ih =>
    cases bs with
    | nil =>
      simp only [commonLen, List.length_nil]
      constructor
      · intro hn
        rw [Nat.le_zero.mp hn]
        simp
      · exact fun h => h.2.1
    | cons b bs =>
      cases n with
      | zero => simp
      | succ n =>
        by_cases hab : a = b
        · subst hab
          simp [commonLen, ih]
        · simp [commonLen, hab]

end CommonPrefix

/-- Offered a stretch of `K`, a list does not lose what it has in common with `K`, and has the
stretch afterwards. -/
theorem LogRep.commonLen_spliced (L K : List LogEntry) {m : Nat} (hm : m ≤ K.length) :
    commonLen L K ≤ commonLen (LogRep.spliced L K m) K ∧
      m ≤ commonLen (LogRep.spliced L K m) K := by
  unfold LogRep.spliced
  split
  · rename_i hpre
    have hlen := hpre.length_le
    rw [List.length_take, Nat.min_eq_left hm] at hlen
    refine ⟨Nat.le_refl _, le_commonLen_iff.mpr ⟨hlen, hm, ?_⟩⟩
    have htake := TermLog.take_eq_of_isPre hpre (i := m) (by rw [List.length_take]; omega)
    rw [htake, List.take_take, Nat.min_self]
  · rename_i hpre
    have hcover : m ≤ commonLen (K.take m) K :=
      le_commonLen_iff.mpr
        ⟨by rw [List.length_take]; omega, hm, by rw [List.take_take, Nat.min_self]⟩
    refine ⟨Nat.le_trans (Nat.le_of_not_le fun hle => hpre ?_) hcover, hcover⟩
    rw [← (le_commonLen_iff.mp hle).2.2]
    exact List.take_prefix _ _

/-! ## The assertion of `append` -/

/-- Every call of `RaftLog::append` in the loop passes `entry.index == last_index() + 1`. -/
def AppendsInOrder : List LogEntry → RaftLog → Prop
  | [], _ => True
  | e :: es, l =>
    if e.index ≤ l.lastIndex then
      if e.index ≤ l.baseIndex then AppendsInOrder es l
      else if (l.entryAt e.index).map LogEntry.term ≠ some e.term then
        e.index = (l.truncateFrom e.index).lastIndex + 1 ∧
          AppendsInOrder es ((l.truncateFrom e.index).append e)
      else AppendsInOrder es l
    else e.index = l.lastIndex + 1 ∧ AppendsInOrder es (l.append e)

/-- Entries numbered from within the log on are appended in order. -/
theorem appendsInOrder_of_consecutive (es : List LogEntry) {l : RaftLog} {i : Nat}
    (hes : Consecutive i es) (hi : i ≤ l.lastIndex) : AppendsInOrder es l := by
  induction es generalizing l i with
  | nil => trivial
  | cons e es ih =>
    have hidx := hes.head
    unfold AppendsInOrder
    split
    · rename_i hle
      split
      · exact ih hes.tail (by omega)
      · rename_i hb
        split
        · have hcut := RaftLog.lastIndex_truncateFrom (l := l) (i := e.index) (by omega) hle
          refine ⟨hcut.symm, ih hes.tail ?_⟩
          rw [RaftLog.lastIndex_append]
          omega
        · exact ih hes.tail (by omega)
    · refine ⟨by omega, ih hes.tail ?_⟩
      rw [RaftLog.lastIndex_append]
      omega

/-! ## Windows -/

/-- Nothing has been compacted. -/
structure RaftLog.Uncompacted (l : RaftLog) : Prop where
  baseIndex : l.baseIndex = 0
  baseTerm : l.baseTerm = 0

theorem RaftLog.Uncompacted.logRep {l : RaftLog} (h : l.Uncompacted) : LogRep l l.entries where
  base_le := by rw [h.baseIndex]; exact Nat.zero_le _
  entries := by rw [h.baseIndex]; rfl
  baseTerm := by rw [h.baseTerm, h.baseIndex]; rfl

namespace Node

variable {s s' : Node M} {peer : NodeId} {ae : AppendEntries}

/-- `replicate_to` on a log that was never compacted, for a next index within it. -/
theorem replicateTo_eq (hrole : s.role = .leader) (hsnap : s.snapLastIndex = 0)
    (hlog : s.log.Uncompacted) {p : Nat} (hnext : s.nextIndex.getD peer 0 = p + 1)
    (hp : p ≤ s.log.entries.length) :
    s.replicateTo peer = .ok (({ s with nextIndex := s.nextIndex.touch peer 0 } : Node M).sendAppend
      peer p (stampAt s.log.entries p)) := by
  have hrl := hlog.logRep
  unfold replicateTo
  simp only [if_neg (not_not_intro hrole), OrdMap.getD_touch, hnext, hsnap, Nat.add_sub_cancel]
  rw [if_neg (Nat.not_succ_le_zero p)]
  rcases Nat.eq_zero_or_pos p with rfl | hpos
  · rw [if_neg (Nat.lt_irrefl 0), stampAt_zero]
  · have hb : s.log.baseIndex ≤ p := by rw [hlog.baseIndex]; exact Nat.zero_le p
    have hcont := (hrl.contains_iff (Nat.ne_of_gt hpos)).mpr ⟨hb, hp, rfl⟩
    rw [if_pos hpos, hrl.termAt hb hp]
    simp only [hcont, if_true]

/-- Past the end of the log it throws. -/
theorem replicateTo_throws (hrole : s.role = .leader) (hsnap : s.snapLastIndex = 0)
    (hlog : s.log.Uncompacted) {p : Nat} (hnext : s.nextIndex.getD peer 0 = p + 1)
    (hp : s.log.entries.length < p) : ∃ err, s.replicateTo peer = .error err := by
  have hnone : s.log.termAt p = none := by
    by_contra hsome
    obtain ⟨t, ht⟩ := Option.ne_none_iff_exists'.mp hsome
    have hle := RaftLog.termAt_le ht
    rw [hlog.logRep.lastIndex] at hle
    omega
  unfold replicateTo
  simp only [if_neg (not_not_intro hrole), OrdMap.getD_touch, hnext, hsnap, Nat.add_sub_cancel,
    hnone]
  rw [if_neg (Nat.not_succ_le_zero p), if_pos (by omega)]
  exact ⟨_, rfl⟩

/-- The window that `replicate_to` sends, if it sends one. -/
theorem replicateTo_window (hsnap : s.snapLastIndex = 0) (hlog : s.log.Uncompacted)
    (hout : s.out = []) (hrep : s.replicateTo peer = .ok s')
    (hsent : .send peer (.appendEntries ae) ∈ s'.out) :
    ae.term = s.currentTerm ∧ ae.prevLogIndex ≤ s.log.entries.length ∧
      ae.prevLogTerm = stampAt s.log.entries ae.prevLogIndex ∧
      ae.entries = s.window ae.prevLogIndex := by
  by_cases hrole : s.role = .leader
  · cases hnext : s.nextIndex.getD peer 0 with
    | zero =>
      -- `next_index_` 0 asks for a snapshot, and there is none
      unfold replicateTo at hrep
      simp only [if_neg (not_not_intro hrole), OrdMap.getD_touch, hnext, Nat.zero_le, if_true,
        sendInstallSnapshot, hsnap] at hrep
      cases hrep
      exact nomatch hout ▸ hsent
    | succ p =>
      rcases Nat.lt_or_ge s.log.entries.length p with hlt | hp
      · obtain ⟨err, he⟩ := replicateTo_throws hrole hsnap hlog hnext hlt
        rw [he] at hrep
        exact nomatch hrep
      · rw [replicateTo_eq hrole hsnap hlog hnext hp] at hrep
        cases hrep
        simp only [sendAppend, send, emit, hout, List.nil_append, List.mem_singleton] at hsent
        cases hsent
        exact ⟨rfl, hp, rfl, rfl⟩
  · unfold replicateTo at hrep
    rw [if_pos hrole] at hrep
    cases hrep
    rw [hout] at hsent
    exact nomatch hsent

end Node

/-- The message is one that `replicate_to` sends at a node in term `T` whose log is a prefix of
`L`. -/
def CutFrom (M : Medium) (L : List LogEntry) (T : Nat) (ae : AppendEntries) : Prop :=
  ∃ (s s' : Node M) (peer : NodeId), s.currentTerm = T ∧ s.snapLastIndex = 0 ∧
    s.log.Uncompacted ∧ s.log.entries <+: L ∧ s.out = [] ∧ s.replicateTo peer = .ok s' ∧
    .send peer (.appendEntries ae) ∈ s'.out

/-- Such a message carries a stretch of `L` and the term of `L` before it. -/
theorem CutFrom.window {L : List LogEntry} {T : Nat} {ae : AppendEntries} (h : CutFrom M L T ae) :
    ∃ m, ae.prevLogIndex ≤ m ∧ m ≤ L.length ∧ ae.prevLogTerm = stampAt L ae.prevLogIndex ∧
      ae.entries = (L.take m).drop ae.prevLogIndex := by
  obtain ⟨s, s', peer, -, hsnap, hlog, hpre, hout, hrep, hsent⟩ := h
  obtain ⟨-, hle, hterm, hes⟩ := Node.replicateTo_window hsnap hlog hout hrep hsent
  have hlen := hpre.length_le
  refine ⟨min (ae.prevLogIndex + s.cfg.maxEntriesPerAe) s.log.entries.length, ?_, ?_, ?_, ?_⟩
  · omega
  · omega
  · rw [hterm, stampAt_isPre hpre hle]
  · rw [hes, hlog.logRep.window (by rw [hlog.baseIndex]; exact Nat.zero_le _)]
    congr 1
    exact (TermLog.take_eq_of_isPre hpre (Nat.min_le_right _ _)).symm

/-! ## What a follower makes of them -/

/-- A move changes the log only on an input that brings entries, by compaction, or by a restart. -/
theorem Move.log_eq {n₀ s s' : Node M} {t : Nat} (h : Move n₀ t .heartbeatTimer s s')
    (hthr : s.cfg.snapshotThreshold = 0) : s'.log = s.log := by
  cases h with
  | accept src ae es hq hinp => exact nomatch hinp
  | install src is kv es hq hinp => exact nomatch hinp
  | place cmd cb cp es hq h₀ hinp =>
    rcases hinp with ⟨_, _, hinp, -⟩ | ⟨_, _, hinp, -⟩ <;> exact nomatch hinp
  | boot s' hinp => exact nomatch hinp
  | crash kv hinp => exact nomatch hinp
  | snapshot k es hq hpos =>
    rw [hthr] at hpos
    exact absurd hpos (Nat.lt_irrefl 0)
  | beginRead key hinp => exact nomatch hinp
  | _ => rfl

theorem Moves.log_eq {n₀ s s' : Node M} {t : Nat} (h : Moves n₀ t .heartbeatTimer s s')
    (hthr : s.cfg.snapshotThreshold = 0) :
    s'.log = s.log ∧ s'.cfg.snapshotThreshold = 0 := by
  induction h with
  | refl => exact ⟨rfl, hthr⟩
  | tail _ hm ih => exact ⟨(hm.log_eq ih.2).trans ih.1, by rw [hm.kept.cfg]; exact ih.2⟩

namespace Node

variable {s : Node M} {src : NodeId} {ae : AppendEntries}

theorem handleAppendEntries_log (hi : s.Rested) (hout : s.out = [])
    (hthr : s.cfg.snapshotThreshold = 0) :
    ((s.handleAppendEntries src ae).state.log = s.log ∧
      .accepted ae ∉ (s.handleAppendEntries src ae).state.out) ∨
    (s.log.contains ae.prevLogIndex ae.prevLogTerm = true ∧
      (s.handleAppendEntries src ae).state.log = appendLoop ae.entries s.log) := by
  by_cases hlt : ae.term < s.currentTerm
  · rw [handleAppendEntries, if_pos hlt]
    exact Or.inl ⟨rfl, by simp [Res.state, send, emit, hout]⟩
  · have hf := s.becomeFollower_spec (some src) (Nat.not_lt.mp hlt)
    cases hprev : s.log.contains ae.prevLogIndex ae.prevLogTerm with
    | false =>
      rw [handleAppendEntries_rejects src hlt hprev]
      refine Or.inl ⟨hf.log, fun hmem => ?_⟩
      rcases List.mem_append.mp hmem with hmem | hmem
      · rcases hf.quiet _ hmem with hold | hquiet
        · rw [hout] at hold
          cases hold
        · cases hquiet
      · cases List.mem_singleton.mp hmem
    | true =>
      obtain ⟨s₂, hmoves, -, hres⟩ := handleAppendEntries_takes src hi hlt hprev
      have hm : Move s 0 .heartbeatTimer s (s.becomeFollower ae.term (some src)) :=
        becomeFollower_move s (some src) (Nat.not_lt.mp hlt) rfl
      have hcfg := hm.kept.cfg
      clear hm
      generalize s.becomeFollower ae.term (some src) = s₁ at hf hcfg hmoves hres
      obtain ⟨es, -, -, he⟩ := s₁.acceptEntries_eq ae
      have hlog : s₂.log = appendLoop ae.entries s.log := by
        have hoff := (hmoves s 0 .heartbeatTimer).log_eq (by rw [he, ← hthr, ← hcfg]; rfl)
        rw [hoff.1, he, ← hf.log]
        rfl
      refine Or.inr ⟨rfl, ?_⟩
      rcases hres with hres | ⟨m, hres⟩
      · rw [hres]
        exact hlog
      · rw [hres]
        exact hlog

/-- The node after it has handled an `AppendEntries`. -/
def hear (s : Node M) (p : NodeId × AppendEntries) : Node M :=
  { s.handle 0 (.message p.1 (.appendEntries p.2)) with out := [], applying := none }

/-- A node between two steps, with compaction off, whose log matches `L`: the same term at one
index means the same entries up to there. -/
structure InStep (L : List LogEntry) (s : Node M) : Prop where
  rested : s.Rested
  out : s.out = []
  threshold : s.cfg.snapshotThreshold = 0
  log : s.log.Uncompacted
  matching : LogRep.Matching s.log.entries L

/-- The handling of one message does to the common prefix with `L` what it should. -/
structure Absorbs (L : List LogEntry) (s : Node M) (p : NodeId × AppendEntries) : Prop where
  grows : commonLen s.log.entries L ≤ commonLen (s.hear p).log.entries L
  covers : .accepted p.2 ∈ (s.handle 0 (.message p.1 (.appendEntries p.2))).out →
    p.2.prevLogIndex + p.2.entries.length ≤ commonLen (s.hear p).log.entries L
  inOrder : s.log.contains p.2.prevLogIndex p.2.prevLogTerm = true →
    AppendsInOrder p.2.entries s.log

variable {L : List LogEntry} {T : Nat}

/-- The predecessor a window names is where the two logs agree. -/
theorem InStep.take_eq (h : InStep L s) {prev : Nat} (hprev : prev ≤ L.length)
    (hc : s.log.contains prev (stampAt L prev) = true) :
    prev ≤ s.log.entries.length ∧ s.log.entries.take prev = L.take prev := by
  rcases Nat.eq_zero_or_pos prev with rfl | hpos
  · exact ⟨Nat.zero_le _, rfl⟩
  · obtain ⟨-, hle, hstamp⟩ := (h.log.logRep.contains_iff (Nat.ne_of_gt hpos)).mp hc
    obtain ⟨e, he, hte⟩ := exists_stampAt hpos hle
    obtain ⟨d, hd, htd⟩ := exists_stampAt hpos hprev
    have htake := h.matching _ e d he hd (by rw [← hte, ← htd, hstamp])
    rw [Nat.sub_add_cancel hpos] at htake
    exact ⟨hle, htake⟩

/-- A window that passes the check leaves the log spliced with `L`. -/
theorem InStep.appendLoop (h : InStep L s) (hL : Indexed L) {m : Nat} (hm : m ≤ L.length)
    (hprev : ae.prevLogIndex ≤ m) (hes : ae.entries = (L.take m).drop ae.prevLogIndex)
    (hc : s.log.contains ae.prevLogIndex (stampAt L ae.prevLogIndex) = true) :
    (Node.appendLoop ae.entries s.log).Uncompacted ∧
      (Node.appendLoop ae.entries s.log).entries = LogRep.spliced s.log.entries L m := by
  have hbase := LogRep.appendLoop_base ae.entries s.log
  have hun : (Node.appendLoop ae.entries s.log).Uncompacted :=
    ⟨hbase.1.trans h.log.baseIndex, hbase.2.trans h.log.baseTerm⟩
  have hrep := LogRep.appendLoop hL hm ae.entries h.log.logRep hes hprev
    (h.take_eq (Nat.le_trans hprev hm) hc).2
    (by rw [h.log.baseIndex]; exact List.nil_prefix) h.matching
  refine ⟨hun, ?_⟩
  rw [hrep.entries, hun.baseIndex, List.drop_zero]

theorem matching_spliced {K L : List LogEntry} (h : LogRep.Matching K L) (m : Nat) :
    LogRep.Matching (LogRep.spliced K L m) L := by
  unfold LogRep.spliced
  split
  · exact h
  · exact LogRep.matching_take L m

/-- The handler leaves the log alone and does not accept, or runs the loop on it. -/
theorem InStep.handle_log (h : InStep L s) (src : NodeId) (ae : AppendEntries) :
    ((s.handle 0 (.message src (.appendEntries ae))).log = s.log ∧
      .accepted ae ∉ (s.handle 0 (.message src (.appendEntries ae))).out) ∨
    (s.log.contains ae.prevLogIndex ae.prevLogTerm = true ∧
      (s.handle 0 (.message src (.appendEntries ae))).log = Node.appendLoop ae.entries s.log) := by
  rw [handle, onMessage]
  split
  · exact Or.inl ⟨rfl, by rw [h.out]; exact List.not_mem_nil⟩
  · exact handleAppendEntries_log h.rested h.out h.threshold

/-- A stretch of `L` is numbered from its predecessor on. -/
theorem consecutive_window (hL : Indexed L) (m prev : Nat) :
    Consecutive prev ((L.take m).drop prev) := by
  have hall : Consecutive 0 L := fun k e hk => by rw [hL k e hk, Nat.zero_add]
  have hwin := (hall.take m).drop prev
  rwa [Nat.zero_add] at hwin

/-- **One window.** -/
theorem InStep.hear (h : InStep L s) (hL : Indexed L) {p : NodeId × AppendEntries}
    (hp : CutFrom M L T p.2) : Absorbs L s p ∧ InStep L (s.hear p) := by
  obtain ⟨src, ae⟩ := p
  obtain ⟨m, hprev, hm, hterm, hes⟩ := hp.window
  simp only at hprev hterm hes
  have hsteps := s.handle_moves 0 (.message src (.appendEntries ae)) h.rested
  have hlen : ae.prevLogIndex + ae.entries.length = m := by
    rw [hes, List.length_drop, List.length_take]
    omega
  have hinOrder : s.log.contains ae.prevLogIndex ae.prevLogTerm = true →
      AppendsInOrder ae.entries s.log := by
    intro hc
    refine appendsInOrder_of_consecutive ae.entries ?_ (RaftLog.contains_le hc)
    rw [hes]
    exact consecutive_window hL m _
  have hnext : (s.hear (src, ae)).log.Uncompacted →
      LogRep.Matching (s.hear (src, ae)).log.entries L → InStep L (s.hear (src, ae)) :=
    fun hun hmat => ⟨⟨rfl, hsteps.2.2⟩, rfl,
      (congrArg RaftConfig.snapshotThreshold hsteps.1.kept.cfg).trans h.threshold, hun, hmat⟩
  rcases h.handle_log src ae with ⟨hlog, hno⟩ | ⟨hc, hlog⟩
  · -- the log is as it was
    have hlog' : (s.hear (src, ae)).log = s.log := hlog
    exact ⟨⟨by rw [hlog'], fun hacc => absurd hacc hno, hinOrder⟩,
      hnext (hlog' ▸ h.log) (hlog' ▸ h.matching)⟩
  · have hlog' : (s.hear (src, ae)).log = Node.appendLoop ae.entries s.log := hlog
    obtain ⟨hun, hspl⟩ := h.appendLoop hL hm hprev hes (hterm ▸ hc)
    rw [← hlog'] at hun hspl
    obtain ⟨hgrow, hcover⟩ := LogRep.commonLen_spliced s.log.entries L hm
    rw [← hspl] at hgrow hcover
    exact ⟨⟨hgrow, fun _ => by rw [hlen]; exact hcover, hinOrder⟩,
      hnext hun (hspl ▸ matching_spliced h.matching m)⟩

/-- **Append windows in any order.**  Whatever windows of `L` a follower is given, in whatever
order and however often: each of them is absorbed as it should be. -/
theorem append_windows (L : List LogEntry) (hL : Indexed L) (T : Nat) (s : Node M)
    (hs : InStep L s) (ps : List (NodeId × AppendEntries)) (hps : ∀ p ∈ ps, CutFrom M L T p.2)
    (before after : List (NodeId × AppendEntries)) (p : NodeId × AppendEntries)
    (hsplit : ps = before ++ p :: after) : Absorbs L (before.foldl Node.hear s) p := by
  have hrun : InStep L (before.foldl Node.hear s) := by
    have hbefore : ∀ q ∈ before, CutFrom M L T q.2 := fun q hq =>
      hps q (by rw [hsplit]; exact List.mem_append_left _ hq)
    clear hsplit
    induction before generalizing s with
    | nil => exact hs
    | cons q before ih =>
      exact ih (s.hear q) (hs.hear hL (hbefore q List.mem_cons_self)).2
        fun q' hq' => hbefore q' (List.mem_cons_of_mem _ hq')
  exact (hrun.hear hL (hps p (by rw [hsplit]; simp))).1

end Node

/-- An entry of term `t` at index `i`. -/
def LogEntry.putAt (t i : Nat) : LogEntry := ⟨t, i, .put (Str.lit "k") (Str.lit "v")⟩

namespace Node

open LogEntry (putAt)

/-- A leader of term 2 that is about to send from index `next` on. -/
def sending (next : Nat) : Node Medium.bytes :=
  { Node.init Medium.bytes 1 [2] {} with
    running := true, role := .leader, currentTerm := 2, log := ⟨[putAt 1 1, putAt 2 2], 0, 0⟩
    nextIndex := OrdMap.empty.insert 2 next }

/-- A follower whose second entry is another one. -/
def diverging : Node Medium.bytes :=
  { Node.init Medium.bytes 2 [1] {} with
    running := true, currentTerm := 1, log := ⟨[putAt 1 1, putAt 1 2], 0, 0⟩ }

/-- The second window before the first, and the second again. -/
theorem append_windows_reordered :
    Absorbs [putAt 1 1, putAt 2 2]
      ([(1, ⟨2, 1, 1, 1, [putAt 2 2], 0⟩), (1, ⟨2, 1, 0, 0, [putAt 1 1, putAt 2 2], 0⟩)].foldl
        Node.hear diverging) (1, ⟨2, 1, 1, 1, [putAt 2 2], 0⟩) := by
  have hindexed : Indexed [putAt 1 1, putAt 2 2] := by
    rintro (_ | _ | k) d hd <;> simp at hd <;> subst hd <;> rfl
  have hsecond : CutFrom Medium.bytes [putAt 1 1, putAt 2 2] 2 ⟨2, 1, 1, 1, [putAt 2 2], 0⟩ :=
    ⟨sending 2, _, 2, rfl, rfl, ⟨rfl, rfl⟩, List.prefix_rfl, rfl, rfl, List.mem_singleton.mpr rfl⟩
  have hfirst : CutFrom Medium.bytes [putAt 1 1, putAt 2 2] 2
      ⟨2, 1, 0, 0, [putAt 1 1, putAt 2 2], 0⟩ :=
    ⟨sending 1, _, 2, rfl, rfl, ⟨rfl, rfl⟩, List.prefix_rfl, rfl, rfl, List.mem_singleton.mpr rfl⟩
  refine append_windows [putAt 1 1, putAt 2 2] hindexed 2 diverging
    ⟨⟨rfl, Nat.le_refl 0⟩, rfl, rfl, ⟨rfl, rfl⟩, ?_⟩ _ ?_ _ [] _ rfl
  · rintro (_ | _ | k) e e' he he' ht <;> simp [diverging] at he he' <;> subst he he'
    · rfl
    · exact absurd ht (by decide)
  · rintro p hp
    simp only [List.cons_append, List.nil_append, List.mem_cons, List.not_mem_nil, or_false] at hp
    rcases hp with rfl | rfl | rfl
    · exact hsecond
    · exact hfirst
    · exact hsecond

end Node

end SimKV
