/-
# Fast backtracking

When a follower lacks the predecessor of an `AppendEntries`, its rejection names the
term `ct` it has there and the *last* index of that term in its log; the leader goes
to one past its own last entry of term `ct`, or, if it has none, to the index the
follower named.  With the last index, and not the first, the leader may move
forward: with no entry of term `ct` of its own it goes to the end of the follower's
stretch, past the end of its own log (`replicate_to` throws) or to an index where it
is rejected again, for ever.

`Retreats` is the exact condition on the two logs under which a rejection moves the
leader back.  One rejection that meets it is not enough: with four entries of term 2
against three of term 1, the rejections of 4 and 3 lead back to 2, and 2 is rejected for ever.
The exchanges that begin at or below an index all end if and only if every index up to it
that the follower rejects meets the condition (`fast_backtracking`).
-/
import SimKV.Raft.AppendWindows

namespace SimKV

variable {M : Medium}

/-! ## The last index of a term -/

/-- `last_index_for_term` is at most `P` exactly if no entry after `P` has the term. -/
theorem LogRep.lastIndexForTerm_le_iff {l : RaftLog} {L : List LogEntry} (h : LogRep l L)
    (hb : l.baseIndex = 0) (hL : Indexed L) (t P : Nat) :
    l.lastIndexForTerm t ≤ P ↔ ∀ x ∈ L.drop P, x.term ≠ t := by
  constructor
  · rintro hle x hx rfl
    obtain ⟨k, hk⟩ := List.mem_iff_getElem?.mp hx
    rw [List.getElem?_drop] at hk
    have := h.le_lastIndexForTerm hL (by rw [hb]; exact Nat.zero_le _) hk
    omega
  · intro hno
    rcases h.lastIndexForTerm hL t with h0 | ⟨j, x, hj, hx, ht, -⟩
    · omega
    · by_contra hlt
      refine hno x (List.mem_iff_getElem?.mpr ⟨j - P, ?_⟩) ht
      rw [List.getElem?_drop, show P + (j - P) = j by omega]
      exact hx

/-! ## The leader's next index -/

/-- The rejection of `P` by a follower with entries `F` moves a leader with entries `K` back: `P`
is past the end of `F`; or the leader has entries of the term `ct` that `F` has at `P`, all of them
before `P`; or it has none, and `P` is the last entry of term `ct` in `F`.  (Term 0 stands for no
term.) -/
def Retreats (K F : List LogEntry) (P : Nat) : Prop :=
  F.length < P ∨ ∃ d, F[P - 1]? = some d ∧
    ((d.term ≠ 0 ∧ (∃ x ∈ K, x.term = d.term) ∧ d.term < stampAt K P) ∨
      ((d.term = 0 ∨ ∀ x ∈ K, x.term ≠ d.term) ∧ ∀ x ∈ F.drop P, x.term ≠ d.term))

/-- The log of these entries, with nothing compacted. -/
def RaftLog.ofEntries (L : List LogEntry) : RaftLog := ⟨L, 0, 0⟩

theorem RaftLog.uncompacted_ofEntries (L : List LogEntry) : (ofEntries L).Uncompacted := ⟨rfl, rfl⟩

theorem RaftLog.logRep_ofEntries (L : List LogEntry) : LogRep (ofEntries L) L :=
  (uncompacted_ofEntries L).logRep

/-- `next_index_` after a rejection of `P`, from the two logs. -/
def nextOnReject (K F : List LogEntry) (P : Nat) : Nat :=
  let c := Node.conflict (.ofEntries F) P
  max 1 (if c.2 = 0 then c.1
    else if (RaftLog.ofEntries K).lastIndexForTerm c.2 > 0 then
      (RaftLog.ofEntries K).lastIndexForTerm c.2 + 1
    else c.1)

section Next

variable {K F : List LogEntry} {P : Nat}

/-- In a log of non-decreasing terms that has an entry of term `t`, all of them come before `P`
exactly if `t` is below the term at `P`. -/
theorem before_iff_lt (hsorted : K.Pairwise fun a b => a.term ≤ b.term) {t : Nat} (hpos : 0 < P)
    (hP : P ≤ K.length) (ht : ∃ x ∈ K, x.term = t) :
    (∀ x ∈ K.drop (P - 1), x.term ≠ t) ↔ t < stampAt K P := by
  obtain ⟨e, he, hstamp⟩ := exists_stampAt hpos hP
  have hlt : P - 1 < K.length := by omega
  have hdrop : K.drop (P - 1) = e :: K.drop P := by
    rw [List.drop_eq_getElem_cons hlt, Nat.sub_add_cancel hpos]
    congr 1
    rw [List.getElem?_eq_getElem hlt] at he
    exact Option.some.inj he
  have hsplit : K = K.take (P - 1) ++ (e :: K.drop P) := by
    rw [← hdrop, List.take_append_drop]
  rw [hdrop, hstamp]
  constructor
  · intro hno
    obtain ⟨x, hx, rfl⟩ := ht
    have hne := hno e List.mem_cons_self
    rw [hsplit] at hx hsorted
    rcases List.mem_append.mp hx with hx | hx
    · exact Nat.lt_of_le_of_ne
        ((List.pairwise_append.mp hsorted).2.2 x hx e List.mem_cons_self) (Ne.symm hne)
    · exact absurd rfl (hno x hx)
  · intro hlt x hx heq
    rw [hsplit] at hsorted
    have htail := (List.pairwise_append.mp hsorted).2.1
    rcases List.mem_cons.mp hx with rfl | hx
    · omega
    · have := (List.pairwise_cons.mp htail).1 x hx
      omega

/-- The conflict fields of a log that ends before `P`. -/
theorem conflict_of_short (h : F.length < P) :
    Node.conflict (.ofEntries F) P = (F.length + 1, 0) := by
  have hlast : (RaftLog.ofEntries F).lastIndex = F.length := (RaftLog.logRep_ofEntries F).lastIndex
  rw [Node.conflict, if_pos (by rw [hlast]; exact h), hlast]

/-- The conflict fields of a log with another entry at `P`: its term and the last index of that. -/
theorem conflict_of_entry (hF : Indexed F) (hpos : 0 < P) {d : LogEntry} (hd : F[P - 1]? = some d) :
    P ≤ (RaftLog.ofEntries F).lastIndexForTerm d.term ∧ Node.conflict (.ofEntries F) P =
      ((RaftLog.ofEntries F).lastIndexForTerm d.term, d.term) := by
  have hrep := RaftLog.logRep_ofEntries F
  have hlt := (List.getElem?_eq_some_iff.mp hd).1
  have hle := hrep.le_lastIndexForTerm hF (Nat.zero_le _) hd
  have hat : (RaftLog.ofEntries F).entryAt P = some d := hrep.entryAt.mpr ⟨hpos, hd⟩
  refine ⟨by omega, ?_⟩
  rw [Node.conflict, if_neg (by rw [hrep.lastIndex]; omega),
    if_pos (show P > (RaftLog.ofEntries F).baseIndex from hpos), hat]
  simp only [Option.map_some, Option.getD_some]
  rw [if_neg (by omega)]

/-- **A rejection moves the leader back exactly if the logs say so.** -/
theorem nextOnReject_le_iff (hK : Indexed K) (hF : Indexed F)
    (hsorted : K.Pairwise fun a b => a.term ≤ b.term) (hP : P ≤ K.length)
    (hno : (RaftLog.ofEntries F).contains P (stampAt K P) = false) :
    nextOnReject K F P ≤ P ↔ Retreats K F P := by
  have hpos : 0 < P := by
    rcases Nat.eq_zero_or_pos P with rfl | h
    · simp [RaftLog.contains] at hno
    · exact h
  rcases Nat.lt_or_ge F.length P with hshort | hlong
  · have hnext : nextOnReject K F P = F.length + 1 := by
      rw [nextOnReject, conflict_of_short hshort]
      exact Nat.max_eq_right (Nat.le_add_left 1 _)
    rw [hnext]
    exact ⟨fun _ => Or.inl hshort, fun _ => hshort⟩
  · obtain ⟨d, hd, -⟩ := exists_stampAt hpos hlong
    obtain ⟨hle, hc⟩ := conflict_of_entry hF hpos hd
    have hlastF := (RaftLog.logRep_ofEntries F).lastIndexForTerm_le_iff rfl hF d.term P
    have hlastK := (RaftLog.logRep_ofEntries K).lastIndexForTerm_le_iff rfl hK d.term
    have hsome : (∃ x ∈ K, x.term = d.term) ↔
        0 < (RaftLog.ofEntries K).lastIndexForTerm d.term := by
      rw [← not_iff_not, Nat.not_lt, hlastK 0]
      simp
    have hret : Retreats K F P ↔
        ((d.term ≠ 0 ∧ (∃ x ∈ K, x.term = d.term) ∧ d.term < stampAt K P) ∨
          ((d.term = 0 ∨ ∀ x ∈ K, x.term ≠ d.term) ∧ ∀ x ∈ F.drop P, x.term ≠ d.term)) := by
      unfold Retreats
      rw [hd]
      simp [Nat.not_lt.mpr hlong]
    rw [hret, nextOnReject, hc]
    simp only
    by_cases h0 : d.term = 0
    · simp only [h0, if_true, true_or, true_and, ne_eq, not_true, false_and, false_or]
      rw [h0] at hlastF hle
      rw [Nat.max_eq_right (Nat.le_trans hpos hle)]
      exact hlastF
    · rw [if_neg h0]
      by_cases hhas : ∃ x ∈ K, x.term = d.term
      · have hposK := hsome.mp hhas
        have hall : ¬ ∀ x ∈ K, x.term ≠ d.term := fun hall => by
          obtain ⟨x, hx, hxt⟩ := hhas
          exact hall x hx hxt
        rw [if_pos hposK, Nat.max_eq_right (Nat.le_add_left 1 _)]
        have hiff := before_iff_lt hsorted hpos hP hhas
        rw [← hlastK (P - 1)] at hiff
        constructor
        · intro h
          exact Or.inl ⟨h0, hhas, hiff.mp (by omega)⟩
        · rintro (⟨-, -, h⟩ | ⟨h | h, -⟩)
          · have := hiff.mpr h
            omega
          · exact absurd h h0
          · exact absurd h hall
      · have hzero : ¬ (RaftLog.ofEntries K).lastIndexForTerm d.term > 0 :=
          fun h => hhas (hsome.mpr h)
        rw [if_neg hzero, Nat.max_eq_right (Nat.le_trans hpos hle), hlastF]
        constructor
        · intro h
          refine Or.inr ⟨Or.inr fun x hx hxt => hhas ⟨x, hx, hxt⟩, h⟩
        · rintro (⟨-, h, -⟩ | ⟨-, h⟩)
          · exact absurd h hhas
          · exact h

end Next

/-! ## The exchange -/

/-- The message that `replicate_to` sends for the next index `Q + 1`. -/
def Node.probe (s : Node M) (Q : Nat) : AppendEntries :=
  ⟨s.currentTerm, s.id, Q, stampAt s.log.entries Q, s.window Q, s.commitIndex⟩

theorem Node.replicateTo_probe {s : Node M} {peer : NodeId} {Q : Nat} (hrole : s.role = .leader)
    (hsnap : s.snapLastIndex = 0) (hlog : s.log.Uncompacted) (hout : s.out = [])
    (hnext : s.nextIndex.getD peer 0 = Q + 1) (hQ : Q ≤ s.log.entries.length) :
    ∃ nx, s.replicateTo peer = .ok { s with
      nextIndex := nx, out := [.send peer (.appendEntries (s.probe Q))] } := by
  refine ⟨({ s with nextIndex := s.nextIndex.touch peer 0 } : Node M).nextAfter peer
    (s.window Q), ?_⟩
  rw [replicateTo_eq hrole hsnap hlog hnext hQ]
  simp only [sendAppend, send, emit, hout, List.nil_append]
  rfl

/-- A node that has the predecessor of an `AppendEntries` of no earlier term accepts it. -/
theorem Node.handleAppendEntries_accepts {s : Node M} {src : NodeId} {ae : AppendEntries}
    (hi : s.Rested) (hge : ¬ ae.term < s.currentTerm)
    (hc : s.log.contains ae.prevLogIndex ae.prevLogTerm = true) :
    .accepted ae ∈ (s.handleAppendEntries src ae).state.out := by
  obtain ⟨s₂, -, hon, hres⟩ := handleAppendEntries_takes src hi hge hc
  obtain ⟨es, -, -, he⟩ := (s.becomeFollower ae.term (some src)).acceptEntries_eq ae
  have hacc : Effect.accepted ae ∈ s₂.out := by
    refine hon.out _ ?_
    rw [he]
    exact List.mem_append_right _ (List.mem_singleton.mpr rfl)
  rcases hres with hres | ⟨m, hres⟩
  · rw [hres]
    exact hacc
  · rw [hres]
    exact List.mem_append_left _ hacc

/-- The leader's side of a rejection of its own term. -/
theorem Node.handleAppendEntriesReply_reject {s : Node M} {src : NodeId} {r : AppendEntriesReply}
    (hrole : s.role = .leader) (hterm : r.term = s.currentTerm) (hfail : r.success = false) :
    s.handleAppendEntriesReply src r = (s.backtrack src r).replicateTo src := by
  unfold handleAppendEntriesReply
  simp only [hrole, hterm, hfail, ne_eq, not_true, if_false, gt_iff_lt, Nat.lt_irrefl,
    Bool.false_eq_true]

/-- A leader, a follower, and an `AppendEntries` on its way from the one to the other. -/
structure Talk (M : Medium) where
  leader : Node M
  follower : Node M
  ae : AppendEntries

namespace Talk

/-- The follower after it has handled the message. -/
def heard (x : Talk M) : Node M :=
  x.follower.handle 0 (.message x.leader.id (.appendEntries x.ae))

/-- What the follower answers. -/
def reply? (x : Talk M) : Option AppendEntriesReply :=
  match x.heard.out.getLast? with
  | some (.send _ (.appendEntriesReply r)) => some r
  | _ => none

/-- `next_index_` of the follower after the bookkeeping of a rejection, before the retry. -/
def nextIndex (x : Talk M) (r : AppendEntriesReply) : Nat :=
  (x.leader.backtrack x.follower.id r).nextIndex.getD x.follower.id 0

/-- The follower answers, the leader handles the answer and sends again; `none` if there is no
answer, if the leader throws, or if it sends no `AppendEntries`. -/
def round (x : Talk M) : Option (Talk M) :=
  match x.reply? with
  | none => none
  | some r =>
    match x.leader.handleAppendEntriesReply x.follower.id r with
    | .error _ => none
    | .ok s =>
      match s.out.getLast? with
      | some (.send _ (.appendEntries ae)) =>
        some ⟨{ s with out := [] }, { x.heard with out := [], applying := none }, ae⟩
      | _ => none

def rounds : Nat → Talk M → Option (Talk M)
  | 0, x => some x
  | k + 1, x => x.round.bind (rounds k)

/-- The message is what `replicate_to` sends for the next index `P + 1`, from a leader with entries
`K` to a running follower in its term with entries `F`; nothing is compacted. -/
structure Probes (K F : List LogEntry) (x : Talk M) (P : Nat) : Prop where
  role : x.leader.role = .leader
  running : x.follower.running = true
  term : x.follower.currentTerm = x.leader.currentTerm
  leaderLog : x.leader.log = .ofEntries K
  followerLog : x.follower.log = .ofEntries F
  snap : x.leader.snapLastIndex = 0
  leaderOut : x.leader.out = []
  followerOut : x.follower.out = []
  rested : x.follower.Rested
  le : P ≤ K.length
  ae : x.ae = x.leader.probe P

/-- The follower rejects and the leader goes back: its new next index is in `[1, P]`, and it sends
the message for that index. -/
def Progress (x : Talk M) (P : Nat) : Prop :=
  ∃ r y, x.reply? = some r ∧ r.success = false ∧ 1 ≤ x.nextIndex r ∧ x.nextIndex r ≤ P ∧
    x.round = some y ∧ y.ae.prevLogIndex + 1 = x.nextIndex r

section

variable {K F : List LogEntry} {x : Talk M} {P : Nat}

/-- The rejection. -/
theorem Probes.heard_eq (hx : x.Probes K F P)
    (hno : (RaftLog.ofEntries F).contains P (stampAt K P) = false) :
    x.heard = (x.follower.becomeFollower x.leader.currentTerm (some x.leader.id)).send x.leader.id
      (.appendEntriesReply ⟨x.leader.currentTerm, false, (Node.conflict (.ofEntries F) P).1,
        (Node.conflict (.ofEntries F) P).2⟩) := by
  have hprev : x.follower.log.contains x.ae.prevLogIndex x.ae.prevLogTerm = false := by
    rw [hx.ae, hx.followerLog, Node.probe, hx.leaderLog]
    exact hno
  have hstep := x.follower.handle_conflict 0 x.leader.id x.ae hx.running
    (by rw [hx.ae, hx.term]; exact Nat.le_refl _) hprev
  rw [hx.followerLog, hx.term, hx.ae] at hstep
  rw [heard, hx.ae]
  exact hstep

theorem Probes.reply?_eq (hx : x.Probes K F P)
    (hno : (RaftLog.ofEntries F).contains P (stampAt K P) = false) :
    x.reply? = some ⟨x.leader.currentTerm, false, (Node.conflict (.ofEntries F) P).1,
      (Node.conflict (.ofEntries F) P).2⟩ := by
  have hout : x.heard.out.getLast? = some (.send x.leader.id (.appendEntriesReply
      ⟨x.leader.currentTerm, false, (Node.conflict (.ofEntries F) P).1,
        (Node.conflict (.ofEntries F) P).2⟩)) := by
    rw [hx.heard_eq hno]
    exact List.getLast?_concat
  rw [reply?, hout]

/-- The bookkeeping computes the next index from the two logs. -/
theorem Probes.nextIndex_eq (hx : x.Probes K F P) :
    x.nextIndex ⟨x.leader.currentTerm, false, (Node.conflict (.ofEntries F) P).1,
      (Node.conflict (.ofEntries F) P).2⟩ = nextOnReject K F P := by
  have hmax : ∀ n : Nat, (if n < 1 then 1 else n) = max 1 n := fun n => by
    split <;> omega
  simp only [nextIndex, Node.backtrack, OrdMap.getD_insert_self, hx.leaderLog, hmax, nextOnReject]

/-- The follower is as before. -/
theorem Probes.heard_kept (hx : x.Probes K F P)
    (hno : (RaftLog.ofEntries F).contains P (stampAt K P) = false) :
    x.heard.running = true ∧ x.heard.currentTerm = x.leader.currentTerm ∧
      x.heard.log = .ofEntries F ∧ x.heard.commitIndex ≤ x.heard.lastApplied := by
  have hsteps := x.follower.handle_moves 0 (.message x.leader.id (.appendEntries x.ae)) hx.rested
  have hrun := hsteps.1.kept.running (by simp) hx.running
  have hrest := hsteps.2.2
  have hf := x.follower.becomeFollower_spec (some x.leader.id) (Nat.le_of_eq hx.term)
  have heard := hx.heard_eq hno
  refine ⟨hrun, ?_, ?_, hrest⟩
  · rw [heard]; exact hf.term
  · rw [heard]; exact hf.log.trans hx.followerLog

/-- A leader that goes back to an index within its log sends the message for it. -/
theorem Probes.round_eq (hx : x.Probes K F P)
    (hno : (RaftLog.ofEntries F).contains P (stampAt K P) = false)
    (hle : nextOnReject K F P ≤ P) :
    ∃ y, x.round = some y ∧ y.Probes K F (nextOnReject K F P - 1) := by
  have hpos : 1 ≤ nextOnReject K F P := Nat.le_max_left _ _
  have hP := hx.le
  obtain ⟨r, hr⟩ : ∃ r : AppendEntriesReply, r = ⟨x.leader.currentTerm, false,
      (Node.conflict (.ofEntries F) P).1, (Node.conflict (.ofEntries F) P).2⟩ := ⟨_, rfl⟩
  have hreply := hx.reply?_eq hno
  have hnext : x.nextIndex r = (nextOnReject K F P - 1) + 1 := by
    rw [hr, hx.nextIndex_eq, Nat.sub_add_cancel hpos]
  rw [← hr] at hreply
  have hhandle : x.leader.handleAppendEntriesReply x.follower.id r =
      (x.leader.backtrack x.follower.id r).replicateTo x.follower.id :=
    Node.handleAppendEntriesReply_reject hx.role (by rw [hr]) (by rw [hr])
  obtain ⟨b, hb⟩ : ∃ b, b = x.leader.backtrack x.follower.id r := ⟨_, rfl⟩
  have hlog : b.log = .ofEntries K := by rw [hb]; exact hx.leaderLog
  have hQ : nextOnReject K F P - 1 ≤ b.log.entries.length := by
    rw [hlog]
    change _ ≤ K.length
    omega
  obtain ⟨nx, hsent⟩ := Node.replicateTo_probe (s := b) (by rw [hb]; exact hx.role)
    (by rw [hb]; exact hx.snap) (hlog ▸ RaftLog.uncompacted_ofEntries K)
    (by rw [hb]; exact hx.leaderOut) (by rw [hb]; exact hnext) hQ
  rw [← hb, hsent] at hhandle
  obtain ⟨hrun, hterm, hflog, hrest⟩ := hx.heard_kept hno
  refine ⟨⟨{ b with nextIndex := nx, out := [] }, { x.heard with out := [], applying := none },
    b.probe (nextOnReject K F P - 1)⟩, ?_, ?_⟩
  · simp only [round, hreply, hhandle, List.getLast?_singleton]
  exact {
    role := by rw [hb]; exact hx.role
    running := hrun
    term := by rw [hb]; exact hterm
    leaderLog := hlog
    followerLog := hflog
    snap := by rw [hb]; exact hx.snap
    leaderOut := rfl
    followerOut := rfl
    rested := ⟨rfl, hrest⟩
    le := by omega
    ae := rfl }

/-- **One rejection.** -/
theorem Probes.progress_iff (hx : x.Probes K F P) (hK : Indexed K) (hF : Indexed F)
    (hsorted : K.Pairwise fun a b => a.term ≤ b.term)
    (hno : (RaftLog.ofEntries F).contains P (stampAt K P) = false) :
    x.Progress P ↔ Retreats K F P := by
  rw [← nextOnReject_le_iff hK hF hsorted hx.le hno]
  have hreply := hx.reply?_eq hno
  constructor
  · rintro ⟨r, y, hr, -, -, hle, -⟩
    rw [hreply] at hr
    cases hr
    rwa [hx.nextIndex_eq] at hle
  · intro hle
    obtain ⟨y, hy, hprobes⟩ := hx.round_eq hno hle
    have hpos : 1 ≤ nextOnReject K F P := Nat.le_max_left _ _
    refine ⟨_, y, hreply, rfl, ?_, ?_, hy, ?_⟩
    · rw [hx.nextIndex_eq]; exact hpos
    · rw [hx.nextIndex_eq]; exact hle
    · rw [hx.nextIndex_eq, hprobes.ae]
      exact Nat.sub_add_cancel hpos

/-- A follower that has the predecessor accepts. -/
theorem Probes.accepted (hx : x.Probes K F P)
    (hyes : (RaftLog.ofEntries F).contains P (stampAt K P) = true) :
    .accepted x.ae ∈ x.heard.out := by
  have hprev : x.follower.log.contains x.ae.prevLogIndex x.ae.prevLogTerm = true := by
    rw [hx.ae, hx.followerLog, Node.probe, hx.leaderLog]
    exact hyes
  have hge : ¬ x.ae.term < x.follower.currentTerm := by
    rw [hx.ae, hx.term]
    exact Nat.lt_irrefl _
  rw [heard, Node.handle, Node.onMessage, hx.running]
  exact Node.handleAppendEntries_accepts hx.rested hge hprev

/-- **The exchange ends.**  The index of the message is the measure: each rejection that meets the
condition lowers it. -/
theorem Probes.ends (hK : Indexed K) (hF : Indexed F)
    (hsorted : K.Pairwise fun a b => a.term ≤ b.term) (hx : x.Probes K F P)
    (hret : ∀ Q ≤ P, (RaftLog.ofEntries F).contains Q (stampAt K Q) = false → Retreats K F Q) :
    ∃ k ≤ P, ∃ y, x.rounds k = some y ∧ .accepted y.ae ∈ y.heard.out := by
  induction P using Nat.strong_induction_on generalizing x with
  | _ P ih =>
    cases hc : (RaftLog.ofEntries F).contains P (stampAt K P) with
    | true => exact ⟨0, Nat.zero_le _, x, rfl, hx.accepted hc⟩
    | false =>
      have hle := (nextOnReject_le_iff hK hF hsorted hx.le hc).mpr (hret P (Nat.le_refl _) hc)
      have hpos : 1 ≤ nextOnReject K F P := Nat.le_max_left _ _
      obtain ⟨y, hy, hprobes⟩ := hx.round_eq hc hle
      obtain ⟨k, hk, z, hz, hacc⟩ := ih _ (by omega) hprobes fun Q hQ => hret Q (by omega)
      refine ⟨k + 1, by omega, z, ?_, hacc⟩
      rw [rounds, hy]
      exact hz

end

/-- The follower rejects `P`: its log has no entry there of the term that the leader's has. -/
def Rejected (K F : List LogEntry) (P : Nat) : Prop :=
  (RaftLog.ofEntries F).contains P (stampAt K P) = false

instance (K F : List LogEntry) (P : Nat) : Decidable (Rejected K F P) :=
  inferInstanceAs (Decidable (_ = _))

/-- The whole exchange that begins with a rejection of `P`: the leader goes back and sends again,
and after finitely many such rounds, in none of which it throws, the follower accepts. -/
def Resolves (x : Talk M) (P : Nat) : Prop :=
  x.Progress P ∧ ∃ k ≤ P, ∃ y, x.rounds k = some y ∧ .accepted y.ae ∈ y.heard.out

/-- A leader and a follower with these logs, and the message for `P`. -/
def between (M : Medium) (K F : List LogEntry) (P : Nat) : Talk M :=
  let leader : Node M := { Node.init M 1 [2] {} with
    running := true, role := .leader, currentTerm := 1, log := .ofEntries K }
  ⟨leader, { Node.init M 2 [1] {} with running := true, currentTerm := 1, log := .ofEntries F },
    leader.probe P⟩

theorem between_probes (K F : List LogEntry) {P : Nat} (hP : P ≤ K.length) :
    (between M K F P).Probes K F P :=
  ⟨rfl, rfl, rfl, rfl, rfl, rfl, rfl, rfl, ⟨rfl, Nat.le_refl 0⟩, hP, rfl⟩

/-- **Fast backtracking.**  For uncompacted logs that carry their own indices, the leader's with
non-decreasing terms: every exchange that begins with a rejection of some `P ≤ N` takes the
leader's next index into `[1, P]` and ends with an accepted message, whoever the leader and the
follower with these logs are, if and only if the two logs meet `Retreats` at every `P ≤ N` that the
follower rejects. -/
theorem fast_backtracking (M : Medium) (K F : List LogEntry) (hK : Indexed K) (hF : Indexed F)
    (hsorted : K.Pairwise fun a b => a.term ≤ b.term) (N : Nat) (hN : N ≤ K.length) :
    (∀ P ≤ N, Rejected K F P → ∀ x : Talk M, x.Probes K F P → x.Resolves P) ↔
      ∀ P ≤ N, Rejected K F P → Retreats K F P := by
  constructor
  · intro h P hP hno
    have hx := between_probes (M := M) K F (Nat.le_trans hP hN)
    exact (hx.progress_iff hK hF hsorted hno).mp (h P hP hno _ hx).1
  · intro h P hP hno x hx
    refine ⟨(hx.progress_iff hK hF hsorted hno).mpr (h P hP hno), ?_⟩
    exact hx.ends hK hF hsorted fun Q hQ => h Q (Nat.le_trans hQ hP)

open LogEntry (putAt)

/-- A leader and a follower that differ in their second entry. -/
def diverged : Talk Medium.bytes :=
  let leader : Node Medium.bytes := { Node.init Medium.bytes 1 [2] {} with
    running := true, role := .leader, currentTerm := 3, log := .ofEntries [putAt 1 1, putAt 3 2] }
  ⟨leader, { Node.init Medium.bytes 2 [1] {} with
    running := true, currentTerm := 3, log := .ofEntries [putAt 1 1, putAt 2 2] }, leader.probe 2⟩

theorem fast_backtracking_diverged : diverged.Resolves 2 := by
  have hindexed : ∀ e, e.index = 2 → Indexed [putAt 1 1, e] := by
    rintro e he (_ | _ | k) d hd <;> simp at hd <;> subst hd
    · rfl
    · exact he
  refine (fast_backtracking Medium.bytes [putAt 1 1, putAt 3 2] [putAt 1 1, putAt 2 2]
    (hindexed _ rfl) (hindexed _ rfl) (by decide) 2 (by decide)).mpr ?_ 2 (Nat.le_refl 2)
    (by decide) diverged
    ⟨rfl, rfl, rfl, rfl, rfl, rfl, rfl, rfl, ⟨rfl, Nat.le_refl 0⟩, by decide, rfl⟩
  intro Q hQ hno
  have hcases : Q = 0 ∨ Q = 1 ∨ Q = 2 := by omega
  rcases hcases with rfl | rfl | rfl
  · exact absurd hno (by decide)
  · exact absurd hno (by decide)
  · exact Or.inr ⟨putAt 2 2, rfl, Or.inr ⟨Or.inr (by decide), by decide⟩⟩

end Talk

namespace Cluster

/-- Node 3 leads term 1 and has three entries that nobody else gets.  Node 1 leads term 2 with the
vote of node 2; node 3 hears its first heartbeat and follows.  Node 1 gets a command, the message
with the entry is lost, and the next heartbeat, for index 1, reaches node 3. -/
def overshootRun : List Event :=
  [.electionTimer 3 1, .deliver 1, .deliver 2,
    .submit 3 0 0 (.put (Str.lit "k") (Str.lit "a")),
    .submit 3 0 0 (.put (Str.lit "k") (Str.lit "b")),
    .submit 3 0 0 (.put (Str.lit "k") (Str.lit "c")),
    .electionTimer 1 1, .electionTimer 1 2, .deliver 13, .deliver 15, .deliver 17,
    .submit 1 0 0 (.put (Str.lit "k") (Str.lit "z")), .heartbeatTimer 1, .deliver 22]

def overshot : Cluster Medium.bytes := (ofIds [1, 2, 3]).run overshootRun

/-- **Backtracking goes forward.**  Node 3 rejects the heartbeat for `P = 1` with conflict term 1,
whose last index at node 3 is 3.  Node 1 has one entry, none of term 1: its next index for node 3
becomes 3, and `replicate_to` throws. -/
theorem backtracking_overshoots :
    (overshot.net[22]?).map (fun p => (p.src, p.dst, p.msg)) =
      some (1, 3, .appendEntries ⟨2, 1, 1, 2, [], 0⟩) ∧
    (overshot.net[23]?).map (fun p => (p.src, p.dst, p.msg)) =
      some (3, 1, .appendEntriesReply ⟨2, false, 3, 1⟩) ∧
    (overshot.node 1).role = .leader ∧ (overshot.node 1).log.lastIndex = 1 ∧
    ((overshot.node 1).backtrack 3 ⟨2, false, 3, 1⟩).nextIndex.getD 3 0 = 3 ∧
    ((overshot.node 1).handleAppendEntriesReply 3 ⟨2, false, 3, 1⟩).isOk = false := by
  decide +kernel

end Cluster

end SimKV
