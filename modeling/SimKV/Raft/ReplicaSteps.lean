/-
# The moves of a node are steps of the history

One lemma for each kind of move of `SimKV.Raft.Moves`: what it does to the history
of votes and logs, and that the node still agrees with it afterwards.

  * A later term, a vote, a candidacy and an election are the steps of the ballot,
    now with the logs that go with them;
  * taking in an `AppendEntries` and installing a snapshot are both `World.accept`:
    the node confirms a prefix of its leader's log, and the code's loop computes
    exactly `World.merged`;
  * what a leader writes into `next_index_` is always an anchor, a point before
    which the peer's log and its own part ways if they do at all.

`Simulated` collects what each of them shows, and `Move.simulated` is the sum.
-/
import SimKV.Raft.Replica

namespace SimKV

open TermLog

variable {M : Medium}

/-- The history goes from `w` to `w'` by steps of node `n`, which is then in state `s'`. -/
structure Simulated (md : Mode) (Q : Quorums NodeId) (w w' : RaftWorld) (n : NodeId)
    (s' : Node M) : Prop where
  steps : md.Steps Q w w'
  only : Only n w w'
  coherent : Coherent md Q w'
  replica : Replica md w' n s'

section Simulated

variable {md : Mode} {Q : Quorums NodeId} {w w' : RaftWorld} {n : NodeId} {s s' : Node M}

theorem Simulated.stay (hw : Coherent md Q w) (h : Replica md w n s') :
    Simulated md Q w w n s' := ⟨.refl, Only.refl n w, hw, h⟩

theorem Simulated.frame (h : Simulated md Q w w' n s) (hc : s'.core = s.core) :
    Simulated md Q w w' n s' := ⟨h.steps, h.only, h.coherent, h.replica.frame hc⟩

theorem Simulated.single (hw : Coherent md Q w)
    (hstep : World.Step Q LogEntry.term md.full w w')
    (hllog : w'.llog = w.llog) (ho : Only n w w') (h : Replica md w' n s') :
    Simulated md Q w w' n s' :=
  ⟨.single hstep, ho, hw.step hstep fun T k e hk => Or.inl (by rw [hllog] at hk; exact hk), h⟩

end Simulated

theorem Role.follower_ne_leader : Role.follower ≠ .leader := by decide

theorem Role.follower_ne_candidate : Role.follower ≠ .candidate := by decide

theorem Role.candidate_ne_leader : Role.candidate ≠ .leader := by decide

theorem Role.leader_ne_candidate : Role.leader ≠ .candidate := by decide

namespace Replica

variable {md : Mode} {Q : Quorums NodeId} {w : RaftWorld} {n : NodeId} {s : Node M}

/-! ## Terms and votes -/

theorem follow (h : Replica md w n s) :
    Replica md w n { s with role := .follower, votesReceived := ∅, voteCount := 0 } :=
  { h with
    elector := h.elector.same rfl rfl (Or.inl rfl)
    lead := fun hr => absurd hr Role.follower_ne_leader
    standing := fun hr => absurd hr Role.follower_ne_candidate }

theorem newTerm (hw : Coherent md Q w) (h : Replica md w n s) {T : Nat}
    (hT : s.currentTerm < T) : Simulated md Q w (w.advance n T) n
      { s with
        currentTerm := T, votedFor := none, role := .follower, votesReceived := ∅
        voteCount := 0 } := by
  have hlt : w.term n < T := by rw [h.term]; exact hT
  have hstep : World.Step Q LogEntry.term md.full w (w.advance n T) :=
    .advance w n T hlt
  exact .single hw hstep rfl (Only.advance w n T)
    { h with
      elector := h.elector.newTerm hw.sound.ballot.timely hT rfl rfl rfl
      lead := fun hr => absurd hr Role.follower_ne_leader
      standing := fun hr => absurd hr Role.follower_ne_candidate
      commit := fun hf => ((h.commit hf).extends hw.sound (hstep.sound_extends hw.sound).2).mono
        (Nat.le_of_lt hT) (Nat.le_refl _) List.prefix_rfl }

theorem grant (hw : Coherent md Q w) (h : Replica md w n s) {c : NodeId}
    {lc : List LogEntry} (hnone : s.votedFor = none) (hc : w.cand c s.currentTerm = some lc)
    (hup : md.full → UpToDate LogEntry.term lc (w.log n)) :
    Simulated md Q w (w.castFor n c) n { s with votedFor := some c } := by
  have hvote : w.vote n (w.term n) = none := by rw [h.term, h.elector.vote, hnone]
  exact .single hw (.cast w n c lc hvote (by rw [h.term]; exact hc) hup) rfl (Only.castFor w n c)
    { h with
      elector := h.elector.grant hnone rfl rfl rfl
      lead := fun hl => { h.lead hl with } }

theorem stand (hw : Coherent md Q w) (h : Replica md w n s) :
    Simulated md Q w ((w.advance n (s.currentTerm + 1)).stand n) n
      { s with
        currentTerm := s.currentTerm + 1, role := .candidate, votedFor := some s.id
        votesReceived := ∅, voteCount := 1 } := by
  have hlt : s.currentTerm < s.currentTerm + 1 := Nat.lt_succ_self _
  obtain ⟨hsteps, -, hw₁, -⟩ := h.newTerm hw hlt
  have hterm : (w.advance n (s.currentTerm + 1)).term n = s.currentTerm + 1 := by
    simp [World.advance, Ballot.advance]
  have hvote : (w.advance n (s.currentTerm + 1)).vote n
      ((w.advance n (s.currentTerm + 1)).term n) = none := by
    rw [hterm]
    exact hw.sound.ballot.timely.unvoted (by rw [h.term]; exact hlt)
  have hstand : World.Step Q LogEntry.term md.full
      (w.advance n (s.currentTerm + 1)) ((w.advance n (s.currentTerm + 1)).stand n) :=
    .stand _ n hvote
  refine ⟨hsteps.tail hstand, Only.advance_stand w n _,
    hw₁.step hstand fun _ _ _ hk => Or.inl hk, ?_⟩
  exact { h with
    elector := h.elector.stand hw.sound.ballot.timely hlt rfl (congrArg some h.id) rfl rfl rfl
    lead := fun hr => absurd hr Role.candidate_ne_leader
    standing := fun _ => by simp [World.stand, World.advance, Ballot.advance]
    commit := fun hf => (h.commit hf).mono (Nat.le_succ _) (Nat.le_refl _) List.prefix_rfl }

theorem countVote (h : Replica md w n s) {src : NodeId}
    (hv : src ∈ s.peers ∧ n ≠ src ∧ w.vote src s.currentTerm = some n) :
    Replica md w n (s.countVote src) :=
  { h with elector := h.elector.countVote hv }

theorem peer_ne (h : Replica md w n s) {p : NodeId} (hp : p ∈ s.peers) : p ≠ s.id := by
  rintro rfl
  exact h.self (h.id ▸ hp)

/-- A candidate with a quorum of votes starts its term with its own log. -/
theorem win (hw : Coherent md Q w) (h : Replica md w n s)
    (hdec : Q.Decides (insert n s.peers.toFinset)) (hrole : s.role = .candidate)
    (hcount : s.quorum ≤ s.voteCount) : Simulated md Q w (w.elected n) n
      { s with
        role := .leader, votesReceived := ∅, voteCount := 0
        nextIndex := (Node.fillIndex s.peers (s.log.lastIndex + 1)).insert s.id
          (s.log.lastIndex + 1)
        matchIndex := (Node.fillIndex s.peers 0).insert s.id s.log.lastIndex } := by
  obtain ⟨A, hmaj, hv⟩ := h.elector.majority hrole hcount
  have hA := hdec A hmaj
  have hno : w.leader (w.term n) = none := by
    rw [h.term]
    by_contra hne
    obtain ⟨c, hc⟩ := Option.ne_none_iff_exists'.mp hne
    rw [← hw.sound.ballot.leader_unique hc hA hv] at hc
    exact (h.elector.stood hrole).2 hc
  have hcand : w.cand n (w.term n) = some (w.log n) := by rw [h.term]; exact h.standing hrole
  have hstep : World.Step Q LogEntry.term md.full w (w.elected n) :=
    .elect w n A hno hcand hA (by rw [h.term]; exact hv)
  have hx := (hstep.sound_extends hw.sound).2
  have hlast : s.log.lastIndex = (w.log n).length := h.log.lastIndex
  refine ⟨.single hstep, Only.elected hno, hw.elected hstep, ?_⟩
  exact { h with
    elector := h.elector.win rfl rfl rfl
    lead := fun _ => {
      log := by
        change w.log n = (w.elected n).llog s.currentTerm
        rw [← h.term]
        simp [World.elected]
      matched := fun _ p v hp => by
        change p ∈ insert n s.peers.toFinset ∧ v ≤ (w.elected n).acked p s.currentTerm
        by_cases hpn : p = s.id
        · subst hpn
          have hv : s.log.lastIndex = v := by
            simpa [OrdMap.find?_insert_self] using hp
          rw [h.id, ← h.term, ← hv, hlast]
          exact ⟨Finset.mem_insert_self _ _, by simp [World.elected]⟩
        · have hp' : (if p ∈ s.peers then some 0 else none) = some v := by
            rw [← Node.find?_fillIndex, ← OrdMap.find?_insert_of_ne _ s.log.lastIndex hpn]
            exact hp
          obtain ⟨hmem, hv⟩ := Option.ite_none_right_eq_some.mp hp'
          rw [← Option.some.inj hv]
          exact ⟨Finset.mem_insert_of_mem (List.mem_toFinset.mpr hmem), Nat.zero_le _⟩
      nexts := fun _ p hp => by
        refine Or.inr (Or.inl ?_)
        have hget : ((Node.fillIndex s.peers (s.log.lastIndex + 1)).insert s.id
            (s.log.lastIndex + 1)).getD p 0 = s.log.lastIndex + 1 := by
          rw [OrdMap.getD_insert_of_ne _ _ _ (h.peer_ne hp), OrdMap.getD, Node.find?_fillIndex,
            if_pos hp]
          rfl
        change ((w.elected n).ilog s.currentTerm).length ≤ _ - 1
        rw [hget, hlast, ← h.term]
        simp [World.elected]
      lcommit := fun _ => by
        change w.lcommit s.currentTerm ≤ _
        rw [← h.term, (hw.sound.unled _ hno).2.2.1]
        exact Nat.zero_le _ }
    standing := fun hr => absurd hr Role.leader_ne_candidate
    commit := fun hf => (h.commit hf).extends hw.sound hx }

/-! ## A leader's books -/

/-- New `next_index_` and `match_index_`. -/
theorem rebook (h : Replica md w n s) {nx mx : OrdMap NodeId Nat} (hl : s.role = .leader →
      LeaderOk md w n s.currentTerm s.peers nx mx s.commitIndex) :
    Replica md w n { s with nextIndex := nx, matchIndex := mx } :=
  { h with
    elector := h.elector.frame rfl rfl rfl rfl rfl rfl
    lead := hl }

/-- One peer's entries in them. -/
theorem rebook_peer (h : Replica md w n s) {src : NodeId} {v next : Nat}
    {nx mx : OrdMap NodeId Nat} (hnx : ∀ p, p ≠ src → nx.getD p 0 = s.nextIndex.getD p 0)
    (hnext : nx.getD src 0 = next) (hmx : mx = s.matchIndex.insert src v)
    (hm : md.repl → s.role = .leader → src ∈ s.peers ∧ v ≤ w.acked src s.currentTerm)
    (hx : md.full → s.role = .leader → (next = 0 ∧ v ≤ 2 ^ 64 - 1 ∧ ¬ md.comp) ∨
      w.Anchored s.currentTerm src (next - 1)) :
    Replica md w n { s with nextIndex := nx, matchIndex := mx } := by
  subst hmx
  refine h.rebook fun hl => { h.lead hl with
    matched := fun hr p x hp => ?_, nexts := fun hf p hp => ?_ }
  · by_cases hps : p = src
    · subst hps
      rw [OrdMap.find?_insert_self] at hp
      rw [← Option.some.inj hp]
      exact (hm hr hl).imp_left fun h => Finset.mem_insert_of_mem (List.mem_toFinset.mpr h)
    · rw [OrdMap.find?_insert_of_ne _ _ hps] at hp
      exact (h.lead hl).matched hr p x hp
  · by_cases hps : p = src
    · subst hps
      rw [hnext, OrdMap.getD_insert_self]
      exact hx hf hl
    · rw [hnx p hps, OrdMap.getD_insert_of_ne _ _ _ hps]
      exact (h.lead hl).nexts hf p hp

/-- What a peer has not confirmed is recorded as zero. -/
theorem matchIndex_le (h : Replica md w n s) (hr : md.repl) (hl : s.role = .leader)
    (p : NodeId) : s.matchIndex.getD p 0 ≤ w.acked p s.currentTerm := by
  rw [OrdMap.getD]
  cases hp : s.matchIndex.find? p with
  | none => exact Nat.zero_le _
  | some v => exact ((h.lead hl).matched hr p v hp).2

theorem acked_le_lastIndex (hw : Coherent md Q w) (h : Replica md w n s)
    (hl : s.role = .leader) (p : NodeId) : w.acked p s.currentTerm ≤ s.log.lastIndex := by
  rw [h.log.lastIndex, h.leading hl]
  exact hw.sound.acked_le p _

/-- A success reply that answers a message reaching as far as `next_index_`. -/
theorem credit (hw : Coherent md Q w) (h : Replica md w n s) {src : NodeId}
    (hsrc : src ∈ s.peers)
    (hack : md.repl → pred64 (s.nextIndex.getD src 0) ≤ w.acked src s.currentTerm)
    (hroom : md.comp → s.log.lastIndex < 2 ^ 64 - 1) :
    Replica md w n (s.creditSuccess src) := by
  have hget : (s.nextIndex.touch src 0).getD src 0 = s.nextIndex.getD src 0 :=
    OrdMap.getD_touch _ _ _ _
  have hle : md.repl → s.role = .leader →
      max (s.matchIndex.getD src 0) (pred64 (s.nextIndex.getD src 0)) ≤
        w.acked src s.currentTerm :=
    fun hr hl => Nat.max_le.mpr ⟨h.matchIndex_le hr hl src, hack hr⟩
  refine (h.rebook_peer (v := max (s.matchIndex.getD src 0) (pred64 (s.nextIndex.getD src 0)))
    (fun p hp => ?_) (OrdMap.getD_insert_self _ _ _ _) ?_ (fun hr hl => ⟨hsrc, hle hr hl⟩)
    (fun hf hl => ?_))
  · rw [OrdMap.getD_insert_of_ne _ _ _ hp, OrdMap.getD_touch]
  · rw [hget]
  · rw [hget]
    have hacked := Nat.le_trans (hle (md.repl_of_full hf) hl) (h.acked_le_lastIndex hw hl src)
    unfold succ64
    split
    · rename_i hmax
      refine Or.inl ⟨rfl, Nat.le_of_eq hmax, fun hc => ?_⟩
      have := hroom hc
      omega
    · rename_i hne
      rcases (h.lead hl).nexts hf src hsrc with ⟨h0, hm, -⟩ | ha
      · exact absurd (by rw [h0, pred64, if_pos rfl]; omega) hne
      · refine Or.inr (ha.mono ?_)
        have : s.nextIndex.getD src 0 - 1 ≤ pred64 (s.nextIndex.getD src 0) := by
          unfold pred64
          split <;> omega
        omega

/-- A snapshot reply of the leader's own term. -/
theorem creditSnapshot (hw : Coherent md Q w) (h : Replica md w n s) {src : NodeId}
    {isr : InstallSnapshotReply} (hsrc : src ∈ s.peers) (hl : s.role = .leader)
    (hisr : InstallReplyOk md w src isr) (hterm : isr.term = s.currentTerm)
    (hroom : s.log.lastIndex < 2 ^ 64 - 1) :
    Replica md w n (s.creditSnapshot src isr) := by
  have hf := md.full_of_comp hisr.comp
  have hack := hisr.acked
  have hanch := hisr.anchored
  rw [hterm] at hack hanch
  have hle : max (s.matchIndex.getD src 0) isr.lastIncludedIndex ≤ w.acked src s.currentTerm :=
    Nat.max_le.mpr ⟨h.matchIndex_le (md.repl_of_full hf) hl src, hack⟩
  have hlast := Nat.le_trans hle (h.acked_le_lastIndex hw hl src)
  refine h.rebook_peer (fun p hp => OrdMap.getD_insert_of_ne _ _ _ hp)
    (OrdMap.getD_insert_self _ _ _ _) rfl (fun _ _ => ⟨hsrc, hle⟩)
    (fun _ _ => Or.inr (hanch.mono ?_))
  rw [succ64, if_neg (by omega)]
  omega

/-- A rejection of a message of the leader's own term. -/
theorem backtrack (hw : Coherent md Q w) (h : Replica md w n s) {src : NodeId}
    {aer : AppendEntriesReply} (hrej : md.full → RejectOk w s.currentTerm src aer) :
    Replica md w n (s.backtrack src aer) := by
  refine h.rebook fun hl => { h.lead hl with nexts := fun hf p hp => ?_ }
  by_cases hps : p = src
  · subst hps
    rw [OrdMap.getD_insert_self]
    have hr := hrej hf
    have hplain : w.Anchored s.currentTerm p
        ((if aer.conflictIndex < 1 then 1 else aer.conflictIndex) - 1) := by
      refine hr.plain.mono ?_
      split <;> omega
    refine Or.inr ?_
    by_cases hct : aer.conflictTerm = 0
    · simp only [if_pos hct]
      exact hplain
    simp only [if_neg hct]
    have hL := h.log
    rw [h.leading hl] at hL
    rcases hL.lastIndexForTerm (hw.indexed_llog _) aer.conflictTerm with
      h0 | ⟨j, x, hj, hx, hxt, hno⟩
    · simp only [h0, gt_iff_lt, Nat.lt_irrefl, if_false]
      exact hplain
    · simp only [hj, gt_iff_lt, Nat.succ_pos, if_true]
      rw [if_neg (by omega)]
      exact (hr.term hct).2 j x hx hxt hno
  · rw [OrdMap.getD_insert_of_ne _ _ _ hps]
    exact (h.lead hl).nexts hf p hp

/-- Sending a window moves `next_index_` past it. -/
theorem sendAppend (hw : Coherent md Q w) (h : Replica md w n s) {peer : NodeId}
    {next prevTerm : Nat} (hnext : s.nextIndex.getD peer 0 = next)
    (hsnap : s.snapLastIndex < next) :
    Replica md w n (s.sendAppend peer (next - 1) prevTerm) := by
  refine Replica.frame (s := { s with nextIndex := s.nextAfter peer (s.window (next - 1)) }) ?_ rfl
  refine h.rebook fun hl => { h.lead hl with nexts := fun hf p hp => ?_ }
  have hold := (h.lead hl).nexts hf p hp
  unfold Node.nextAfter
  split
  · rename_i e he
    by_cases hps : p = peer
    · subst hps
      rw [OrdMap.getD_insert_self]
      refine Or.inr ?_
      rcases hold with ⟨h0, -⟩ | ha
      · omega
      · refine ha.mono ?_
        have hb : s.log.baseIndex ≤ next - 1 := by rw [← h.snap.1]; omega
        rw [h.log.window hb] at he
        have hmem := List.mem_of_getLast? he
        obtain ⟨j, hj⟩ := List.getElem?_of_mem hmem
        rw [List.getElem?_drop, List.getElem?_take] at hj
        split at hj
        · have := hw.indexed_log n _ _ hj
          omega
        · exact absurd hj (by simp)
    · rw [OrdMap.getD_insert_of_ne _ _ _ hps]
      exact hold
  · exact hold

/-! ## Logs -/

theorem merged_eq (w : RaftWorld) (n : NodeId) (m : Nat) :
    w.merged n m = LogRep.spliced (w.log n) (w.llog (w.term n)) m := by
  unfold World.merged LogRep.spliced
  by_cases h : (w.llog (w.term n)).take m <+: w.log n
  · rw [if_pos h, if_pos h]
  · rw [if_neg h, if_neg h]

theorem accept_log (w : RaftWorld) (n : NodeId) (m : Nat) :
    (w.accept n m).log n = w.merged n m := by
  simp [World.accept]

theorem le_accept_acked (w : RaftWorld) (n : NodeId) (m : Nat) :
    m ≤ (w.accept n m).acked n (w.term n) := by
  simp [World.accept]

/-- The predecessor check of an `AppendEntries` makes the logs agree up to there. -/
theorem take_prev_eq (hw : Coherent md Q w) (h : Replica md w n s) {src : NodeId}
    {ae : AppendEntries} (hae : AppendOk md w src n ae)
    (hprev : s.log.contains ae.prevLogIndex ae.prevLogTerm = true) :
    (w.log n).take ae.prevLogIndex = (w.llog ae.term).take ae.prevLogIndex := by
  rcases Nat.eq_zero_or_pos ae.prevLogIndex with h0 | hpos
  · rw [h0, List.take_zero, List.take_zero]
  · have hne : ae.prevLogIndex ≠ 0 := by omega
    have hlen := hae.len
    obtain ⟨-, hle, hst⟩ := (h.log.contains_iff hne).mp hprev
    rw [hae.prev hne] at hst
    obtain ⟨d, hd, hdt⟩ := exists_stampAt hpos hle
    obtain ⟨e, he, het⟩ :=
      exists_stampAt hpos (by omega : ae.prevLogIndex ≤ (w.llog ae.term).length)
    have := hw.matching n ae.term _ d e hd he (by rw [← hdt, hst, het])
    rwa [Nat.sub_add_cancel hpos] at this

/-- The entries of an `AppendEntries` that passed the check. -/
theorem accept (hw : Coherent md Q w) (h : Replica md w n s) {src : NodeId}
    {ae : AppendEntries} (hae : AppendOk md w src n ae) (hterm : s.currentTerm = ae.term)
    (hrole : s.role = .follower)
    (hprev : s.log.contains ae.prevLogIndex ae.prevLogTerm = true) :
    Simulated md Q w (w.accept n (ae.prevLogIndex + ae.entries.length)) n
      { s with
        log := Node.appendLoop ae.entries s.log
        commitIndex := if ae.leaderCommit > s.commitIndex then
          min ae.leaderCommit (Node.appendLoop ae.entries s.log).lastIndex
          else s.commitIndex } := by
  have htn : w.term n = ae.term := h.term.trans hterm
  have hled : w.leader (w.term n) ≠ none := by rw [htn, hae.leader]; simp
  have hlen : ae.prevLogIndex + ae.entries.length ≤ (w.llog (w.term n)).length := by
    rw [htn]; exact hae.len
  have hstep : World.Step Q LogEntry.term md.full w
      (w.accept n (ae.prevLogIndex + ae.entries.length)) := .accept w n _ hled hlen
  have hx := (hstep.sound_extends hw.sound).2
  -- the loop computes the merged log
  have hrep : LogRep (Node.appendLoop ae.entries s.log)
      (w.merged n (ae.prevLogIndex + ae.entries.length)) := by
    rw [merged_eq]
    refine LogRep.appendLoop (hw.indexed_llog _) hlen ae.entries h.log ?_ (Nat.le_add_right _ _)
      ?_ ?_ (hw.matching n _)
    · rw [htn]; exact hae.entries
    · rw [htn]; exact h.take_prev_eq hw hae hprev
    · rw [h.term] at hled ⊢
      exact h.base_isPre hw hled
  obtain ⟨hbase, hbaseTerm⟩ := LogRep.appendLoop_base ae.entries s.log
  have hnot : ¬ s.role = .leader := by rw [hrole]; exact Role.follower_ne_leader
  have hold : md.full → w.CommittedIn s.currentTerm
      (w.merged n (ae.prevLogIndex + ae.entries.length)) s.commitIndex := fun hf => by
    have hc := h.commit hf
    rw [← h.term] at hc ⊢
    exact hc.merged _ hf hw.sound hled
  have hnew : md.full → w.CommittedIn s.currentTerm
      (w.merged n (ae.prevLogIndex + ae.entries.length))
      (min ae.leaderCommit (Node.appendLoop ae.entries s.log).lastIndex) := fun hf => by
    rw [hterm, hrep.lastIndex]
    rcases hae.reach hf with hle | hpos
    · -- the announced index is within what the message carries
      have hc := (hae.commit hf).restrict
        (take_isPre (w.llog ae.term) (ae.prevLogIndex + ae.entries.length))
      refine hc.mono (Nat.le_refl _) ?_ (htn ▸ World.take_isPre_merged w n _)
      have := hae.len
      rw [List.length_take]
      omega
    · -- the message carries an entry, so nothing is left of the log past the leader's
      have ha := hae.anchored hf
      rw [← htn] at ha
      have hpre := ha.isPre_of_merged hw.sound (by omega) hlen
      rw [htn] at hpre
      exact (hae.commit hf).restrict hpre
  refine .single hw hstep rfl (Only.accept w n _) { h with
    elector := h.elector.frame rfl rfl rfl rfl rfl rfl
    log := by rw [accept_log]; exact hrep
    snap := ⟨h.snap.1.trans hbase.symm, h.snap.2.trans hbaseTerm.symm⟩
    whole := h.whole.imp_right fun h0 => hbase.trans h0
    lead := fun hr => absurd hr hnot
    standing := fun hr => absurd (hrole.symm.trans hr) Role.follower_ne_candidate
    commit := fun hf => by
      rw [accept_log]
      refine World.CommittedIn.extends hw.sound hx ?_
      change w.CommittedIn s.currentTerm _ (if _ then _ else _)
      split
      · exact hnew hf
      · exact hold hf
    applied := fun hf => ?_ }
  obtain ⟨h1, h2⟩ := h.applied hf
  have h3 := (hold hf).length_le hw.sound
  rw [← hrep.lastIndex] at h3
  refine ⟨hbase.trans_le h1, ?_⟩
  change s.lastApplied ≤ if _ then _ else _
  split
  · exact Nat.le_min.mpr ⟨by omega, by omega⟩
  · exact h2

/-- A leader's own entry. -/
theorem place (hw : Coherent md Q w) (h : Replica md w n s) (hrole : s.role = .leader)
    (cmd : Command) : Simulated md Q w (w.append n ⟨s.currentTerm, s.log.lastIndex + 1, cmd⟩) n
      { s with
        log := s.log.append ⟨s.currentTerm, s.log.lastIndex + 1, cmd⟩
        matchIndex := s.matchIndex.insert s.id (s.log.lastIndex + 1)
        nextIndex := s.nextIndex.insert s.id (s.log.lastIndex + 2) } := by
  have hled : w.leader (w.term n) = some n := by rw [h.term]; exact h.elector.leader hrole
  have hlog : w.log n = w.llog (w.term n) := by rw [h.term]; exact h.leading hrole
  have hlast : s.log.lastIndex = (w.llog (w.term n)).length := by rw [h.log.lastIndex, hlog]
  have hstep : World.Step Q LogEntry.term md.full w
      (w.append n ⟨s.currentTerm, s.log.lastIndex + 1, cmd⟩) := .append w n _ hled hlog h.term.symm
  have hx := (hstep.sound_extends hw.sound).2
  have hlogn : (w.append n ⟨s.currentTerm, s.log.lastIndex + 1, cmd⟩).log n =
      w.log n ++ [⟨s.currentTerm, s.log.lastIndex + 1, cmd⟩] := by simp [World.append]
  refine ⟨.single hstep, Only.append _ hled, hw.append hstep (by rw [hlast]), { h with
    elector := h.elector.frame rfl rfl rfl rfl rfl rfl
    log := by rw [hlogn]; exact h.log.append _
    lead := fun hl => {
      log := by
        change _ = (w.append n ⟨s.currentTerm, s.log.lastIndex + 1, cmd⟩).llog s.currentTerm
        rw [hlogn, hlog, ← h.term]
        simp [World.append]
      matched := fun hr p v hp => ?_
      nexts := fun hf p hp => ?_
      lcommit := (h.lead hl).lcommit }
    standing := fun hr => absurd (hrole.symm.trans hr) Role.leader_ne_candidate
    commit := fun hf => by
      rw [hlogn]
      exact ((h.commit hf).extends hw.sound hx).mono (Nat.le_refl _) (Nat.le_refl _)
        (List.prefix_append _ _) }⟩
  · change p ∈ insert n s.peers.toFinset ∧ v ≤ (w.append n _).acked p s.currentTerm
    by_cases hps : p = s.id
    · subst hps
      have hv : s.log.lastIndex + 1 = v := by simpa [OrdMap.find?_insert_self] using hp
      rw [h.id, ← h.term, ← hv, hlast]
      exact ⟨Finset.mem_insert_self _ _, by simp [World.append]⟩
    · have hp' : s.matchIndex.find? p = some v := by
        rw [← OrdMap.find?_insert_of_ne _ (s.log.lastIndex + 1) hps]
        exact hp
      exact ((h.lead hl).matched hr p v hp').imp_right fun hm =>
        Nat.le_trans hm (hx.acked_le p _)
  · change ((s.nextIndex.insert s.id _).getD p 0 = 0 ∧
      (s.matchIndex.insert s.id _).getD p 0 ≤ _ ∧ _) ∨
      (w.append n _).Anchored s.currentTerm p ((s.nextIndex.insert s.id _).getD p 0 - 1)
    have hps := h.peer_ne hp
    rw [OrdMap.getD_insert_of_ne _ _ _ hps, OrdMap.getD_insert_of_ne _ _ _ hps]
    exact ((h.lead hl).nexts hf p hp).imp_right fun ha =>
      ha.step hw.sound hstep (h.leader_ne hl)

/-! ## Commitment and application -/

/-- A leader commits an entry of its own term that a quorum has confirmed. -/
theorem commitTo (hw : Coherent md Q w) (h : Replica md w n s) {i : Nat}
    (hdec : Q.Decides (insert n s.peers.toFinset)) (hrole : s.role = .leader)
    (hlt : s.commitIndex < i)
    (hterm : s.cfg.bugCommitPriorTerm = true ∨
      (s.log.entryAt i).map LogEntry.term = some s.currentTerm)
    (hcount : s.quorum ≤ s.matchCount i) :
    ∃ w', Simulated md Q w w' n { s with commitIndex := i } := by
  have hl := h.lead hrole
  by_cases hf : md.full
  · have hm := hl.matched (md.repl_of_full hf)
    have hA : Q.IsQuorum (s.matchIndex.keysWhere fun v => decide (v ≥ i)) := by
      refine hdec _ (Node.majority (fun p hp => ?_) (hcount.trans (Nat.le_of_eq ?_)))
      · obtain ⟨v, hv, -⟩ := OrdMap.mem_keysWhere.mp hp
        exact (hm p v hv).1
      · exact (s.matchIndex.card_keysWhere fun v => decide (v ≥ i)).symm
    have hack : ∀ p ∈ s.matchIndex.keysWhere (fun v => decide (v ≥ i)),
        i ≤ w.acked p s.currentTerm := by
      intro p hp
      obtain ⟨v, hv, hle⟩ := OrdMap.mem_keysWhere.mp hp
      exact Nat.le_trans (of_decide_eq_true hle) (hm p v hv).2
    have hentry : ∃ e, (w.llog s.currentTerm)[i - 1]? = some e ∧ e.term = s.currentTerm := by
      rw [(h.cfg.flags hf).1] at hterm
      obtain ⟨e, he, het⟩ := Option.map_eq_some_iff.mp (hterm.resolve_left (by decide))
      rw [← hl.log]
      exact ⟨e, (h.log.entryAt.mp he).2, het⟩
    have hlc := hl.lcommit hf
    have hmax : (w.commitTo s.currentTerm i).lcommit s.currentTerm = i := by
      simp only [World.commitTo, Function.update_self]
      omega
    have hstep : World.Step Q LogEntry.term md.full w
        (w.commitTo s.currentTerm i) := .commit w _ i _ hA hack hentry
    refine ⟨_, .single hw hstep rfl (Only.commitTo i (h.elector.leader hrole)) { h with
      elector := h.elector.frame rfl rfl rfl rfl rfl rfl
      lead := fun _ => { hl with lcommit := fun _ => Nat.le_of_eq hmax }
      commit := fun _ => Or.inr ⟨s.currentTerm, Nat.le_refl _, Nat.le_of_eq hmax.symm, ?_⟩
      applied := fun _ => ⟨(h.applied hf).1, Nat.le_trans (h.applied hf).2 (Nat.le_of_lt hlt)⟩ }⟩
    change (w.llog s.currentTerm).take i <+: w.log n
    rw [hl.log]
    exact take_isPre _ _
  · exact ⟨w, .stay hw { h with
      elector := h.elector.frame rfl rfl rfl rfl rfl rfl
      lead := fun _ => { hl with lcommit := fun hf' => absurd hf' hf }
      commit := fun hf' => absurd hf' hf
      applied := fun hf' => absurd hf' hf }⟩

/-- `last_applied_` moves on by one. -/
theorem applyNext (h : Replica md w n s) (hlt : s.lastApplied < s.commitIndex) :
    Replica md w n { s with lastApplied := s.lastApplied + 1 } :=
  { h with
    elector := h.elector.frame rfl rfl rfl rfl rfl rfl
    applied := fun hf => ⟨Nat.le_succ_of_le (h.applied hf).1, hlt⟩ }

/-- A node that stands for no office takes in a peer; a leader begins at the end of its log. -/
theorem joinPeer (hw : Coherent md Q w) (h : Replica md w n s) {newId : NodeId}
    (hid : newId ≠ s.id) (hrole : s.role ≠ .candidate) : Replica md w n (s.joinPeer newId) := by
  have hpeers : ∀ p, p ∈ (s.peers ++ [newId]).insertionSort (· ≤ ·) ↔ p ∈ s.peers ∨ p = newId :=
    fun p => by rw [(List.perm_insertionSort _ _).mem_iff, List.mem_append, List.mem_singleton]
  have hself : n ∉ (s.peers ++ [newId]).insertionSort (· ≤ ·) := fun hmem =>
    ((hpeers n).mp hmem).elim h.self fun heq => hid (heq.symm.trans h.id.symm)
  unfold Node.joinPeer
  simp only
  split
  · rename_i hl
    have hlead := h.lead hl
    refine { h with
      self := hself
      elector := h.elector.same rfl rfl (Or.inr ⟨rfl, fun hc => absurd hc hrole⟩)
      lead := fun _ => {
        log := hlead.log
        matched := fun hr p v hp => ?_
        nexts := fun hf p hp => ?_
        lcommit := hlead.lcommit } }
    · rw [Finset.mem_insert, List.mem_toFinset, hpeers]
      by_cases hpn : p = newId
      · subst hpn
        rw [OrdMap.find?_insert_self] at hp
        rw [← Option.some.inj hp]
        exact ⟨Or.inr (Or.inr rfl), Nat.zero_le _⟩
      · rw [OrdMap.find?_insert_of_ne _ _ hpn] at hp
        obtain ⟨hmem, hv⟩ := hlead.matched hr p v hp
        rw [Finset.mem_insert, List.mem_toFinset] at hmem
        exact ⟨hmem.imp_right Or.inl, hv⟩
    · change ((s.nextIndex.insert newId _).getD p 0 = 0 ∧
        (s.matchIndex.insert newId _).getD p 0 ≤ _ ∧ _) ∨
        w.Anchored s.currentTerm p ((s.nextIndex.insert newId _).getD p 0 - 1)
      by_cases hpn : p = newId
      · subst hpn
        rw [OrdMap.getD_insert_self]
        refine Or.inr (Or.inl ?_)
        rw [Nat.add_sub_cancel, h.log.lastIndex, hlead.log]
        exact (hw.sound.ilog_isPre _).length_le
      · rw [OrdMap.getD_insert_of_ne _ _ _ hpn, OrdMap.getD_insert_of_ne _ _ _ hpn]
        exact hlead.nexts hf p (((hpeers p).mp hp).resolve_right hpn)
  · rename_i hl
    exact { h with
      self := hself
      elector := h.elector.same rfl rfl (Or.inr ⟨rfl, fun hc => absurd hc hrole⟩)
      lead := fun hr => absurd hr hl }

theorem leavePeer (h : Replica md w n s) (remId : NodeId) (hrole : s.role ≠ .candidate) :
    Replica md w n (s.leavePeer remId) := by
  have hpeers : ∀ p, p ∈ s.peers.filter (· ≠ remId) ↔ p ∈ s.peers ∧ p ≠ remId := fun p => by
    rw [List.mem_filter, decide_eq_true_eq]
  refine { h with
    self := fun hmem => h.self ((hpeers n).mp hmem).1
    elector := h.elector.same rfl rfl (Or.inr ⟨rfl, fun hc => absurd hc hrole⟩)
    lead := fun hl => {
      log := (h.lead hl).log
      matched := fun hr p v hp => ?_
      nexts := fun hf p hp => ?_
      lcommit := (h.lead hl).lcommit } }
  · have hne : p ≠ remId := by
      rintro rfl
      exact nomatch (OrdMap.find?_erase_self _ _).symm.trans hp
    have hp' : s.matchIndex.find? p = some v := (OrdMap.find?_erase_of_ne _ hne).symm.trans hp
    obtain ⟨hmem, hv⟩ := (h.lead hl).matched hr p v hp'
    rw [Finset.mem_insert, List.mem_toFinset] at hmem
    refine ⟨Finset.mem_insert.mpr (hmem.imp_right fun hm => List.mem_toFinset.mpr ?_), hv⟩
    exact (hpeers p).mpr ⟨hm, hne⟩
  · obtain ⟨hp, hne⟩ := (hpeers p).mp hp
    have hget : ∀ m : OrdMap NodeId Nat, (m.erase remId).getD p 0 = m.getD p 0 := fun m => by
      rw [OrdMap.getD, OrdMap.find?_erase_of_ne _ hne]
      rfl
    change ((s.nextIndex.erase remId).getD p 0 = 0 ∧
      (s.matchIndex.erase remId).getD p 0 ≤ _ ∧ _) ∨
      w.Anchored s.currentTerm p ((s.nextIndex.erase remId).getD p 0 - 1)
    rw [hget, hget]
    exact (h.lead hl).nexts hf p hp

/-! ## Snapshots and crashes -/

/-- The node compacts what it has applied. -/
theorem compact (hw : Coherent md Q w) (h : Replica md w n s) {t : Nat}
    (hthr : 0 < s.cfg.snapshotThreshold) (hlt : s.snapLastIndex < s.lastApplied)
    (ht : s.log.termAt s.lastApplied = some t) :
    Replica md w n
      { s with
        snapLastIndex := s.lastApplied, snapLastTerm := t
        log := s.log.setSnapshot s.lastApplied t } := by
  have hc : md.comp := h.cfg.whole.resolve_right (by omega)
  have hf := md.full_of_comp hc
  obtain ⟨-, happ⟩ := h.applied hf
  have hlen := (h.commit hf).length_le hw.sound
  have hb : s.log.baseIndex < s.lastApplied := by rw [← h.snap.1]; exact hlt
  have hst : stampAt (w.log n) s.lastApplied = t := by
    rw [h.log.termAt (Nat.le_of_lt hb) (by omega)] at ht
    exact Option.some.inj ht
  obtain ⟨hbi, hbt⟩ := RaftLog.setSnapshot_base hb t
  exact { h with
    elector := h.elector.frame rfl rfl rfl rfl rfl rfl
    log := hst ▸ h.log.setSnapshot hb (by omega)
    snap := ⟨hbi.symm, hbt.symm⟩
    whole := Or.inl hc
    applied := fun _ => ⟨Nat.le_of_eq hbi, happ⟩ }

/-- A snapshot that the log, where it is longer, agrees with. -/
theorem install {B : Type} (hw : Coherent md Q w) (h : Replica md w n s) {src : NodeId}
    {is : InstallSnapshot B} (hio : InstallOk md w src n is) (hterm : s.currentTerm = is.term)
    (hrole : s.role = .follower) (hlt : s.snapLastIndex < is.lastIncludedIndex)
    (hfit : is.lastIncludedIndex < s.log.lastIndex →
      s.log.contains is.lastIncludedIndex is.lastIncludedTerm = true) :
    Simulated md Q w (w.accept n is.lastIncludedIndex) n
      { s with
        snapLastIndex := is.lastIncludedIndex, snapLastTerm := is.lastIncludedTerm
        log := s.log.setSnapshot is.lastIncludedIndex is.lastIncludedTerm
        commitIndex := max s.commitIndex is.lastIncludedIndex
        lastApplied := max s.lastApplied is.lastIncludedIndex } := by
  have hf := md.full_of_comp hio.comp
  have htn : w.term n = is.term := h.term.trans hterm
  have hled : w.leader (w.term n) ≠ none := by rw [htn, hio.leader]; simp
  have hlen : is.lastIncludedIndex ≤ (w.llog (w.term n)).length := by rw [htn]; exact hio.len
  have hpos := hio.pos
  have hb : s.log.baseIndex < is.lastIncludedIndex := by rw [← h.snap.1]; exact hlt
  have hlast := h.log.lastIndex
  have hstep : World.Step Q LogEntry.term md.full w
      (w.accept n is.lastIncludedIndex) := .accept w n _ hled hlen
  have hx := (hstep.sound_extends hw.sound).2
  have htake : ((w.llog is.term).take is.lastIncludedIndex).length = is.lastIncludedIndex := by
    rw [List.length_take]
    exact Nat.min_eq_left hio.len
  have hrep : LogRep (s.log.setSnapshot is.lastIncludedIndex is.lastIncludedTerm)
      (w.merged n is.lastIncludedIndex) := by
    rcases Nat.lt_or_ge is.lastIncludedIndex s.log.lastIndex with hshort | hlong
    · -- the log goes on past the snapshot: it is kept whole
      obtain ⟨-, hle, hst⟩ := (h.log.contains_iff (by omega)).mp (hfit hshort)
      obtain ⟨d, hd, hdt⟩ := exists_stampAt hpos hle
      obtain ⟨e, he, het⟩ := exists_stampAt hpos hio.len
      have heq := hw.matching n is.term _ d e hd he (by rw [← hdt, hst, hio.term, het])
      rw [Nat.sub_add_cancel hpos] at heq
      have hpre : (w.llog (w.term n)).take is.lastIncludedIndex <+: w.log n := by
        rw [htn, ← heq]
        exact take_isPre _ _
      rw [World.merged, if_pos hpre, ← hst]
      exact h.log.setSnapshot hb hle
    · -- the log ends before it: the snapshot takes its place
      have hmerged : w.merged n is.lastIncludedIndex =
          (w.llog is.term).take is.lastIncludedIndex := by
        unfold World.merged
        rw [htn]
        split
        · rename_i hpre
          exact (hpre.eq_of_length (by have := hpre.length_le; omega)).symm
        · rfl
      have hr := h.log.setSnapshot_replace (K := (w.llog is.term).take is.lastIncludedIndex)
        (by omega) (by omega)
      rw [htake, stampAt_take (Nat.le_refl _), ← hio.term] at hr
      rw [hmerged]
      exact hr
  obtain ⟨hbi, hbt⟩ := RaftLog.setSnapshot_base hb is.lastIncludedTerm
  have hnot : ¬ s.role = .leader := by rw [hrole]; exact Role.follower_ne_leader
  have hold : w.CommittedIn s.currentTerm (w.merged n is.lastIncludedIndex) s.commitIndex := by
    have hc := h.commit hf
    rw [← h.term] at hc ⊢
    exact hc.merged _ hf hw.sound hled
  have hnew : w.CommittedIn s.currentTerm (w.merged n is.lastIncludedIndex)
      is.lastIncludedIndex := by
    have hc := hio.commit.restrict (take_isPre (w.llog is.term) is.lastIncludedIndex)
    rw [htake, Nat.min_self] at hc
    rw [hterm]
    exact hc.mono (Nat.le_refl _) (Nat.le_refl _) (htn ▸ World.take_isPre_merged w n _)
  exact .single hw hstep rfl (Only.accept w n _) { h with
    elector := h.elector.frame rfl rfl rfl rfl rfl rfl
    log := by rw [accept_log]; exact hrep
    snap := ⟨hbi.symm, hbt.symm⟩
    whole := Or.inl hio.comp
    lead := fun hr => absurd hr hnot
    standing := fun hr => absurd (hrole.symm.trans hr) Role.follower_ne_candidate
    commit := fun _ => by
      rw [accept_log]
      refine World.CommittedIn.extends hw.sound hx ?_
      change w.CommittedIn s.currentTerm _ (max s.commitIndex is.lastIncludedIndex)
      rcases Nat.le_total s.commitIndex is.lastIncludedIndex with hle | hle
      · rw [Nat.max_eq_right hle]; exact hnew
      · rw [Nat.max_eq_left hle]; exact hold
    applied := fun _ => ⟨hbi.trans_le (Nat.le_max_right _ _),
      Nat.max_le.mpr ⟨Nat.le_trans (h.applied hf).2 (Nat.le_max_left _ _),
        Nat.le_max_right _ _⟩⟩ }

/-- A node confirms to its leader what it has compacted. -/
theorem confirm (hw : Coherent md Q w) (h : Replica md w n s)
    (hled : w.leader s.currentTerm ≠ none) :
    Simulated md Q w (w.accept n s.log.baseIndex) n s := by
  have hpre := h.base_isPre hw hled
  have hlen : ((w.log n).take s.log.baseIndex).length = s.log.baseIndex := by
    rw [List.length_take]
    exact Nat.min_eq_left h.log.base_le
  have hmerged : w.merged n s.log.baseIndex = w.log n := by
    rw [World.merged, if_pos]
    rw [h.term, take_eq_of_isPre hpre (by omega), List.take_take, Nat.min_self]
    exact take_isPre _ _
  have hstep : World.Step Q LogEntry.term md.full w
      (w.accept n s.log.baseIndex) := by
    refine .accept w n _ (by rw [h.term]; exact hled) ?_
    have := hpre.length_le
    rw [h.term]
    omega
  have hx := (hstep.sound_extends hw.sound).2
  have hlogn : (w.accept n s.log.baseIndex).log n = w.log n := by rw [accept_log, hmerged]
  exact .single hw hstep rfl (Only.accept w n _) { h with
    log := by rw [hlogn]; exact h.log
    elector := h.elector.frame rfl rfl rfl rfl rfl rfl
    lead := fun hl => {
      log := by rw [hlogn]; exact h.leading hl
      matched := fun hr p v hp => ((h.lead hl).matched hr p v hp).imp_right fun hv =>
        Nat.le_trans hv (hx.acked_le p _)
      nexts := fun hf p hp => ((h.lead hl).nexts hf p hp).imp_right fun ha =>
        ha.step hw.sound hstep hled
      lcommit := (h.lead hl).lcommit }
    standing := fun hr => by rw [hlogn]; exact h.standing hr
    commit := fun hf => by rw [hlogn]; exact (h.commit hf).extends hw.sound hx }

/-- A crash forgets how far the log was committed and applied past the snapshot. -/
theorem stop (h : Replica md w n s) : Replica md w n s.stop := by
  refine Replica.frame (s := { s with
    role := .follower, commitIndex := s.snapLastIndex, lastApplied := s.snapLastIndex
    votesReceived := ∅, voteCount := 0, nextIndex := .empty, matchIndex := .empty }) ?_ rfl
  exact { h with
    elector := h.elector.same rfl rfl (Or.inl rfl)
    lead := fun hr => absurd hr Role.follower_ne_leader
    standing := fun hr => absurd hr Role.follower_ne_candidate
    commit := fun hf => by
      obtain ⟨h1, h2⟩ := h.applied hf
      exact (h.commit hf).mono (Nat.le_refl _) (h.snap.1.trans_le (Nat.le_trans h1 h2))
        List.prefix_rfl
    applied := fun _ => ⟨Nat.le_of_eq h.snap.1.symm, Nat.le_refl _⟩ }

end Replica

end SimKV
