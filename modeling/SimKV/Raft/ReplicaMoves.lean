/-
# Every step of the cluster is a sequence of steps of the history

What a step begins with is `Given`: the node's stores are in order, the packet
it handles means what `PacketOk` says, the run's assumptions about replies and
snapshots hold of this delivery (`Honoured`), and a node that wins or leads does
so in a configuration whose majorities are quorums and listens to its peers alone
(`Seated`).  From there every move is simulated (`Move.simulated`), everything it
sends is a packet that means something again (`Emitted.msgOk`), and by the
induction of `SimKV.Runs` all of it holds in every state of a run that meets the
assumptions (`Cluster.Charted`, `Cluster.replica_run`).

The assumptions are conditions on the state and the packet before the step.  They
speak about the message a reply answers, which the packet records for us and the
code does not have: `handle_append_entries_reply` infers what was confirmed from
`next_index_`, and a stale or duplicated reply makes it infer too much.
-/
import SimKV.Raft.ReplicaSteps

namespace SimKV

open TermLog

variable {M : Medium}

/-! ## Assumptions about a delivery -/

/-- If node `s` will act on the `AppendEntriesReply` in `p`, the reply answers a message of its
own term, and a success answers one that reached as far as `next_index_` is now. -/
def Node.FitsReply (s : Node M) (p : Packet M) : Prop :=
  match p.msg with
  | .appendEntriesReply r => s.role = .leader → r.term = s.currentTerm →
      ∃ ae ∈ p.request, ae.term = r.term ∧ (r.success = true →
        pred64 (s.nextIndex.getD p.src 0) ≤ ae.prevLogIndex + ae.entries.length)
  | _ => True

/-- If node `s` will act on the `InstallSnapshotReply` in `p`, it is of its own term, and if it
will install the snapshot in `p`, its log, where it goes on, agrees with it. -/
def Node.FitsSnapshot (s : Node M) (p : Packet M) : Prop :=
  match p.msg with
  | .installSnapshotReply r => s.role = .leader → r.term ≤ s.currentTerm → r.term = s.currentTerm
  | .installSnapshot is => s.currentTerm ≤ is.term → s.snapLastIndex < is.lastIncludedIndex →
      is.lastIncludedIndex < s.log.lastIndex →
      s.log.contains is.lastIncludedIndex is.lastIncludedTerm = true
  | _ => True

instance (s : Node M) (p : Packet M) : Decidable (s.FitsReply p) := by
  unfold Node.FitsReply
  induction p.msg using Msg.casesOn <;> infer_instance

instance (s : Node M) (p : Packet M) : Decidable (s.FitsSnapshot p) := by
  unfold Node.FitsSnapshot
  induction p.msg using Msg.casesOn <;> infer_instance

/-- What the mode assumes of the delivery of `p` to a node in state `s`. -/
structure Honoured (md : Mode) (s : Node M) (p : Packet M) : Prop where
  reply : md.repl → s.FitsReply p
  snapshot : md.comp → s.FitsSnapshot p
  room : md.comp → s.log.lastIndex < 2 ^ 64 - 1

/-- Whoever the node will count as a voter or a follower is one of its peers. -/
def Node.HearsPeers (s : Node M) : Input M → Prop
  | .message src (.requestVoteReply r) => s.role = .candidate → r.term = s.currentTerm →
      r.voteGranted = true → src ∈ s.peers
  | .message src (.appendEntriesReply r) => s.role = .leader → r.term = s.currentTerm →
      src ∈ s.peers
  | .message src (.installSnapshotReply r) => s.role = .leader → r.term ≤ s.currentTerm →
      src ∈ s.peers
  | _ => True

instance (s : Node M) (inp : Input M) : Decidable (s.HearsPeers inp) := by
  unfold Node.HearsPeers
  induction inp using Input.casesOn with
  | message src m => induction m using Msg.casesOn <;> infer_instance
  | _ => infer_instance

/-- Node `n`, if it wins an election or leads, does so in a configuration whose majorities are
quorums, and it listens to its peers. -/
structure Seated (Q : Quorums NodeId) (n : NodeId) (s : Node M) (inp : Input M) : Prop where
  decides : s.wins inp = true ∨ s.role = .leader → Q.Decides (insert n s.peers.toFinset)
  hears : s.HearsPeers inp

/-- What a step of node `n` begins with. -/
structure Given (md : Mode) (Q : Quorums NodeId) (w : RaftWorld) (n : NodeId) (n₀ : Node M)
    (inp : Input M) : Prop where
  recoverable : Recoverable n₀ inp
  seat : Seated Q n n₀ inp
  term : n₀.currentTerm ≤ w.term n
  base : n₀.snapLastIndex = n₀.log.baseIndex
  packet : ∀ src m, inp = .message src m →
    ∃ re, PacketOk md w ⟨src, n, m, re⟩ ∧ Honoured md n₀ ⟨src, n, m, re⟩

section Given

variable {md : Mode} {Q : Quorums NodeId} {w w' : RaftWorld} {n src : NodeId} {n₀ : Node M}
  {inp : Input M}

theorem Given.vote (hg : Given md Q w n n₀ inp) {m : Msg M.Blob}
    (hinp : inp = .message src m) : VoteMsg w.toBallot src n m := by
  obtain ⟨re, hp, -⟩ := hg.packet src m hinp
  exact hp.vote

theorem Given.requestVote (hg : Given md Q w n n₀ inp) {rv : RequestVote}
    (hinp : inp = .message src (.requestVote rv)) :
    ∃ lc, w.cand rv.candidateId rv.term = some lc ∧ rv.lastLogIndex = lc.length ∧
      rv.lastLogTerm = lastTm LogEntry.term lc := by
  obtain ⟨re, hp, -⟩ := hg.packet src _ hinp
  have hv : src = rv.candidateId := hp.vote.1
  rw [← hv]
  exact hp.msg

theorem Given.appendOk (hg : Given md Q w n n₀ inp) {ae : AppendEntries}
    (hinp : inp = .message src (.appendEntries ae)) : AppendOk md w src n ae := by
  obtain ⟨re, hp, -⟩ := hg.packet src _ hinp
  exact hp.msg

theorem Given.installOk (hg : Given md Q w n n₀ inp) {is : InstallSnapshot M.Blob}
    (hinp : inp = .message src (.installSnapshot is)) : InstallOk md w src n is := by
  obtain ⟨re, hp, -⟩ := hg.packet src _ hinp
  exact hp.msg

/-- A success that the leader acts on confirms what it will record. -/
theorem Given.confirmed (hg : Given md Q w n n₀ inp) {aer : AppendEntriesReply}
    (hinp : inp = .message src (.appendEntriesReply aer)) (hrole : n₀.role = .leader)
    (hterm : aer.term = n₀.currentTerm) (hok : aer.success = true) (hr : md.repl) :
    pred64 (n₀.nextIndex.getD src 0) ≤ w.acked src n₀.currentTerm := by
  obtain ⟨re, hp, hh⟩ := hg.packet src _ hinp
  obtain ⟨ae, hae, -, hle⟩ := hh.reply hr hrole hterm
  obtain ⟨ae', hae', -, hack⟩ := ReplyOk.success hp.msg hok
  obtain rfl : ae = ae' := Option.some.inj (hae.symm.trans hae')
  rw [← hterm]
  exact Nat.le_trans (hle hok) hack

/-- A rejection that the leader acts on gives it an anchor. -/
theorem Given.rejected (hg : Given md Q w n n₀ inp) {aer : AppendEntriesReply}
    (hinp : inp = .message src (.appendEntriesReply aer)) (hrole : n₀.role = .leader)
    (hterm : aer.term = n₀.currentTerm) (hok : aer.success = false) (hf : md.full) :
    RejectOk w n₀.currentTerm src aer := by
  obtain ⟨re, hp, hh⟩ := hg.packet src _ hinp
  obtain ⟨ae, hae, ht, -⟩ := hh.reply (md.repl_of_full hf) hrole hterm
  obtain ⟨ae', hae', hrej⟩ := ReplyOk.reject hp.msg hf hok
  obtain rfl : ae = ae' := Option.some.inj (hae.symm.trans hae')
  rw [← hterm]
  exact hrej ht

theorem Given.steps (hw : Coherent md Q w) (hs : md.Steps Q w w')
    (hg : Given md Q w n n₀ inp) : Given md Q w' n n₀ inp :=
  { hg with
    term := Nat.le_trans hg.term ((hw.steps_extends hs).ballot.term_le n)
    packet := fun src m hinp => by
      obtain ⟨re, hp, hh⟩ := hg.packet src m hinp
      exact ⟨re, hp.steps hw hs, hh⟩ }

end Given

/-! ## Moves -/

section Moves

variable {md : Mode} {Q : Quorums NodeId} {w w' : RaftWorld} {n : NodeId} {n₀ s s' : Node M}
  {t : Nat} {inp : Input M}

/-- The comparison a voter makes. -/
theorem Replica.upToDate (hr : Replica md w n s) {lc : List LogEntry}
    (h : s.isLogUpToDate lc.length (lastTm LogEntry.term lc) = true) :
    UpToDate LogEntry.term lc (w.log n) := by
  unfold Node.isLogUpToDate at h
  rw [hr.log.lastTerm, hr.log.lastIndex] at h
  split at h
  · exact Or.inl (of_decide_eq_true h)
  · rename_i heq
    exact Or.inr ⟨not_not.mp heq, of_decide_eq_true h⟩

/-- **Every move of a node is simulated by steps of the history.** -/
theorem Move.simulated (h : Move n₀ t inp s s') (hw : Coherent md Q w)
    (hg : Given md Q w n n₀ inp) (hr : Replica md w n s) :
    ∃ w', Simulated md Q w w' n s' := by
  have stay : ∀ {s' : Node M}, Replica md w n s' → ∃ w', Simulated md Q w w' n s' :=
    fun h => ⟨w, .stay hw h⟩
  cases h with
  | newTerm T l tm es hq hT => exact ⟨_, (hr.newTerm hw hT).frame rfl⟩
  | follow => exact stay (hr.follow.frame rfl)
  | grant src rv tm es hq hinp hterm hvote hup =>
    rcases hvote with hvote | hvote
    · obtain ⟨lc, hlc, hidx, hlt⟩ := hg.requestVote hinp
      refine ⟨_, (hr.grant hw hvote (hterm ▸ hlc) fun hf => ?_).frame rfl⟩
      rw [(hr.cfg.flags hf).2, hidx, hlt] at hup
      exact hr.upToDate (hup.resolve_left (by decide))
    · exact stay (hr.frame (by simp [Node.core, Node.persisted, hvote]))
  | countVote src rvr hinp hgr hrole hterm helec h₀ =>
    subst h₀
    obtain ⟨h1, h2⟩ := hg.vote hinp hgr
    have hp := hg.seat.hears
    rw [hinp] at hp
    exact stay (hr.countVote ⟨hp hrole hterm hgr, h1, hterm ▸ h2⟩)
  | stand => exact ⟨_, (hr.stand hw).frame rfl⟩
  | win tm es hq hrole hcount hpeers hwins =>
    have hdec := hg.seat.decides (Or.inl hwins)
    rw [← hpeers] at hdec
    exact ⟨_, (hr.win hw hdec hrole hcount).frame rfl⟩
  | touchNext peer =>
    refine stay (hr.rebook fun hl => { hr.lead hl with nexts := fun hf p hp => ?_ })
    rw [OrdMap.getD_touch]
    exact (hr.lead hl).nexts hf p hp
  | sendAppend peer next prevTerm hpeer hrole hnext hsnap =>
    exact stay (hr.sendAppend hw hnext hsnap)
  | accept src ae es hq hinp hterm hrole hprev =>
    exact ⟨_, (hr.accept hw (hg.appendOk hinp) hterm hrole hprev).frame rfl⟩
  | credit src aer hinp h₀ hrole hterm hok =>
    subst h₀
    obtain ⟨re, -, hh⟩ := hg.packet src _ hinp
    have hp := hg.seat.hears
    rw [hinp] at hp
    exact stay (hr.credit hw (hp hrole hterm) (hg.confirmed hinp hrole hterm hok) hh.room)
  | backtrack src aer hinp h₀ hrole hterm hok =>
    subst h₀
    exact stay (hr.backtrack hw (hg.rejected hinp hrole hterm hok))
  | creditSnapshot src isr hinp h₀ hrole hterm =>
    subst h₀
    obtain ⟨re, hp, hh⟩ := hg.packet src _ hinp
    have hisr : InstallReplyOk md w src isr := hp.msg
    have hsrc := hg.seat.hears
    rw [hinp] at hsrc
    exact stay (hr.creditSnapshot hw (hsrc hrole hterm) hrole hisr
      (hh.snapshot hisr.comp hrole hterm) (hh.room hisr.comp))
  | commit i hrole hlt hbase hlast hterm hcount h₀ =>
    have hdec := hg.seat.decides (Or.inr h₀.1)
    rw [← h₀.2] at hdec
    exact hr.commitTo hw hdec hrole hlt hterm hcount
  | skipApplied hlt => exact stay (hr.applyNext hlt)
  | applyKv e hlt => exact stay ((hr.applyNext hlt).frame rfl)
  | joinPeer e kv newId happ he hnew hid hrole ps nx mx hj =>
    exact stay (hj ▸ hr.joinPeer hw hid hrole)
  | leavePeer e kv remId happ he hrole => exact stay (hr.leavePeer remId hrole)
  | drain => exact stay (hr.frame rfl)
  | snapshot k es hq hthr hlt ht => exact stay ((hr.compact hw hthr hlt ht).frame rfl)
  | adopt src is err hinp hlt hdec => exact (hg.recoverable.not_adopt hinp hdec).elim
  | install src is kv es hq hinp hterm hrole hlt hdec hlog happ =>
    have hio := hg.installOk hinp
    obtain ⟨re, -, hh⟩ := hg.packet src _ hinp
    refine ⟨_, (hr.install hw hio hterm hrole hlt ?_).frame rfl⟩
    rw [hr.snap.1, hlog, ← hg.base] at hlt
    rw [hlog]
    exact hh.snapshot hio.comp (by rw [← hterm, ← hr.term]; exact hg.term) hlt
  | place cmd cb cfgPending es hq h₀ hinp hrun hrole =>
    exact ⟨_, (hr.place hw hrole cmd).frame rfl⟩
  | crash kv hinp => exact stay (hr.stop.frame rfl)
  | crashFail => exact stay hr.stop
  | boot _ hinp h₀ hrun hboot =>
    obtain ⟨kv, rfl, -⟩ := hg.recoverable.booted h₀ hrun hboot
    exact stay (hr.frame rfl)
  | _ => exact stay (hr.frame rfl)

/-- What a move confirms, the history records as confirmed. -/
structure Acked (inp : Input M) (w' : RaftWorld) (n : NodeId) (s s' : Node M) : Prop where
  entries : ∀ ae, Accepting inp s s' ae →
    ae.prevLogIndex + ae.entries.length ≤ w'.acked n ae.term
  snapshot : ∀ src is, Confirming inp s s' src is →
    s'.snapLastIndex ≤ w'.acked n s'.currentTerm

theorem Move.simulated_acked (h : Move n₀ t inp s s') (hw : Coherent md Q w)
    (hg : Given md Q w n n₀ inp) (hr : Replica md w n s) :
    ∃ w', Simulated md Q w w' n s' ∧ Acked inp w' n s s' := by
  by_cases hacc : ∃ ae, Accepting inp s s' ae
  · obtain ⟨ae, ha⟩ := hacc
    obtain ⟨src, hinp⟩ := ha.message
    obtain ⟨es, rfl⟩ := ha.result
    refine ⟨_, (hr.accept hw (hg.appendOk hinp) ha.term ha.role ha.prev).frame rfl, ?_, ?_⟩
    · intro ae' ha'
      obtain ⟨src', hinp'⟩ := ha'.message
      obtain rfl : ae = ae' := by
        rw [hinp] at hinp'
        simp only [Input.message.injEq, Msg.appendEntries.injEq] at hinp'
        exact hinp'.2
      rw [← ha.term, ← hr.term]
      exact Replica.le_accept_acked w n _
    · intro src' is hc
      have := hc.message
      rw [hinp] at this
      exact absurd this (by simp)
  · by_cases hcon : ∃ src is, Confirming inp s s' src is
    · obtain ⟨src, is, hc⟩ := hcon
      have hled : w.leader s.currentTerm ≠ none := by
        rw [hc.term, (hg.installOk hc.message).leader]
        simp
      have hsim := hr.confirm hw hled
      rw [hc.result] at hacc ⊢
      refine ⟨_, hsim.frame rfl, fun ae ha => absurd ⟨ae, ha⟩ hacc, fun _ _ _ => ?_⟩
      change s.snapLastIndex ≤ (w.accept n s.log.baseIndex).acked n s.currentTerm
      rw [hr.snap.1, ← hr.term]
      exact Replica.le_accept_acked w n _
    · obtain ⟨w', hsim⟩ := h.simulated hw hg hr
      exact ⟨w', hsim, fun ae ha => absurd ⟨ae, ha⟩ hacc,
        fun src is hc => absurd ⟨src, is, hc⟩ hcon⟩

/-! ## What is sent -/

/-- Whom a leader writes to is a peer. -/
theorem Given.target (hg : Given md Q w n n₀ inp) {d : NodeId} (h : Booked n₀ s inp d) :
    d ∈ s.peers := by
  rcases h with h | ⟨hpeers, hrole, aer, hinp, hterm⟩
  · exact h
  · have hp := hg.seat.hears
    rw [hinp] at hp
    rw [hpeers]
    exact hp hrole hterm

theorem Replica.installOk (hr : Replica md w n s) {d : NodeId} (hd : d ∈ s.peers)
    (hrole : s.role = .leader) (hsnap : s.snapLastIndex ≠ 0)
    (hnext : s.nextIndex.getD d 0 ≤ s.snapLastIndex) :
    InstallOk md w n d ⟨s.currentTerm, s.id, s.snapLastIndex, s.snapLastTerm, s.snapData⟩ := by
  have hc : md.comp := hr.whole.resolve_right (by rw [← hr.snap.1]; exact hsnap)
  have hf := md.full_of_comp hc
  have hlog := hr.leading hrole
  have hbase := hr.log.base_le
  obtain ⟨h1, h2⟩ := hr.applied hf
  rw [← hr.snap.1] at hbase h1
  exact {
    comp := hc
    leader := hr.elector.leader hrole
    pos := Nat.pos_of_ne_zero hsnap
    len := hlog ▸ hbase
    term := by
      change s.snapLastTerm = stampAt (w.llog s.currentTerm) s.snapLastIndex
      rw [← hlog, hr.snap.2, hr.snap.1]
      exact hr.log.baseTerm
    commit := by
      have hcm := hr.commit hf
      rw [hlog] at hcm
      exact hcm.mono (Nat.le_refl _) (Nat.le_trans h1 h2) List.prefix_rfl
    anchored := by
      rcases (hr.lead hrole).nexts hf d hd with ⟨-, -, hno⟩ | ha
      · exact absurd hc hno
      · exact ha.mono (Nat.sub_le_sub_right hnext 1) }

/-- A window is a stretch of the leader's log. -/
theorem Replica.appendOk (hw : Coherent md Q w) (hr : Replica md w n s) {d : NodeId}
    {next prevTerm : Nat} (hd : d ∈ s.peers) (hrole : s.role = .leader)
    (hnext : s.nextIndex.getD d 0 = next) (hsnap : s.snapLastIndex < next)
    (hprev : (next = 1 ∧ prevTerm = 0) ∨ (1 < next ∧ ∃ t, s.log.termAt (next - 1) = some t ∧
      prevTerm = if s.log.contains (next - 1) t then t else 0)) :
    AppendOk md w n d ⟨s.currentTerm, s.id, next - 1, prevTerm, s.window (next - 1),
      s.commitIndex⟩ := by
  have hlog := hr.leading hrole
  have hL := hr.log
  rw [hlog] at hL
  have hb : s.log.baseIndex ≤ next - 1 := by rw [← hr.snap.1]; omega
  have hin : next - 1 ≤ (w.llog s.currentTerm).length := by
    rcases hprev with ⟨rfl, -⟩ | ⟨-, k, hk, -⟩
    · exact Nat.zero_le _
    · rw [← hL.lastIndex]
      exact RaftLog.termAt_le hk
  have hwin := hL.window (s := s) hb
  have hlen : (next - 1) + (s.window (next - 1)).length =
      min (next - 1 + s.cfg.maxEntriesPerAe) (w.llog s.currentTerm).length := by
    rw [hwin, List.length_drop, List.length_take]
    omega
  exact {
    leader := hr.elector.leader hrole
    len := hlen.trans_le (Nat.min_le_right _ _)
    entries := by
      change s.window (next - 1) = ((w.llog s.currentTerm).take
        ((next - 1) + (s.window (next - 1)).length)).drop (next - 1)
      rw [hlen]
      exact hwin
    prev := fun h0 => by
      change prevTerm = stampAt (w.llog s.currentTerm) (next - 1)
      rcases hprev with ⟨rfl, -⟩ | ⟨-, k, hk, hpt⟩
      · exact absurd rfl h0
      · rw [hL.termAt hb hin] at hk
        rw [hpt, if_pos ((hL.contains_iff h0).mpr ⟨hb, hin, Option.some.inj hk⟩)]
        exact (Option.some.inj hk).symm
    anchored := fun hf => by
      rcases (hr.lead hrole).nexts hf d hd with ⟨h0, -⟩ | ha
      · omega
      · exact hnext ▸ ha
    commit := fun hf => hlog ▸ hr.commit hf
    reach := fun hf => by
      change s.commitIndex ≤ (next - 1) + (s.window (next - 1)).length ∨
        0 < (s.window (next - 1)).length
      have hroom := hr.cfg.room hf
      have hcl := (hr.commit hf).length_le hw.sound
      rw [hlog] at hcl
      omega }

/-- The conflict fields of a rejection give the leader an anchor. -/
theorem Replica.rejectOk (hw : Coherent md Q w) (hr : Replica md w n s) {src : NodeId}
    {ae : AppendEntries} (hae : AppendOk md w src n ae) (hf : md.full)
    (hterm : s.currentTerm = ae.term)
    (hprev : s.log.contains ae.prevLogIndex ae.prevLogTerm = false) (ok : Bool) :
    RejectOk w ae.term n ⟨ae.term, ok, (Node.conflict s.log ae.prevLogIndex).1,
      (Node.conflict s.log ae.prevLogIndex).2⟩ := by
  have hled : w.leader ae.term ≠ none := by rw [hae.leader]; simp
  have htn : w.term n = ae.term := hr.term.trans hterm
  have hlen := hae.len
  rcases hr.log.conflict (hw.indexed_log n) hprev with
    ⟨-, hc⟩ | ⟨d, ci, hd, hne, hpos, hci, hc⟩ | ⟨hpos, hle, hst, hc⟩
  · -- the log is too short
    rw [hc]
    refine ⟨hled, ?_, fun h0 => absurd rfl h0⟩
    rw [← htn]
    exact .of_length (by change _ ≤ max ((w.log n).length + 1) 1 - 1; omega)
  · -- it has another term at the predecessor
    rw [hc]
    obtain ⟨e, he, hes⟩ := exists_stampAt hpos
      (by omega : ae.prevLogIndex ≤ (w.llog ae.term).length)
    have hde : d.term ≠ e.term := by
      rw [← hes, ← hae.prev (by omega)]
      exact hne
    rw [← htn] at he
    refine ⟨hled, ?_, fun _ => ⟨fun heq => ?_, fun j x hx hxt hno => ?_⟩⟩
    · rw [← htn]
      refine (World.Anchored.of_mismatch hd he hde).mono ?_
      change _ ≤ max ci 1 - 1
      omega
    · -- an entry of the leader's own term is the leader's
      have hch := hw.sound.log_chained n _ d hd
      have hk : ((w.log n).take (ae.prevLogIndex - 1 + 1))[ae.prevLogIndex - 1]? = some d := by
        rw [List.getElem?_take_of_lt (Nat.lt_succ_self _)]
        exact hd
      have hk' := getElem?_of_isPre hch hk
      have heq' : d.term = ae.term := heq
      rw [heq', ← htn, he] at hk'
      exact hde (congrArg LogEntry.term (Option.some.inj hk').symm)
    · rw [← htn] at hx hno ⊢
      exact .of_last_stamp hw.sound hd he hde hx hxt hno
  · -- the predecessor is compacted
    rw [hc]
    refine ⟨hled, (hae.anchored hf).mono ?_, fun h0 => absurd rfl h0⟩
    change _ ≤ max (s.log.baseIndex + 1) 1 - 1
    omega

/-- **Every message a move sends means what `MsgOk` says.** -/
theorem Emitted.msgOk {d : NodeId} {m : Msg M.Blob} (h : Emitted n₀ t inp s s' (.send d m))
    (hw : Coherent md Q w) (hg : Given md Q w n n₀ inp) (hr : Replica md w n s)
    (hout : ∀ ae, .accepted ae ∈ s.out →
      ae.prevLogIndex + ae.entries.length ≤ w.acked n ae.term)
    (hsim : Simulated md Q w w' n s') (hack : Acked inp w' n s s') :
    MsgOk md w' ⟨n, d, m, inp.msg?⟩ := by
  have hr' := hsim.replica
  have hg' := hg.steps hw hsim.steps
  cases h with
  | requestVote d hd hpeers hrole =>
    exact ⟨w'.log n, hr'.standing hrole, hr'.log.lastIndex, hr'.log.lastTerm⟩
  | installSnapshot d hbook hrole hsnap hnext =>
    exact hr'.installOk (hg'.target hbook) hrole hsnap hnext
  | appendEntries d next prevTerm hbook hrole hnext hsnap hprev hs =>
    subst hs
    exact AppendOk.steps hw hsim.steps
      (hr.appendOk hw (hg.target hbook) hrole hnext hsnap hprev)
  | acceptReply src ae hinp hterm hacc =>
    have hx := hw.steps_extends hsim.steps
    refine ⟨fun _ => ⟨ae, by rw [hinp]; rfl, hterm.symm, ?_⟩,
      fun _ hno => absurd hno (by simp)⟩
    change _ ≤ w'.acked n s'.currentTerm
    rw [hterm]
    exact Nat.le_trans (hout ae hacc) (hx.acked_le n _)
  | rejectStale src ae hinp hterm =>
    refine ⟨fun hok => absurd hok (by simp), fun _ _ =>
      ⟨ae, by rw [hinp]; rfl, fun ht => ?_⟩⟩
    have : ae.term = s'.currentTerm := ht
    omega
  | rejectConflict src ae hinp hterm h₀ hprev =>
    refine ⟨fun hok => absurd hok (by simp), fun hf _ =>
      ⟨ae, by rw [hinp]; rfl, fun ht => ?_⟩⟩
    have ht' : n₀.currentTerm = ae.term := ht.symm
    have hrej := hr'.rejectOk hsim.coherent (hg'.appendOk hinp) hf hterm hprev false
    rw [← ht'] at hrej
    exact hrej
  | installSnapshotReply src is hc =>
    have hio := hg'.installOk hc.message
    have hterm : s'.currentTerm = is.term := by rw [hc.result]; exact hc.term
    have hle : is.lastIncludedIndex ≤ s'.snapLastIndex := by rw [hc.result]; exact hc.le
    refine ⟨hio.comp, ?_, hack.snapshot _ is hc, ?_⟩
    · change w'.leader s'.currentTerm ≠ none
      rw [hterm, hio.leader]
      simp
    · change w'.Anchored s'.currentTerm n s'.snapLastIndex
      rw [hterm]
      exact hio.anchored.mono (by omega)
  | _ => trivial

/-- The next entry to apply is one that some leader has committed. -/
theorem Replica.committed_next (hw : Coherent md Q w) (hr : Replica md w n s) (hf : md.full)
    (hlt : s.lastApplied < s.commitIndex) {e : LogEntry}
    (he : s.log.entryAt (s.lastApplied + 1) = some e) :
    ∃ T, s.lastApplied + 1 ≤ w.lcommit T ∧ (w.llog T)[s.lastApplied]? = some e := by
  have hk := (hr.log.entryAt.mp he).2
  rw [Nat.add_sub_cancel] at hk
  rcases hr.commit hf with h0 | ⟨T, -, hT, hpre⟩
  · omega
  · refine ⟨T, by omega, ?_⟩
    have hlen := hw.sound.lcommit_le T
    rw [getElem?_isPre_eq hpre (by rw [List.length_take]; omega),
      List.getElem?_take_of_lt (by omega)] at hk
    exact hk

theorem Emitted.effectOk {x : Effect M} (h : Emitted n₀ t inp s s' x) (hw : Coherent md Q w)
    (hr : Replica md w n s) (hsim : Simulated md Q w w' n s') (hack : Acked inp w' n s s') :
    EffectOk md w' n x := by
  cases h with
  | accepted ae ha => exact hack.entries ae ha
  | applied e hlt he =>
    have hidx := hw.indexed_log n _ _ (hr.log.entryAt.mp he).2
    exact EffectOk.steps hw hsim.steps ⟨Nat.succ_pos _, hidx, fun hf =>
      hr.committed_next hw hf hlt he⟩
  | _ => trivial

end Moves

/-! ## Runs -/

namespace Cluster

/-- The packet an event delivers. -/
def delivered (C : Cluster M) : Event → Option (Packet M)
  | .deliver k => C.net[k]?
  | _ => none

/-- What the mode and the quorums assume of event `e`. -/
structure Allows (md : Mode) (Q : Quorums NodeId) (C : Cluster M) (e : Event) : Prop where
  packet : ∀ p ∈ C.delivered e, Honoured md (C.node p.dst) p
  seat : ∀ n inp, C.input e = some (n, inp) → n ∈ C.members → Seated Q n (C.node n) inp

/-- A history with its invariant. -/
abbrev CoherentHistory (md : Mode) (Q : Quorums NodeId) : Type :=
  { w : RaftWorld // Coherent md Q w }

def replicaInvariant (M : Medium) (md : Mode) (Q : Quorums NodeId) :
    Invariant M (CoherentHistory md Q) where
  le w w' := md.Steps Q w.1 w'.1
  node w n s := Replica md w.1 n s
  packet w p := PacketOk md w.1 p
  effect w _ n x := EffectOk md w.1 n x
  le_refl _ := .refl
  le_trans _ _ _ h h' := h.trans h'
  packet_mono w _ _ hs h := h.steps w.2 hs
  effect_mono w _ _ _ _ hs h := h.steps w.2 hs
  node_settle _ _ _ h _ := h.frame rfl

variable {C : Cluster M} {md : Mode} {Q : Quorums NodeId}

/-- What the step of node `n` on event `e` begins with, seen from any later point inside it. -/
theorem Allows.given {e : Event} {n : NodeId} {inp : Input M} {s : Node M}
    {w₀ w : CoherentHistory md Q} (ha : C.Allows md Q e) (hd : C.Durable) (hs : C.Sized)
    (hinp : C.input e = some (n, inp)) (hn : n ∈ C.members)
    (h₀ : Replica md w₀.1 n (C.node n)) (hle : md.Steps Q w₀.1 w.1)
    (hh : (replicaInvariant M md Q).HoldsIn w inp.msg? (C.set n s)) :
    Given md Q w.1 n (C.node n) inp where
  recoverable := hd.recoverable hs hinp hn
  seat := ha.seat n inp hinp hn
  term := h₀.term ▸ (w₀.2.steps_extends hle).ballot.term_le n
  base := h₀.snap.1
  packet := by
    rintro src m rfl
    obtain ⟨k, p, rfl, hk, rfl, rfl, rfl, hp⟩ := hh.delivered hinp
    exact ⟨p.re, hp, ha.packet p hk⟩

/-- **A move advances the history.** -/
theorem replica_advance {n : NodeId} {inp : Input M} {s s' : Node M} {w : CoherentHistory md Q}
    (hg : Given md Q w.1 n (C.node n) inp) (hn : n ∈ C.members)
    (hm : Move (C.node n) C.now inp s s')
    (hh : (replicaInvariant M md Q).HoldsIn w inp.msg? (C.set n s)) :
    ∃ w', (replicaInvariant M md Q).Advance w w' C n inp s s' := by
  have hr : Replica md w.1 n s := by
    have h := hh.node n hn
    rw [set_node_self] at h
    exact h
  have hout : ∀ ae, .accepted ae ∈ s.out →
      ae.prevLogIndex + ae.entries.length ≤ w.1.acked n ae.term := fun ae hae =>
    hh.effect C.now n (.accepted ae) rfl (Or.inr ⟨rfl, by rw [set_node_self]; exact hae⟩)
  obtain ⟨w', hsim, hack⟩ := hm.simulated_acked w.2 hg hr
  have hx := w.2.steps_extends hsim.steps
  refine ⟨⟨w', hsim.coherent⟩, hsim.steps, hsim.replica,
    fun m _ hmn hrm => Replica.others w.2 hsim.steps hsim.only hmn hrm,
    fun x hx => hx.effectOk w.2 hr hsim hack, fun d m hsent => ⟨?_, ?_⟩, fun _ _ h => h.elim⟩
  · exact hsent.voteMsg hsim.replica.basic
      (fun src m hinp => (hg.vote hinp).extends hx.ballot) hsim.replica.elector
  · exact hsent.msgOk w.2 hg hr hout hsim hack

theorem replica_exec (hC : C.Settled) (hd : C.Durable) (hs : C.Sized)
    {e : Event} (ha : C.Allows md Q e) {w : CoherentHistory md Q}
    (h : (replicaInvariant M md Q).Holds w C) :
    ∃ w', (replicaInvariant M md Q).le w w' ∧
      (replicaInvariant M md Q).Holds w' (C.exec e) := by
  refine Invariant.exec hC h ?_ fun _ _ _ _ => ⟨trivial, trivial⟩
  intro n inp s s' w₁ hinp hn hle _ hm hh
  exact replica_advance (ha.given hd hs hinp hn (h.node n hn) hle hh) hn hm hh

theorem Fresh.replica (hC : C.Fresh) (hcfg : ∀ n ∈ C.members, ConfigOk md (C.node n).cfg) :
    (replicaInvariant M md Q).Holds ⟨World.init, Coherent.init md Q⟩ C where
  node n hn := by
    obtain ⟨ps, cfg, hnode⟩ := hC.node n
    have hb := hC.basic n hn
    have hc := hcfg n hn
    rw [hnode] at hb hc ⊢
    exact {
      id := rfl
      self := hb.self
      elector := ⟨rfl, rfl, fun h => (nomatch h), fun h => (nomatch h), fun h => nomatch h⟩
      cfg := hc
      log := LogRep.empty
      snap := ⟨rfl, rfl⟩
      whole := Or.inr rfl
      lead := fun h => absurd h Role.follower_ne_leader
      standing := fun h => absurd h Role.follower_ne_candidate
      commit := fun _ => World.CommittedIn.zero _ _ _
      applied := fun _ => ⟨Nat.le_refl _, Nat.le_refl _⟩ }
  packet p hp := by
    rw [hC.settled.inFlight_iff, hC.net] at hp
    exact absurd hp List.not_mem_nil
  effect t n x _ ht := by
    rw [hC.settled.traced_iff, hC.trace] at ht
    exact absurd ht List.not_mem_nil
  seen _ _ h := h.elim

/-- A run that a history goes with: it begins at the start, keeps within the limits of the formats,
and does what the mode and the quorums assume. -/
structure Charted (md : Mode) (Q : Quorums NodeId) (C : Cluster M) (es : List Event) : Prop where
  fresh : C.Fresh
  cfg : ∀ n ∈ C.members, ConfigOk md (C.node n).cfg
  sized : ∀ es', es' <+: es → (C.run es').Sized
  allows : ∀ es' e, es' ++ [e] <+: es → (C.run es').Allows md Q e

namespace Charted

variable {es es' : List Event}

theorem isPre (hc : C.Charted md Q es) (hpre : es' <+: es) : C.Charted md Q es' :=
  ⟨hc.fresh, hc.cfg, fun es'' h => hc.sized es'' (h.trans hpre),
    fun es'' e h => hc.allows es'' e (h.trans hpre)⟩

theorem settled (hc : C.Charted md Q es) (es' : List Event) : (C.run es').Settled :=
  settled_run hc.fresh.settled es'

theorem durable (hc : C.Charted md Q es) (hpre : es' <+: es) : (C.run es').Durable :=
  hc.fresh.durable.run hc.fresh.settled es' fun es'' h => hc.sized es'' (h.trans hpre)

end Charted

/-- A history goes on to the end of the run. -/
theorem replica_from {es es₁ : List Event} (hc : C.Charted md Q es) (hpre : es₁ <+: es)
    {w : CoherentHistory md Q} (h : (replicaInvariant M md Q).Holds w (C.run es₁)) :
    ∃ w', (replicaInvariant M md Q).le w w' ∧ (replicaInvariant M md Q).Holds w' (C.run es) := by
  refine Invariant.run_from hpre (fun es' e hpre' w hw => ?_) h
  have hle : es' <+: es := (List.prefix_append es' [e]).trans hpre'
  exact replica_exec (hc.settled es') (hc.durable hle) (hc.sized es' hle) (hc.allows es' e hpre') hw

/-- **Every run is a history.** -/
theorem replica_run {es : List Event} (hc : C.Charted md Q es) :
    ∃ w, (replicaInvariant M md Q).Holds w (C.run es) := by
  obtain ⟨w, -, hw⟩ := replica_from hc List.nil_prefix (hc.fresh.replica hc.cfg)
  exact ⟨w, hw⟩

end Cluster

end SimKV
