/-
# What a move keeps and what it emits

Two facts about every move, each by one case analysis, so that no invariant has to
make it again.  A node keeps its id and its configuration, runs until it crashes,
and takes back no effect (`Move.kept`).  And whatever a move adds to the effects,
beyond store calls, timers and state changes, is one of the kinds listed by
`Emitted`, with the facts about the node that hold when it is added
(`Move.emits`): an invariant about messages of one kind looks at the one or two
constructors of that kind.
-/
import SimKV.Raft.Handlers

namespace SimKV

variable {M : Medium}

namespace Node

/-! ## What reboot cannot change -/

/-- `s'` differs from `s` in what is loaded from the stores. -/
def Reloads (s s' : Node M) : Prop :=
  ∃ T v l kv i t d c a, s' = { s with
      currentTerm := T, votedFor := v, log := l, kv := kv, snapLastIndex := i, snapLastTerm := t
      snapData := d, commitIndex := c, lastApplied := a } ∧
    ((c = s.commitIndex ∧ a = s.lastApplied) ∨ c = a)

theorem Reloads.refl (s : Node M) : Reloads s s :=
  ⟨_, _, _, _, _, _, _, _, _, rfl, Or.inl ⟨rfl, rfl⟩⟩

theorem Reloads.trans {s s' s'' : Node M} (h : Reloads s s') (h' : Reloads s' s'') :
    Reloads s s'' := by
  obtain ⟨T, v, l, kv, i, t, d, c, a, rfl, hca⟩ := h
  obtain ⟨T', v', l', kv', i', t', d', c', a', rfl, hca'⟩ := h'
  refine ⟨T', v', l', kv', i', t', d', c', a', rfl, ?_⟩
  rcases hca' with ⟨rfl, rfl⟩ | hca'
  · exact hca
  · exact Or.inr hca'

theorem loadSnapshot_reloads (s : Node M) : Reloads s s.loadSnapshot.state := by
  unfold loadSnapshot
  split
  · exact Reloads.refl s
  · split
    · exact Reloads.refl s
    · simp only
      split
      · exact ⟨_, _, _, _, _, _, _, _, _, rfl, Or.inl ⟨rfl, rfl⟩⟩
      · exact ⟨_, _, _, _, _, _, _, _, _, rfl, Or.inr rfl⟩

theorem loadMeta_reloads (s : Node M) : Reloads s s.loadMeta.state := by
  unfold loadMeta
  split
  · split
    · exact Reloads.refl s
    · exact ⟨_, _, _, _, _, _, _, _, _, rfl, Or.inl ⟨rfl, rfl⟩⟩
  · exact Reloads.refl s

theorem loadLog_reloads (s : Node M) : Reloads s s.loadLog.state := by
  unfold loadLog
  split
  · split
    · exact Reloads.refl s
    · exact ⟨_, _, _, _, _, _, _, _, _, rfl, Or.inl ⟨rfl, rfl⟩⟩
  · exact Reloads.refl s

/-- However far `reboot` gets, it has only loaded, and the node is running. -/
theorem reboot_reloads (s : Node M) : Reloads { s with running := true } s.reboot.state := by
  unfold reboot
  have h₀ : Reloads { s with running := true } { s with
      currentTerm := 0, votedFor := none, log := .empty, kv := .empty, running := true } :=
    ⟨_, _, _, _, _, _, _, _, _, rfl, Or.inl ⟨rfl, rfl⟩⟩
  have h₁ := h₀.trans (loadSnapshot_reloads _)
  simp only
  cases hr₁ : loadSnapshot _ with
  | error e => rw [hr₁] at h₁; exact h₁
  | ok s₁ =>
    rw [hr₁] at h₁
    have h₂ := h₁.trans (loadMeta_reloads s₁)
    change Reloads _ (Res.state (s₁.loadMeta >>= loadLog))
    cases hr₂ : s₁.loadMeta with
    | error e => rw [hr₂] at h₂; exact h₂
    | ok s₂ =>
      rw [hr₂] at h₂
      exact h₂.trans (loadLog_reloads s₂)

theorem Reloads.of_boot {s s' : Node M} (h : s.reboot.state = s') :
    Reloads { s with running := true } s' := h ▸ s.reboot_reloads

theorem reboot_out (s : Node M) : s.reboot.state.out = s.out := by
  obtain ⟨T, v, l, kv, i, t, d, c, a, he, -⟩ := s.reboot_reloads
  rw [he]

theorem reboot_running (s : Node M) : s.reboot.state.running = true := by
  obtain ⟨T, v, l, kv, i, t, d, c, a, he, -⟩ := s.reboot_reloads
  rw [he]

theorem beginRead_frame (s : Node M) (key : Str) (ticket : Nat) : ∃ es, s.beginRead key ticket =
    { s with
      nextReadRound := s.nextReadRound + 1
      pendingReads := s.pendingReads ++ [⟨s.nextReadRound, s.commitIndex, key, ticket, 1⟩]
      out := s.out ++ es } := by
  refine ⟨.readBegun ticket s.commitIndex :: .timer (.scheduleRead s.nextReadRound) ::
    s.peers.map fun d => .send d (.readIndexRequest ⟨s.currentTerm, s.id, s.nextReadRound⟩), ?_⟩
  simp only [beginRead, emit, sendAll, List.append_assoc, List.cons_append, List.nil_append]

/-- The effects of an answered callback are the call and, for a remote client, the reply. -/
theorem invoke_out (s : Node M) (cb : Callback) (r : CmdResult) {e : Effect M}
    (he : e ∈ (s.invoke cb r).out) :
    e ∈ s.out ∨ e = .clientDone cb r ∨ ∃ d cr, e = .send d (.clientReply cr) := by
  unfold invoke at he
  cases ho : cb.origin with
  | none =>
    simp only [ho, emit, List.mem_append, List.mem_singleton] at he
    exact he.imp_right Or.inl
  | some p =>
    simp only [ho, send, emit, List.mem_append, List.mem_singleton] at he
    rcases he with (he | he) | he
    · exact Or.inl he
    · exact Or.inr (Or.inl he)
    · exact Or.inr (Or.inr ⟨_, _, he⟩)

theorem answer_out (s : Node M) (r : CmdResult) {e : Effect M} (he : e ∈ (s.answer r).out) :
    e ∈ s.out ∨ (∃ cb, s.pendingClients.find? s.lastApplied = some cb ∧ e = .clientDone cb r) ∨
      ∃ d cr, e = .send d (.clientReply cr) := by
  unfold answer at he
  split at he
  · exact Or.inl he
  · rename_i cb hcb
    rcases s.invoke_out cb r he with he | he | he
    · exact Or.inl he
    · exact Or.inr (Or.inl ⟨cb, hcb, he⟩)
    · exact Or.inr (Or.inr he)

theorem invokeAll_out (ps : List (Nat × Callback)) (r : CmdResult) (s : Node M) {e : Effect M}
    (he : e ∈ (ps.foldl (fun s p => s.invoke p.2 r) s).out) :
    e ∈ s.out ∨ (∃ p ∈ ps, e = .clientDone p.2 r) ∨ ∃ d cr, e = .send d (.clientReply cr) := by
  induction ps generalizing s with
  | nil => exact Or.inl he
  | cons p ps ih =>
    rcases ih (s.invoke p.2 r) he with he | ⟨q, hq, he⟩ | he
    · rcases s.invoke_out p.2 r he with he | he | he
      · exact Or.inl he
      · exact Or.inr (Or.inl ⟨p, List.mem_cons_self, he⟩)
      · exact Or.inr (Or.inr he)
    · exact Or.inr (Or.inl ⟨q, List.mem_cons_of_mem _ hq, he⟩)
    · exact Or.inr (Or.inr he)

theorem dropClients_out (s : Node M) {e : Effect M} (he : e ∈ s.dropClients.out) :
    e ∈ s.out ∨ e.quiet = true ∨
      (∃ i cb, s.pendingClients.find? i = some cb ∧ e = .clientDone cb nodeCrashed) ∨
      ∃ d cr, e = .send d (.clientReply cr) := by
  unfold dropClients at he
  simp only [List.mem_append, List.mem_map] at he
  rcases he with he | ⟨pr, -, rfl⟩
  · rcases invokeAll_out _ _ _ he with he | ⟨p, hp, he⟩ | he
    · exact Or.inl he
    · exact Or.inr (Or.inr (Or.inl ⟨p.1, p.2, OrdMap.find?_eq_some_iff.mpr hp, he⟩))
    · exact Or.inr (Or.inr (Or.inr he))
  · exact Or.inr (Or.inl rfl)

theorem drain_frame (s : Node M) : ∃ prs es, (∀ pr ∈ prs, pr ∈ s.pendingReads) ∧
    s.drainPendingReads = { s with pendingReads := prs, out := s.out ++ es } :=
  ⟨_, _, fun _ h => List.mem_of_mem_filter h, rfl⟩

/-- The effects of `drain_pending_reads`. -/
theorem drain_out (s : Node M) {e : Effect M} (he : e ∈ s.drainPendingReads.out) :
    e ∈ s.out ∨ e.quiet = true ∨ ∃ pr ∈ s.pendingReads, s.quorum ≤ pr.acks ∧
      pr.readIndex ≤ s.lastApplied ∧ e = .readDone pr.ticket true (s.kv.get pr.key) := by
  simp only [drainPendingReads, List.mem_append, List.mem_flatMap, List.mem_filter,
    List.mem_cons, List.not_mem_nil, or_false, decide_eq_true_eq] at he
  rcases he with he | ⟨pr, ⟨hpr, ha, hl⟩, rfl | rfl⟩
  · exact Or.inl he
  · exact Or.inr (Or.inl rfl)
  · exact Or.inr (Or.inr ⟨pr, hpr, ha, hl, rfl⟩)

end Node

/-! ## Identity, configuration, running -/

/-- What no move changes, and what it only adds to. -/
structure Kept (inp : Input M) (s s' : Node M) : Prop where
  id : s'.id = s.id
  cfg : s'.cfg = s.cfg
  running : inp ≠ .crash → s.running = true → s'.running = true
  out : ∀ e ∈ s.out, e ∈ s'.out

theorem Kept.refl (inp : Input M) (s : Node M) : Kept inp s s :=
  ⟨rfl, rfl, fun _ h => h, fun _ h => h⟩

theorem Kept.trans {inp : Input M} {s s' s'' : Node M} (h : Kept inp s s') (h' : Kept inp s' s'') :
    Kept inp s s'' :=
  ⟨h'.id.trans h.id, h'.cfg.trans h.cfg, fun hne hr => h'.running hne (h.running hne hr),
    fun e he => h'.out e (h.out e he)⟩

section Kept

variable {n₀ s s' : Node M} {t : Nat} {inp : Input M}

theorem Kept.of_append {es : List (Effect M)} (hid : s'.id = s.id) (hcfg : s'.cfg = s.cfg)
    (hrun : s'.running = s.running) (hout : s'.out = s.out ++ es) : Kept inp s s' :=
  ⟨hid, hcfg, fun _ h => hrun.trans h, fun e he => by rw [hout]; exact List.mem_append_left _ he⟩

theorem Kept.of_eq (hid : s'.id = s.id) (hcfg : s'.cfg = s.cfg) (hrun : s'.running = s.running)
    (hout : s'.out = s.out) : Kept inp s s' :=
  ⟨hid, hcfg, fun _ h => hrun.trans h, fun e he => by rw [hout]; exact he⟩

theorem Kept.of_reloads (h : Node.Reloads { s with running := true } s') : Kept inp s s' := by
  obtain ⟨T, v, l, kv, i, t, d, c, a, rfl, -⟩ := h
  exact ⟨rfl, rfl, fun _ _ => rfl, fun _ h => h⟩

/-- A node keeps its id and its configuration, runs until it crashes, and takes back no effect. -/
theorem Move.kept (h : Move n₀ t inp s s') : Kept inp s s' := by
  cases h with
  | sendSnapshot | replyVote | sendAppend | replyAppend | rejectStale | rejectConflict | applyKv
  | replySnapshot | replyRead | refuse | drain | quiet | newTerm | follow | grant | stand | win
  | snapshot | install | answer | readTimeout => exact .of_append rfl rfl rfl rfl
  | accept src ae es => exact .of_append rfl rfl rfl (List.append_assoc _ _ _)
  | place cmd cb cp es => exact .of_append rfl rfl rfl (List.append_assoc _ _ _)
  | beginRead key =>
    obtain ⟨es, hb⟩ := s.beginRead_frame key t
    exact .of_append rfl rfl rfl (congrArg Node.out hb)
  | readNow key =>
    exact ⟨rfl, rfl, fun _ h => h, fun e he => by simp [Node.readNow, Node.emit, he]⟩
  | crash kv hinp => exact ⟨rfl, rfl, fun h => absurd hinp h, fun e he => List.mem_append_left _ he⟩
  | crashFail err hinp => exact ⟨rfl, rfl, fun h => absurd hinp h, fun _ h => h⟩
  | boot _ hinp h₀ hrun hboot => exact .of_reloads (.of_boot hboot)
  | _ => exact .of_eq rfl rfl rfl rfl

theorem Moves.kept (h : Moves n₀ t inp s s') : Kept inp s s' := by
  induction h with
  | refl => exact Kept.refl inp s
  | tail _ hm ih => exact ih.trans hm.kept

end Kept

/-! ## Ids and peers -/

/-- A node has the id it was constructed with, and its peers are others. -/
structure Node.Basic (n : NodeId) (s : Node M) : Prop where
  id : s.id = n
  self : n ∉ s.peers

theorem Node.Basic.frame {n : NodeId} {s s' : Node M} (h : s.Basic n) (hid : s'.id = s.id)
    (hp : s'.peers = s.peers) : s'.Basic n := ⟨hid.trans h.id, by rw [hp]; exact h.self⟩

theorem Move.basic {n₀ s s' : Node M} {t : Nat} {inp : Input M} {n : NodeId}
    (h : Move n₀ t inp s s') (hs : s.Basic n) : s'.Basic n := by
  cases h with
  | joinPeer e kv newId happ he hnew hid hrole ps nx mx hj =>
    have hself : n ∉ (s.joinPeer newId).peers := fun hmem =>
      (s.mem_joinPeer.mp hmem).elim hs.self fun heq => hid (heq.symm.trans hs.id.symm)
    rw [hj] at hself
    exact ⟨hs.id, hself⟩
  | leavePeer e kv remId => exact ⟨hs.id, fun hmem => hs.self (List.mem_of_mem_filter hmem)⟩
  | boot _ hinp h₀ hrun hboot =>
    obtain ⟨T, v, l, kv, i, t, d, c, a, rfl, -⟩ := Node.Reloads.of_boot hboot
    exact hs.frame rfl rfl
  | _ => exact hs.frame rfl rfl

theorem Moves.basic {n₀ s s' : Node M} {t : Nat} {inp : Input M} {n : NodeId}
    (h : Moves n₀ t inp s s') (hs : s.Basic n) : s'.Basic n := by
  induction h with
  | refl => exact hs
  | tail _ hm ih => exact hm.basic ih

/-! ## What is emitted -/

/-- `s'` is `s` with the entries and the commit index of `ae` taken in. -/
structure Accepting (inp : Input M) (s s' : Node M) (ae : AppendEntries) : Prop where
  message : ∃ src, inp = .message src (.appendEntries ae)
  term : s.currentTerm = ae.term
  role : s.role = .follower
  prev : s.log.contains ae.prevLogIndex ae.prevLogTerm = true
  result : ∃ es, s' = ((({ s with
    log := Node.appendLoop ae.entries s.log
    commitIndex := if ae.leaderCommit > s.commitIndex then
      min ae.leaderCommit (Node.appendLoop ae.entries s.log).lastIndex else s.commitIndex
    }).persisted es).emit (.accepted ae))

/-- `s'` is `s` after it told `src` that it has the snapshot `is`. -/
structure Confirming (inp : Input M) (s s' : Node M) (src : NodeId)
    (is : InstallSnapshot M.Blob) : Prop where
  message : inp = .message src (.installSnapshot is)
  term : s.currentTerm = is.term
  le : is.lastIncludedIndex ≤ s.snapLastIndex
  result : s' = s.send src (.installSnapshotReply ⟨s.currentTerm, s.snapLastIndex⟩)

/-- The effect of a move from `s` to `s'` that is not quiet, with what is known at the time. -/
inductive Emitted (n₀ : Node M) (ticket : Nat) (inp : Input M) (s s' : Node M) : Effect M → Prop
  | requestVote (d : NodeId) (hd : d ∈ s'.peers) (hpeers : s'.peers = n₀.peers)
      (hrole : s'.role = .candidate) :
      Emitted n₀ ticket inp s s' (.send d (.requestVote
        ⟨s'.currentTerm, s'.id, s'.log.lastIndex, s'.log.lastTerm⟩))
  | requestVoteReply (src : NodeId) (rv : RequestVote) (granted : Bool)
      (hinp : inp = .message src (.requestVote rv))
      (hg : granted = true → rv.term = s'.currentTerm ∧ s'.votedFor = some rv.candidateId) :
      Emitted n₀ ticket inp s s' (.send src (.requestVoteReply ⟨s'.currentTerm, granted⟩))
  | installSnapshot (d : NodeId) (hbook : Booked n₀ s' inp d) (hrole : s'.role = .leader)
      (hsnap : s'.snapLastIndex ≠ 0) (hnext : s'.nextIndex.getD d 0 ≤ s'.snapLastIndex) :
      Emitted n₀ ticket inp s s' (.send d (.installSnapshot
        ⟨s'.currentTerm, s'.id, s'.snapLastIndex, s'.snapLastTerm, s'.snapData⟩))
  | appendEntries (d : NodeId) (next prevTerm : Nat) (hbook : Booked n₀ s' inp d)
      (hrole : s'.role = .leader)
      (hnext : s.nextIndex.getD d 0 = next) (hsnap : s'.snapLastIndex < next)
      (hprev : (next = 1 ∧ prevTerm = 0) ∨ (1 < next ∧ ∃ t, s'.log.termAt (next - 1) = some t ∧
        prevTerm = if s'.log.contains (next - 1) t then t else 0))
      (hs : s' = s.sendAppend d (next - 1) prevTerm) :
      Emitted n₀ ticket inp s s' (.send d (.appendEntries
        ⟨s'.currentTerm, s'.id, next - 1, prevTerm, s'.window (next - 1), s'.commitIndex⟩))
  | accepted (ae : AppendEntries) (h : Accepting inp s s' ae) :
      Emitted n₀ ticket inp s s' (.accepted ae)
  | acceptReply (src : NodeId) (ae : AppendEntries) (hinp : inp = .message src (.appendEntries ae))
      (hterm : s'.currentTerm = ae.term) (hacc : .accepted ae ∈ s.out) :
      Emitted n₀ ticket inp s s' (.send src (.appendEntriesReply ⟨s'.currentTerm, true, 0, 0⟩))
  | rejectStale (src : NodeId) (ae : AppendEntries) (hinp : inp = .message src (.appendEntries ae))
      (hterm : ae.term < s'.currentTerm) :
      Emitted n₀ ticket inp s s' (.send src (.appendEntriesReply ⟨s'.currentTerm, false, 0, 0⟩))
  | rejectConflict (src : NodeId) (ae : AppendEntries)
      (hinp : inp = .message src (.appendEntries ae)) (hterm : s'.currentTerm = ae.term)
      (h₀ : n₀.currentTerm ≤ s'.currentTerm)
      (hprev : s'.log.contains ae.prevLogIndex ae.prevLogTerm = false) (hlog : s'.log = n₀.log) :
      Emitted n₀ ticket inp s s' (.send src (.appendEntriesReply ⟨n₀.currentTerm, false,
        (Node.conflict s'.log ae.prevLogIndex).1, (Node.conflict s'.log ae.prevLogIndex).2⟩))
  | applied (e : LogEntry) (hlt : s.lastApplied < s.commitIndex)
      (he : s.log.entryAt (s.lastApplied + 1) = some e)
      (hs : s' = ({ s with lastApplied := s.lastApplied + 1 } : Node M).applyKv e) :
      Emitted n₀ ticket inp s s' (.applied (s.lastApplied + 1) e s.kv)
  | answered (cb : Callback) (e : LogEntry) (kv : KvStore) (happ : s.applying = some (e, kv))
      (hcb : s.pendingClients.find? s.lastApplied = some cb) :
      Emitted n₀ ticket inp s s' (.clientDone cb (kv.apply e.cmd).2)
  | dropped (cb : Callback) (i : Nat) (hinp : inp = .crash) (h₀ : s = n₀)
      (hcb : s.pendingClients.find? i = some cb) :
      Emitted n₀ ticket inp s s' (.clientDone cb Node.nodeCrashed)
  | clientReply (d : NodeId) (cr : ClientReply) :
      Emitted n₀ ticket inp s s' (.send d (.clientReply cr))
  | installSnapshotReply (src : NodeId) (is : InstallSnapshot M.Blob)
      (h : Confirming inp s s' src is) :
      Emitted n₀ ticket inp s s'
        (.send src (.installSnapshotReply ⟨s'.currentTerm, s'.snapLastIndex⟩))
  | readIndexReply (src : NodeId) (req : ReadIndexRequest)
      (hinp : inp = .message src (.readIndexRequest req)) (hterm : s'.currentTerm = req.term) :
      Emitted n₀ ticket inp s s' (.send src (.readIndexReply ⟨s'.currentTerm, req.round⟩))
  | readDone (pr : PendingRead) (hpr : pr ∈ s.pendingReads) (hacks : s.quorum ≤ pr.acks)
      (happ : pr.readIndex ≤ s.lastApplied) :
      Emitted n₀ ticket inp s s' (.readDone pr.ticket true (s.kv.get pr.key))
  | readNow (key : Str) (hinp : inp = .readIndex key) (h₀ : s = n₀) (hrole : s.role = .leader)
      (hpeers : s.peers = []) : Emitted n₀ ticket inp s s' (.readDone ticket true (s.kv.get key))
  | readBegun (key : Str) (hinp : inp = .readIndex key) (h₀ : s = n₀) (hrole : s.role = .leader) :
      Emitted n₀ ticket inp s s' (.readBegun ticket s.commitIndex)
  | readIndexRequest (d : NodeId) (key : Str) (hd : d ∈ s.peers) (hinp : inp = .readIndex key)
      (h₀ : s = n₀) (hrole : s.role = .leader) (hs : s' = s.beginRead key ticket) :
      Emitted n₀ ticket inp s s'
        (.send d (.readIndexRequest ⟨s.currentTerm, s.id, s.nextReadRound⟩))
  | placed (cmd : Command) (cb : Callback) (h₀ : s = n₀) (hinp : Asks ticket cmd cb inp)
      (hrole : s.role = .leader) :
      Emitted n₀ ticket inp s s' (.placed cb ⟨s.currentTerm, s.log.lastIndex + 1, cmd⟩)

section Emits

variable {n₀ s s' : Node M} {t : Nat} {inp : Input M} {e : Effect M}

/-- **What a move adds to the effects.** -/
theorem Move.emits (h : Move n₀ t inp s s') (he : e ∈ s'.out) :
    e ∈ s.out ∨ e.quiet = true ∨ Emitted n₀ t inp s s' e := by
  have quietly : ∀ {es : List (Effect M)}, Quiet es → e ∈ s.out ++ es →
      e ∈ s.out ∨ e.quiet = true ∨ Emitted n₀ t inp s s' e := by
    intro es hq he
    exact (List.mem_append.mp he).imp_right fun h => Or.inl (hq e h)
  have one : ∀ {es : List (Effect M)} {x : Effect M}, Quiet es →
      Emitted n₀ t inp s s' x → e ∈ (s.out ++ es) ++ [x] →
      e ∈ s.out ∨ e.quiet = true ∨ Emitted n₀ t inp s s' e := by
    intro es x hq hx he
    rcases List.mem_append.mp he with he | he
    · exact quietly hq he
    · rw [List.mem_singleton.mp he]
      exact Or.inr (Or.inr hx)
  have just : ∀ {x : Effect M}, Emitted n₀ t inp s s' x → e ∈ s.out ++ [x] →
      e ∈ s.out ∨ e.quiet = true ∨ Emitted n₀ t inp s s' e := by
    intro x hx he
    exact one Quiet.nil hx (by simpa using he)
  cases h with
  | quiet tm es hq => exact quietly hq he
  | newTerm T l tm es hq => exact quietly hq he
  | follow l tm prs es hq => exact quietly hq he
  | grant src rv tm es hq => exact quietly hq he
  | replyVote src rv granted hinp hg => exact just (.requestVoteReply src rv granted hinp hg) he
  | stand tm es es' hq hq' hrun hrole hpeers =>
    rcases List.mem_append.mp he with he | he
    · exact Or.inl he
    rcases List.mem_append.mp he with he | he
    · rcases List.mem_append.mp he with he | he
      · exact Or.inr (Or.inl (hq e he))
      · obtain ⟨d, hd, rfl⟩ := List.mem_map.mp he
        exact Or.inr (Or.inr (.requestVote d hd hpeers rfl))
    · exact Or.inr (Or.inl (hq' e he))
  | win tm es hq => exact quietly hq he
  | sendSnapshot peer hbook hrole hsnap hnext =>
    exact just (.installSnapshot peer hbook hrole hsnap hnext) he
  | sendAppend peer next prevTerm hbook hrole hnext hsnap hprev =>
    exact just (.appendEntries peer next prevTerm hbook hrole hnext hsnap hprev rfl) he
  | accept src ae es hq hinp hterm hrole hprev =>
    exact one hq (.accepted ae ⟨⟨src, hinp⟩, hterm, hrole, hprev, es, rfl⟩) he
  | replyAppend src ae hinp hterm hacc => exact just (.acceptReply src ae hinp hterm hacc) he
  | rejectStale src ae hinp hterm => exact just (.rejectStale src ae hinp hterm) he
  | rejectConflict src ae hinp hterm hrole h₀ hprev hlog =>
    exact just (.rejectConflict src ae hinp hterm h₀ hprev hlog) he
  | applyKv e' hlt hnone he' => exact just (.applied e' hlt he' rfl) he
  | answer e' kv happ hdone hpend pc es ha =>
    rcases s.answer_out _ (by rw [ha]; exact he) with he | ⟨cb, hcb, rfl⟩ | ⟨d, cr, rfl⟩
    · exact Or.inl he
    · exact Or.inr (Or.inr (.answered cb e' kv happ hcb))
    · exact Or.inr (Or.inr (.clientReply d cr))
  | drain =>
    rcases s.drain_out he with he | he | ⟨pr, hpr, ha, hl, rfl⟩
    · exact Or.inl he
    · exact Or.inr (Or.inl he)
    · exact Or.inr (Or.inr (.readDone pr hpr ha hl))
  | snapshot k es hq => exact quietly hq he
  | install src is kv es hq => exact quietly hq he
  | replySnapshot src is hinp hterm hle =>
    exact just (.installSnapshotReply src is ⟨hinp, hterm, hle, rfl⟩) he
  | replyRead src req hinp hterm => exact just (.readIndexReply src req hinp hterm) he
  | refuse src cr hinp hrole => exact just (.clientReply src _) he
  | place cmd cb cp es hq h₀ hinp hrun hrole =>
    exact one hq (.placed cmd cb h₀ hinp hrole) he
  | beginRead key hinp h₀ hrun hrole =>
    simp only [Node.beginRead, Node.emit, Node.sendAll, List.mem_append, List.mem_singleton,
      List.mem_map] at he
    rcases he with ((he | rfl) | rfl) | ⟨d, hd, rfl⟩
    · exact Or.inl he
    · exact Or.inr (Or.inr (.readBegun key hinp h₀ hrole))
    · exact Or.inr (Or.inl rfl)
    · exact Or.inr (Or.inr (.readIndexRequest d key hd hinp h₀ hrole rfl))
  | readNow key hinp h₀ hrun hrole hpeers =>
    simp only [Node.readNow, Node.emit, List.mem_append, List.mem_singleton] at he
    rcases he with (he | rfl) | rfl
    · exact Or.inl he
    · exact Or.inr (Or.inr (.readBegun key hinp h₀ hrole))
    · exact Or.inr (Or.inr (.readNow key hinp h₀ hrole hpeers))
  | readTimeout round prs es hq => exact quietly hq he
  | crash kv hinp h₀ hkv es hd =>
    rcases Node.dropClients_out { s.stop with kv := kv } (by rw [hd]; exact he) with
      he | he | ⟨i, cb, hcb, rfl⟩ | ⟨d, cr, rfl⟩
    · exact Or.inl he
    · exact Or.inr (Or.inl he)
    · exact Or.inr (Or.inr (.dropped cb i hinp h₀ hcb))
    · exact Or.inr (Or.inr (.clientReply d cr))
  | boot _ hinp h₀ hrun hboot =>
    have hf := s.reboot_out
    rw [hboot] at hf
    exact Or.inl (hf ▸ he)
  | _ => exact Or.inl he

end Emits

/-- A loud effect of a step is emitted by one of its moves. -/
theorem Moves.emits {n₀ s : Node M} {t : Nat} {inp : Input M} {e : Effect M}
    (h : Moves n₀ t inp n₀ s) (h₀ : n₀.out = []) (hq : e.quiet = false) (he : e ∈ s.out) :
    ∃ s₁ s₂, Moves n₀ t inp n₀ s₁ ∧ Move n₀ t inp s₁ s₂ ∧ Emitted n₀ t inp s₁ s₂ e ∧
      Moves n₀ t inp s₂ s := by
  induction h with
  | refl => rw [h₀] at he; exact absurd he List.not_mem_nil
  | tail hs hm ih =>
    rcases hm.emits he with hold | hquiet | hnew
    · obtain ⟨s₁, s₂, h₁, h₂, hem, hrest⟩ := ih hold
      exact ⟨s₁, s₂, h₁, h₂, hem, hrest.tail hm⟩
    · rw [hq] at hquiet
      exact nomatch hquiet
    · exact ⟨_, _, hs, hm, hnew, .refl⟩

end SimKV
