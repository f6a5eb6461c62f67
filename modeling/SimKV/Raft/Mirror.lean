/-
# The stores mirror the memory

At every point between moves the three stores hold exactly the encodings of the
node's persistent state (`Mirror`): every change of term, vote, log or snapshot is
followed by the rewrite of the store before anything else can happen.  So a
restart finds what the crash left (`Mirror.reboot_eq`), and the moves that model a
failed recovery or a snapshot that does not decode never happen
(`Sized` is the proviso: the records are within the widths of their formats).

The identity and the configuration of a node never change (`Move.kept`), and a node
that is down stays as `crash` left it until it is restarted (`Node.handle_down`).
-/
import SimKV.Runs
import SimKV.Raft.Effects

namespace SimKV

variable {M : Medium}

/-! ## The mirror -/

/-- The stores hold the encodings of the persistent state; a store that was never
written goes with the state a node is constructed in. -/
structure Mirror (s : Node M) : Prop where
  metaRec : (s.metaStore = .empty ∧ s.currentTerm = 0 ∧ s.votedFor = none) ∨
    s.metaStore = .holding (M.encodeMeta ⟨s.currentTerm, s.votedFor⟩)
  logRec : (s.logStore = .empty ∧ s.log = .empty) ∨ s.logStore = .holding (M.encodeLog s.log)
  snapRec : (s.snapshotStore = .empty ∧ s.snapLastIndex = 0 ∧ s.snapLastTerm = 0 ∧
      s.snapData = M.noBlob) ∨
    (s.snapshotStore = .holding (M.encodeSnap ⟨s.snapLastIndex, s.snapLastTerm, s.snapData⟩) ∧
      s.logStore = .holding (M.encodeLog s.log) ∧ ∃ kv, s.snapData = M.encodeKv kv)

/-- The node's records are within the widths of their formats. -/
structure NodeSized (s : Node M) : Prop where
  metaRec : M.GoodMeta ⟨s.currentTerm, s.votedFor⟩
  logRec : M.GoodLog s.log
  snapRec : M.GoodSnap ⟨s.snapLastIndex, s.snapLastTerm, s.snapData⟩
  blob : M.GoodBlob s.snapData

/-- The message carries snapshot data that a node encoded. -/
def SnapMsgOk (m : Msg M.Blob) : Prop :=
  ∀ is, m = .installSnapshot is → ∃ kv, is.data = M.encodeKv kv

namespace Mirror

variable {s : Node M}

theorem of_init (n : NodeId) (peers : List NodeId) (cfg : RaftConfig) (run : Bool) (tm : Timers) :
    Mirror ({ Node.init M n peers cfg with running := run, timers := tm } : Node M) :=
  ⟨Or.inl ⟨rfl, rfl, rfl⟩, Or.inl ⟨rfl, rfl⟩, Or.inl ⟨rfl, rfl, rfl, rfl⟩⟩

theorem holding_size {bs : List M.Cell} (h : bs ≠ []) :
    (DurableStore.holding bs).durableSize ≠ 0 := by
  rw [DurableStore.durableSize_holding]
  exact fun h0 => h (List.length_eq_zero_iff.mp h0)

theorem loadMeta_eq (h : Mirror s) (hsz : NodeSized s) {s₁ : Node M}
    (hst : s₁.metaStore = s.metaStore) (ht : s₁.currentTerm = 0) (hv : s₁.votedFor = none) :
    s₁.loadMeta = .ok { s₁ with currentTerm := s.currentTerm, votedFor := s.votedFor } := by
  unfold Node.loadMeta
  rcases h.metaRec with ⟨he, h1, h2⟩ | he
  · rw [if_neg (by rw [hst, he]; exact Nat.lt_irrefl 0), h1, h2, ← ht, ← hv]
  · have hread : M.decodeMeta s₁.metaStore.readDurable = .ok ⟨s.currentTerm, s.votedFor⟩ := by
      rw [hst, he, DurableStore.readDurable_holding, hsz.metaRec.2]
    rw [if_pos (by rw [hst, he]; exact Nat.pos_of_ne_zero (holding_size hsz.metaRec.1)), hread]
    simp only [hv]
    cases s.votedFor <;> rfl

theorem loadLog_eq (h : Mirror s) (hsz : NodeSized s) {s₁ : Node M}
    (hst : s₁.logStore = s.logStore) (hl : s.logStore = .empty → s₁.log = .empty) :
    s₁.loadLog = .ok { s₁ with log := s.log } := by
  unfold Node.loadLog
  rcases h.logRec with ⟨he, h1⟩ | he
  · rw [if_neg (by rw [hst, he]; exact Nat.lt_irrefl 0), h1, ← hl he]
  · have hread : M.decodeLog s₁.logStore.readDurable = .ok s.log := by
      rw [hst, he, DurableStore.readDurable_holding, hsz.logRec.2]
    rw [if_pos (by rw [hst, he]; exact Nat.pos_of_ne_zero (holding_size hsz.logRec.1)), hread]

/-- The records of the meta and the log store over a loaded snapshot. -/
theorem load_eq (h : Mirror s) (hsz : NodeSized s) {s₁ : Node M}
    (hm : s₁.metaStore = s.metaStore) (ht : s₁.currentTerm = 0) (hv : s₁.votedFor = none)
    (hst : s₁.logStore = s.logStore) (hl : s.logStore = .empty → s₁.log = .empty) :
    s₁.loadMeta >>= Node.loadLog = .ok { s₁ with
      currentTerm := s.currentTerm, votedFor := s.votedFor, log := s.log } := by
  rw [h.loadMeta_eq hsz hm ht hv]
  exact h.loadLog_eq hsz hst hl

/-- The snapshot store holds nothing, or its record and the store in it can be read.  A node with a
snapshot has written its log. -/
theorem snap_cases (h : Mirror s) (hsz : NodeSized s) :
    (s.snapshotStore.durableSize = 0 ∧ s.snapLastIndex = 0 ∧ s.snapLastTerm = 0 ∧
      s.snapData = M.noBlob) ∨
    (s.snapshotStore.durableSize ≠ 0 ∧ M.decodeSnap s.snapshotStore.readDurable =
      .ok ⟨s.snapLastIndex, s.snapLastTerm, s.snapData⟩ ∧ s.logStore ≠ .empty ∧
      ∃ kv, s.snapData = M.encodeKv kv ∧ M.decodeKv s.snapData = .ok kv) := by
  rcases h.snapRec with ⟨he, hrest⟩ | ⟨he, hl, kv, hkv⟩
  · exact Or.inl ⟨by rw [he]; rfl, hrest⟩
  · refine Or.inr ⟨?_, ?_, ?_, kv, hkv, ?_⟩
    · rw [he]
      exact holding_size hsz.snapRec.1
    · rw [he, DurableStore.readDurable_holding, hsz.snapRec.2]
    · rw [hl]
      exact fun hem => holding_size hsz.logRec.1 (congrArg DurableStore.durableSize hem)
    · rw [hkv]
      exact (hsz.blob kv hkv).2

/-- **What a restart finds**: the persistent state as it was, the commit index at the
snapshot, and the store the snapshot encodes. -/
theorem reboot_eq (h : Mirror s) (hsz : NodeSized s) (hc : s.commitIndex = s.snapLastIndex)
    (ha : s.lastApplied = s.snapLastIndex) :
    ∃ kv, s.reboot = .ok { s with running := true, kv := kv } ∧
      ((s.snapData = M.noBlob ∧ s.snapLastIndex = 0 ∧ kv = .empty) ∨
        s.snapData = M.encodeKv kv) := by
  unfold Node.reboot Node.loadSnapshot
  simp only
  rcases h.snap_cases hsz with ⟨he, h1, h2, h3⟩ | ⟨he, hread, hlog, kv, hkv, hdec⟩
  · refine ⟨.empty, ?_, Or.inl ⟨h3, h1, rfl⟩⟩
    rw [if_pos he]
    refine (h.load_eq hsz ?_ ?_ ?_ ?_ fun _ => ?_).trans ?_ <;> rfl
  · refine ⟨kv, ?_, Or.inr hkv⟩
    rw [if_neg he, hread]
    simp only [hdec]
    rw [hc, ha]
    refine (h.load_eq hsz ?_ ?_ ?_ ?_ fun hem => absurd hem hlog).trans ?_ <;> rfl

/-- `persist` makes the first two records whatever they should be; the third is as before, since
the log store is written too. -/
theorem of_persisted {s s' : Node M} {es : List (Effect M)} (h : Mirror s)
    (hst : s'.snapshotStore = s.snapshotStore) (hi : s'.snapLastIndex = s.snapLastIndex)
    (ht : s'.snapLastTerm = s.snapLastTerm) (hd : s'.snapData = s.snapData) :
    Mirror (s'.persisted es) := by
  refine ⟨Or.inr rfl, Or.inr rfl, ?_⟩
  change (s'.snapshotStore = _ ∧ s'.snapLastIndex = 0 ∧ s'.snapLastTerm = 0 ∧ s'.snapData = _) ∨
    (s'.snapshotStore = .holding (M.encodeSnap ⟨s'.snapLastIndex, s'.snapLastTerm, s'.snapData⟩) ∧
      _ ∧ ∃ kv, s'.snapData = _)
  rw [hst, hi, ht, hd]
  rcases h.snapRec with h | ⟨h1, -, h3⟩
  · exact Or.inl h
  · exact Or.inr ⟨h1, rfl, h3⟩

/-- Nothing durable has changed. -/
theorem of_eq {s s' : Node M} (h : Mirror s) (hm : s'.metaStore = s.metaStore)
    (hl : s'.logStore = s.logStore) (hs : s'.snapshotStore = s.snapshotStore)
    (ht : s'.currentTerm = s.currentTerm) (hv : s'.votedFor = s.votedFor) (hlog : s'.log = s.log)
    (hi : s'.snapLastIndex = s.snapLastIndex) (hst : s'.snapLastTerm = s.snapLastTerm)
    (hd : s'.snapData = s.snapData) : Mirror s' := by
  refine ⟨?_, ?_, ?_⟩
  · rw [hm, ht, hv]; exact h.metaRec
  · rw [hl, hlog]; exact h.logRec
  · rw [hl, hs, hlog, hi, hst, hd]; exact h.snapRec

theorem emit (h : Mirror s) (e : Effect M) : Mirror (s.emit e) :=
  h.of_eq rfl rfl rfl rfl rfl rfl rfl rfl rfl

/-- What mirrors the memory is flushed. -/
theorem flushed (h : Mirror s) : s.metaStore.crash = s.metaStore ∧
    s.logStore.crash = s.logStore ∧ s.snapshotStore.crash = s.snapshotStore := by
  refine ⟨?_, ?_, ?_⟩
  · rcases h.metaRec with ⟨he, -⟩ | he <;> rw [he] <;> simp
  · rcases h.logRec with ⟨he, -⟩ | he <;> rw [he] <;> simp
  · rcases h.snapRec with ⟨he, -⟩ | ⟨he, -⟩ <;> rw [he] <;> simp

/-- A crash loses nothing. -/
theorem stop (h : Mirror s) : Mirror s.stop := by
  obtain ⟨hm, hl, hs⟩ := h.flushed
  exact h.of_eq hm hl hs rfl rfl rfl rfl rfl rfl

end Mirror

/-! ## Nodes that are down -/

/-- A node that is down is where `crash` left it. -/
def Down (s : Node M) : Prop :=
  s.running = false → s.commitIndex = s.snapLastIndex ∧ s.lastApplied = s.snapLastIndex

namespace Node

/-- A node that is down changes only its timers and reads until it is restarted. -/
theorem handle_down (s : Node M) (t : Nat) {inp : Input M} (h : s.running = false)
    (hne : inp ≠ .restart) : ∃ tm prs es, s.handle t inp =
      { s with timers := tm, pendingReads := prs, out := s.out ++ es } := by
  have stay : ∃ tm prs es, s = { s with timers := tm, pendingReads := prs, out := s.out ++ es } :=
    ⟨s.timers, s.pendingReads, [], by simp⟩
  cases inp with
  | message src m => simpa only [handle, onMessage, h, Bool.not_false, if_true] using stay
  | electionTimer gen =>
    rw [handle, electionTimer]
    split
    · exact stay
    · simp only
      rw [if_pos (by simp [h])]
      exact ⟨_, s.pendingReads, [], by rw [List.append_nil]; rfl⟩
  | heartbeatTimer =>
    rw [handle, heartbeatTimer]
    simp only
    rw [if_pos (by simp [h])]
    exact ⟨_, s.pendingReads, [], by rw [List.append_nil]; rfl⟩
  | readTimer round =>
    obtain ⟨prs, es, -, -, hr⟩ := s.readTimeout_frame round
    exact ⟨s.timers, prs, es, hr⟩
  | submit cid rid cmd =>
    have hs : s.submit cid rid cmd ⟨t, none⟩ = .ok (false, s) := by
      unfold submit
      rw [if_pos (by simp [h])]
      rfl
    rw [handle, hs]
    exact stay
  | readIndex key => simpa only [handle, readIndex, h, Bool.not_false, true_or, if_true] using stay
  | crash => simpa only [handle, h, Bool.false_eq_true, if_false] using stay
  | restart => exact absurd rfl hne

theorem handle_crash (s : Node M) (t : Nat) : Down (s.handle t .crash) ∨ s.running = false := by
  cases hrun : s.running with
  | false => exact Or.inr rfl
  | true =>
    left
    have hstop : Down s.stop := fun _ => ⟨rfl, rfl⟩
    have hdrop : ∀ kv, Down ({ s.stop with kv := kv } : Node M).dropClients := by
      intro kv
      obtain ⟨es, he⟩ := ({ s.stop with kv := kv } : Node M).dropClients_frame
      rw [he]
      exact fun _ => ⟨rfl, rfl⟩
    rw [handle, if_pos hrun, crash]
    split
    · exact hdrop _
    · split
      · exact hstop
      · exact hdrop _

/-- A node that is restarted runs, however far the restart gets. -/
theorem handle_restart (s : Node M) (t : Nat) (hi : s.Rested) :
    (s.handle t .restart).running = true := by
  rw [handle]
  split
  · assumption
  · rename_i hrun
    rw [restart_eq]
    have hf := s.reboot_running
    have hidle := s.reboot_rested hi
    cases hr : s.reboot with
    | error e => rw [hr] at hf; exact hf
    | ok s₁ =>
      rw [hr] at hf hidle
      have hp : Plan s t .restart s₁ _ := (applyCommittedEntries_plan s₁ hidle.1
        (Or.inr hidle.2)).1
      have hk := (Moves.kept hp.moves).running (by simp) hf
      change (Res.state (s₁.applyCommittedEntries >>= fun s =>
        pure s.scheduleElectionTimeout)).running = true
      cases hr' : s₁.applyCommittedEntries with
      | error e => rw [hr'] at hk; exact hk
      | ok s₂ =>
        rw [hr'] at hk
        obtain ⟨tm, es, -, -, he⟩ := quietStep_scheduleElection s₂
        change s₂.scheduleElectionTimeout.running = true
        rw [he]
        exact hk

/-- With nothing to apply and nothing past the snapshot, only waiting reads are looked at. -/
theorem applyCommittedEntries_idle (s : Node M) (hc : s.commitIndex = s.lastApplied)
    (hs : s.lastApplied ≤ s.snapLastIndex) :
    s.applyCommittedEntries = .ok s.drainPendingReads := by
  rw [applyCommittedEntries, hc, Nat.sub_self]
  change s.afterApply = _
  unfold afterApply takeSnapshot
  simp only
  split
  · exact if_pos hs
  · rfl

theorem handle_downOk (s : Node M) (t : Nat) (inp : Input M) (hi : s.Rested)
    (h : Down s) : Down (s.handle t inp) := by
  cases hrun : s.running with
  | true =>
    by_cases hc : inp = .crash
    · subst hc
      exact (s.handle_crash t).resolve_right (by simp [hrun])
    · intro hr
      have := (Moves.kept (s.handle_moves t inp hi).1).running hc hrun
      rw [hr] at this
      exact absurd this (by decide)
  | false =>
    by_cases hc : inp = .restart
    · subst hc
      intro hr
      rw [s.handle_restart t hi] at hr
      exact absurd hr (by decide)
    · obtain ⟨tm, prs, es, he⟩ := s.handle_down t hrun hc
      rw [he]
      exact fun _ => h hrun

end Node

/-! ## Moves keep the mirror -/

/-- What the mirror needs of the state and the input a step begins with. -/
structure Recoverable (n₀ : Node M) (inp : Input M) : Prop where
  sized : NodeSized n₀
  down : Down n₀
  mirror : Mirror n₀
  data : ∀ src is, inp = .message src (.installSnapshot is) →
    (∃ kv, is.data = M.encodeKv kv) ∧ M.GoodBlob is.data

namespace Recoverable

variable {n₀ s s' : Node M} {t : Nat} {inp : Input M}

/-- The snapshot data of a message decodes to the store it was encoded from. -/
theorem decode (h : Recoverable n₀ inp) {src : NodeId} {is : InstallSnapshot M.Blob}
    (hinp : inp = .message src (.installSnapshot is)) :
    ∃ kv, is.data = M.encodeKv kv ∧ M.decodeKv is.data = .ok kv := by
  obtain ⟨⟨kv, hkv⟩, hg⟩ := h.data src is hinp
  exact ⟨kv, hkv, by rw [hkv]; exact (hg kv hkv).2⟩

/-- The snapshot data of the node itself does, too. -/
theorem decode_own (h : Recoverable n₀ inp) (hne : M.blobEmpty n₀.snapData = false) :
    ∃ kv, n₀.snapData = M.encodeKv kv ∧ M.decodeKv n₀.snapData = .ok kv := by
  rcases h.mirror.snapRec with ⟨-, -, -, h3⟩ | ⟨-, -, kv, hkv⟩
  · rw [h3, M.blobEmpty_noBlob] at hne
    exact absurd hne (by decide)
  · exact ⟨kv, hkv, by rw [hkv]; exact (h.sized.blob kv hkv).2⟩

/-- A restart succeeds, and finds the persistent state as it was. -/
theorem reboot (h : Recoverable n₀ inp) (hrun : n₀.running = false) :
    ∃ kv, n₀.reboot = .ok { n₀ with running := true, kv := kv } ∧
      ((n₀.snapData = M.noBlob ∧ n₀.snapLastIndex = 0 ∧ kv = .empty) ∨
        n₀.snapData = M.encodeKv kv) :=
  h.mirror.reboot_eq h.sized (h.down hrun).1 (h.down hrun).2

theorem booted (h : Recoverable n₀ inp) (h₀ : s = n₀) (hrun : s.running = false)
    (hboot : s.reboot.state = s') : ∃ kv, s' = { s with running := true, kv := kv } ∧
      ((n₀.snapData = M.noBlob ∧ n₀.snapLastIndex = 0 ∧ kv = .empty) ∨
        n₀.snapData = M.encodeKv kv) := by
  subst h₀
  obtain ⟨kv, hr, hkv⟩ := h.reboot hrun
  rw [hr] at hboot
  exact ⟨kv, hboot.symm, hkv⟩

theorem not_adopt (h : Recoverable n₀ inp) {src : NodeId} {is : InstallSnapshot M.Blob}
    {err : String} (hinp : inp = .message src (.installSnapshot is))
    (hdec : M.decodeKv is.data = .error err) : False := by
  obtain ⟨kv, -, hok⟩ := h.decode hinp
  exact nomatch hok.symm.trans hdec

theorem not_crashFail (h : Recoverable n₀ inp) (h₀ : s = n₀)
    (hne : M.blobEmpty s.snapData = false) {err : String}
    (hdec : M.decodeKv s.snapData = .error err) : False := by
  subst h₀
  obtain ⟨kv, -, hok⟩ := h.decode_own hne
  exact nomatch hok.symm.trans hdec

/-- What a crash leaves: the volatile state forgotten, the clients answered. -/
theorem crash (h : Recoverable n₀ inp) (hrun : n₀.running = true) (t : Nat) :
    ∃ kv es, n₀.handle t .crash = { n₀.stop with
      kv := kv, pendingClients := .empty, pendingReads := [], out := n₀.out ++ es } := by
  have hdrop : ∀ kv, ∃ es, ({ n₀.stop with kv := kv } : Node M).dropClients = { n₀.stop with
      kv := kv, pendingClients := .empty, pendingReads := [], out := n₀.out ++ es } :=
    fun kv => ({ n₀.stop with kv := kv } : Node M).dropClients_frame
  rw [Node.handle, if_pos hrun, Node.crash]
  cases hb : M.blobEmpty n₀.stop.snapData with
  | true => exact ⟨.empty, hdrop .empty⟩
  | false =>
    obtain ⟨kv, -, hkv⟩ := h.decode_own hb
    have hdec : M.decodeKv n₀.stop.snapData = .ok kv := hkv
    refine ⟨kv, ?_⟩
    simp only [hdec]
    exact hdrop kv

/-- What a restart leaves: the persistent state as it was, and nothing to apply. -/
theorem restart (h : Recoverable n₀ inp) (hrun : n₀.running = false) (t : Nat) :
    ∃ kv tm prs es, n₀.handle t .restart = { n₀ with
        running := true, kv := kv, timers := tm, pendingReads := prs, out := n₀.out ++ es } ∧
      ((n₀.snapData = M.noBlob ∧ n₀.snapLastIndex = 0 ∧ kv = .empty) ∨
        n₀.snapData = M.encodeKv kv) := by
  obtain ⟨kv, hr, hkv⟩ := h.reboot hrun
  obtain ⟨hc, ha⟩ := h.down hrun
  rw [Node.handle, if_neg (by simp [hrun]), Node.restart_eq, hr]
  have hidle : ({ n₀ with running := true, kv := kv } : Node M).applyCommittedEntries = .ok
      ({ n₀ with running := true, kv := kv } : Node M).drainPendingReads :=
    Node.applyCommittedEntries_idle _ (by rw [hc, ha]) (Nat.le_of_eq ha)
  obtain ⟨prs, es, -, hd⟩ := ({ n₀ with running := true, kv := kv } : Node M).drain_frame
  rw [hd] at hidle
  obtain ⟨tm, es', -, -, he⟩ := Node.quietStep_scheduleElection
    ({ n₀ with running := true, kv := kv, pendingReads := prs, out := n₀.out ++ es } : Node M)
  refine ⟨kv, tm, prs, es ++ es', ?_, hkv⟩
  change Res.state (Node.applyCommittedEntries _ >>= fun s => pure s.scheduleElectionTimeout) = _
  rw [hidle]
  change Node.scheduleElectionTimeout _ = _
  rw [he, ← List.append_assoc]

end Recoverable

/-- **A move keeps the mirror.** -/
theorem Move.mirror {n₀ s s' : Node M} {t : Nat} {inp : Input M} (h : Move n₀ t inp s s')
    (hr : Recoverable n₀ inp) (hm : Mirror s) : Mirror s' := by
  cases h with
  | newTerm | grant | stand => exact hm.of_persisted rfl rfl rfl rfl
  | accept src ae es =>
    refine Mirror.emit ?_ _
    exact hm.of_persisted rfl rfl rfl rfl
  | place cmd cb cfgPending es =>
    refine Mirror.emit ?_ _
    exact hm.of_persisted rfl rfl rfl rfl
  | snapshot => exact ⟨Or.inr rfl, Or.inr rfl, Or.inr ⟨rfl, rfl, _, rfl⟩⟩
  | adopt src is err hinp hlt hdec => exact (hr.not_adopt hinp hdec).elim
  | install src is kv es hq hinp hterm hrole hlt hdec =>
    obtain ⟨kv', hkv, -⟩ := hr.decode hinp
    exact ⟨Or.inr rfl, Or.inr rfl, Or.inr ⟨rfl, rfl, kv', hkv⟩⟩
  | crash kv hinp => exact hm.stop.of_eq rfl rfl rfl rfl rfl rfl rfl rfl rfl
  | crashFail => exact hm.stop
  | boot _ hinp h₀ hrun hboot =>
    obtain ⟨kv, rfl, -⟩ := hr.booted h₀ hrun hboot
    exact hm.of_eq rfl rfl rfl rfl rfl rfl rfl rfl rfl
  | _ => exact hm.of_eq rfl rfl rfl rfl rfl rfl rfl rfl rfl

theorem Moves.mirror {n₀ s s' : Node M} {t : Nat} {inp : Input M} (h : Moves n₀ t inp s s')
    (hr : Recoverable n₀ inp) (hm : Mirror s) : Mirror s' := by
  induction h with
  | refl => exact hm
  | tail _ hstep ih => exact hstep.mirror hr ih

/-! ## Runs -/

namespace Cluster

variable {C : Cluster M}

/-- Every record and every snapshot in flight is within the widths of its format. -/
structure Sized (C : Cluster M) : Prop where
  node : ∀ n ∈ C.members, NodeSized (C.node n)
  data : ∀ p ∈ C.net, ∀ is, p.msg = .installSnapshot is → M.GoodBlob is.data

/-- Between steps: the stores mirror the memory of every node, nodes that are down are where
`crash` left them, and snapshots in flight were encoded by a node. -/
structure Durable (C : Cluster M) : Prop where
  mirror : ∀ n ∈ C.members, Mirror (C.node n)
  down : ∀ n ∈ C.members, Down (C.node n)
  data : ∀ p ∈ C.net, SnapMsgOk p.msg

theorem Fresh.durable (h : C.Fresh) : C.Durable where
  mirror n _ := by
    obtain ⟨ps, cfg, hn⟩ := h.node n
    rw [hn]
    exact Mirror.of_init n ps cfg true ⟨true, 1, false⟩
  down n _ := by
    obtain ⟨ps, cfg, hn⟩ := h.node n
    rw [hn]
    exact fun _ => ⟨rfl, rfl⟩
  data p hp := by
    rw [h.net] at hp
    exact absurd hp List.not_mem_nil

theorem durable_init (M : Medium) (mem : Membership) (cfg : NodeId → RaftConfig) :
    (init M mem cfg).Durable := (fresh_init M mem cfg).durable

theorem durable_launch (M : Medium) (r : Roster) (cfg : NodeId → RaftConfig) :
    (launch M r cfg).Durable := (fresh_launch M r cfg).durable

/-- The step that node `n` takes on an event begins in a recoverable state. -/
theorem Durable.recoverable (hd : C.Durable) (hs : C.Sized) {e : Event} {n : NodeId} {inp : Input M}
    (hinp : C.input e = some (n, inp)) (hn : n ∈ C.members) : Recoverable (C.node n) inp where
  sized := hs.node n hn
  down := hd.down n hn
  mirror := hd.mirror n hn
  data := by
    rintro src is rfl
    obtain ⟨k, p, -, hp, -, -, hm⟩ := input_message hinp
    have hmem := List.mem_of_getElem? hp
    exact ⟨hd.data p hmem is hm, hs.data p hmem is hm⟩

/-- The mirror as an invariant; it refers to no abstract state. -/
def mirrorInvariant (M : Medium) : Invariant M Unit where
  le _ _ := True
  node _ _ s := Mirror s
  packet _ p := SnapMsgOk p.msg
  effect _ _ _ _ := True
  le_refl _ := trivial
  le_trans _ _ _ _ _ := trivial
  packet_mono _ _ _ _ h := h
  effect_mono _ _ _ _ _ _ h := h
  node_settle _ _ _ h _ := h.of_eq rfl rfl rfl rfl rfl rfl rfl rfl rfl

theorem mirror_exec (hC : C.Settled) (hd : C.Durable) (hs : C.Sized) (e : Event) :
    (mirrorInvariant M).Holds () (C.exec e) := by
  have h : (mirrorInvariant M).Holds () C :=
    ⟨fun n hn => hd.mirror n hn, fun p hp => hd.data p (hC.inFlight_iff.mp hp),
      fun _ _ _ _ _ => trivial, fun _ _ h => h.elim⟩
  refine (Invariant.exec (e := e) hC h ?_ ?_).elim fun _ h' => h'.2
  · intro n inp s s' _ hinp hn _ _ hm hh
    have hms : Mirror s := by
      have h := hh.node n hn
      rw [set_node_self] at h
      exact h
    have hms' := hm.mirror (hd.recoverable hs hinp hn) hms
    refine ⟨(), .stay hms' (fun _ _ => trivial) fun d m hsent => ?_⟩
    rintro is rfl
    cases hsent with
    | installSnapshot d hpeer hrole hsnap =>
      -- a leader with a snapshot has encoded its data
      rcases hms'.snapRec with ⟨-, h0, -⟩ | ⟨-, -, hkv⟩
      · exact absurd h0 hsnap
      · exact hkv
  · rintro src dst cr - is his
    exact absurd his (by simp)

/-- **The stores mirror the memory after every step.** -/
theorem Durable.exec (hC : C.Settled) (hd : C.Durable) (hs : C.Sized) (e : Event) :
    (C.exec e).Durable where
  mirror n hn := (mirror_exec hC hd hs e).node n hn
  down n hn := by
    rw [exec_members] at hn
    rcases C.exec_node_cases e n with hstay | ⟨inp, -, -, hstep⟩
    · rw [hstay]
      exact hd.down n hn
    · rw [hstep]
      exact (C.node n).handle_downOk C.now inp (hC n).2 (hd.down n hn)
  data p hp := (mirror_exec hC hd hs e).packet p (Or.inl hp)

theorem Durable.run (hC : C.Settled) (hd : C.Durable) (es : List Event)
    (hs : ∀ es', es' <+: es → (C.run es').Sized) : (C.run es).Durable := by
  induction es using List.reverseRecOn with
  | nil => exact hd
  | append_singleton es e ih =>
    rw [run_append]
    exact (ih fun es' h => hs es' (h.trans (List.prefix_append _ _))).exec
      (settled_run hC es) (hs es (List.prefix_append _ _)) e

end Cluster

end SimKV
