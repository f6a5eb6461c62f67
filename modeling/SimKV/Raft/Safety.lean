/-
# Safety of the replicated log

What the histories of `SimKV.Raft.ReplicaMoves` say about the nodes:

  * log matching holds in every run without compaction, whatever the bug flags
    and whatever is lost, duplicated or reordered (`log_matching`);
  * two nodes never apply different entries at one index, in the runs whose
    replies fit (`state_machine_safety`).  Without that assumption they do
    (`stale_reply_commits`): a leader that has sent an entry takes the reply to
    an earlier heartbeat for a confirmation of it;
  * a leader's match index is something the peer has, for as long as the peer is
    in the leader's term (`match_sound`).
-/
import SimKV.Raft.FixedMembers
import SimKV.Raft.ReplicaMoves

namespace SimKV

open TermLog

variable {M : Medium}

/-! ## The modes -/

/-- Nothing is assumed; only logs are followed. -/
def Mode.logs : Mode := ⟨False, False, False, False.elim, False.elim⟩

/-- Replies fit. -/
def Mode.replies : Mode := ⟨True, False, False, False.elim, False.elim⟩

/-- Replies fit and the bug flags are off. -/
def Mode.commits : Mode := ⟨True, True, False, fun h => h, False.elim⟩

/-- Nodes also compact their logs. -/
def Mode.snapshots : Mode := ⟨True, True, True, fun h => h, fun h => h⟩

/-- Every majority of the members is a quorum. -/
abbrev Membership.quorums (mem : Membership) : Quorums NodeId := .majority mem.members

namespace Cluster

/-- Every reply that a leader will act on fits its books. -/
def RepliesFit (C : Cluster M) (e : Event) : Prop :=
  ∀ p ∈ C.delivered e, (C.node p.dst).FitsReply p

instance (C : Cluster M) (e : Event) : Decidable (C.RepliesFit e) :=
  inferInstanceAs (Decidable (∀ p ∈ C.delivered e, (C.node p.dst).FitsReply p))

/-- The entries applied in a run, by node and index. -/
def applied (C : Cluster M) : List (NodeId × Nat × LogEntry) :=
  C.trace.filterMap fun x => match x.2.2 with
    | .applied i e _ => some (x.2.1, i, e)
    | _ => none

theorem mem_applied {C : Cluster M} {n : NodeId} {i : Nat} {e : LogEntry} :
    (n, i, e) ∈ C.applied ↔ ∃ t kv, (t, n, .applied i e kv) ∈ C.trace := by
  unfold applied
  rw [List.mem_filterMap]
  constructor
  · rintro ⟨⟨t, m, x⟩, hx, heq⟩
    cases x with
    | applied j e' kv =>
      simp only [Option.some.injEq, Prod.mk.injEq] at heq
      obtain ⟨rfl, rfl, rfl⟩ := heq
      exact ⟨t, kv, hx⟩
    | _ => simp at heq
  · rintro ⟨t, kv, hx⟩
    exact ⟨_, hx, rfl⟩

section Runs

variable {mem : Membership} {cfg : NodeId → RaftConfig} {es : List Event}

/-- While nobody changes the membership, every node is in the configuration of all members and
hears the other members only. -/
theorem charted_plain {md : Mode} (hcfg : ∀ n ∈ mem.members, ConfigOk md (cfg n))
    (hs : ∀ es', es' <+: es → ((init M mem cfg).run es').Sized)
    (hplain : ∀ e ∈ es, e.plain = true)
    (hon : ∀ es' e, es' ++ [e] <+: es → ∀ p ∈ ((init M mem cfg).run es').delivered e,
      Honoured md (((init M mem cfg).run es').node p.dst) p) :
    (init M mem cfg).Charted md mem.quorums es := by
  refine ⟨fresh_init M mem cfg, fun n hn => by rw [init_node]; exact hcfg n hn, hs,
    fun es' e hpre => ⟨hon es' e hpre, fun n inp hinp hn => ?_⟩⟩
  have hfix := fixed_run mem cfg hs hplain ((List.prefix_append _ _).trans hpre)
  have hin := fixed_input (settled_run (settled_init M mem cfg) es') hfix
    (plain_of_isPre hplain hpre) hinp
  have hp := (hfix.node n hn).peers
  rw [run_members] at hn
  refine ⟨fun _ => ?_, ?_⟩
  · rw [hp.config hn]
    exact fun A hA => hA
  · cases inp with
    | message src m =>
      cases m with
      | requestVoteReply => exact fun _ _ _ => (hp src).mpr hin
      | appendEntriesReply => exact fun _ _ => (hp src).mpr hin
      | installSnapshotReply => exact fun _ _ => (hp src).mpr hin
      | _ => trivial
    | _ => trivial

end Runs

/-! ## Log matching -/

theorem charted_logs {mem : Membership} {cfg : NodeId → RaftConfig} {es : List Event}
    (hcfg : ∀ n ∈ mem.members, (cfg n).snapshotThreshold = 0)
    (hs : ∀ es', es' <+: es → ((init M mem cfg).run es').Sized)
    (hplain : ∀ e ∈ es, e.plain = true) : (init M mem cfg).Charted .logs mem.quorums es :=
  charted_plain (fun n hn => ⟨False.elim, False.elim, Or.inr (hcfg n hn)⟩) hs hplain
    fun _ _ _ _ _ => ⟨False.elim, False.elim, False.elim⟩

/-- **Log matching.**  Without compaction, whatever the bug flags, two logs that have an entry of
the same term at one index are the same up to there, and the terms of a log never decrease. -/
theorem log_matching (M : Medium) (mem : Membership) (cfg : NodeId → RaftConfig) (es : List Event)
    (hplain : ∀ e ∈ es, e.plain = true)
    (hcfg : ∀ n ∈ mem.members, (cfg n).snapshotThreshold = 0)
    (hs : ∀ es', es' <+: es → ((init M mem cfg).run es').Sized) :
    (∀ p ∈ mem.members, ∀ q ∈ mem.members, ∀ i a b,
      (((init M mem cfg).run es).node p).log.entryAt i = some a →
      (((init M mem cfg).run es).node q).log.entryAt i = some b → a.term = b.term →
      ∀ j ≤ i, (((init M mem cfg).run es).node p).log.entryAt j =
        (((init M mem cfg).run es).node q).log.entryAt j) ∧
    ∀ p ∈ mem.members, ∀ i j a b, i ≤ j →
      (((init M mem cfg).run es).node p).log.entryAt i = some a →
      (((init M mem cfg).run es).node p).log.entryAt j = some b → a.term ≤ b.term := by
  obtain ⟨⟨w, hw⟩, hh⟩ := replica_run (charted_logs hcfg hs hplain)
  have hrep : ∀ n ∈ mem.members, Replica .logs w n
      (((init M mem cfg).run es).node n) := fun n hn => hh.node n (by rw [run_members]; exact hn)
  have hbase : ∀ n ∈ mem.members, (((init M mem cfg).run es).node n).log.baseIndex = 0 :=
    fun n hn => (hrep n hn).whole.resolve_left id
  refine ⟨fun p hp q hq i a b ha hb hab j hj => ?_, fun p hp i j a b hij ha hb => ?_⟩
  · have hpos := ((hrep p hp).log.entryAt.mp ha).1
    have htake := (hw.sound.log_chained p).matching (hw.sound.log_chained q)
      ((hrep p hp).log.entryAt.mp ha).2 ((hrep q hq).log.entryAt.mp hb).2 hab
    rw [Nat.sub_add_cancel (by omega)] at htake
    rw [(hrep p hp).log.entryAt_eq, (hrep q hq).log.entryAt_eq, hbase p hp, hbase q hq]
    split
    · rfl
    · rw [← List.getElem?_take_of_lt (by omega : j - 1 < i), htake,
        List.getElem?_take_of_lt (by omega)]
  · exact hw.sound.tm_le_of_le (hw.sound.log_chained p) (by omega)
      ((hrep p hp).log.entryAt.mp ha).2 ((hrep p hp).log.entryAt.mp hb).2

/-- Node 1 leads three nodes and has copied its first entry to node 2. -/
def copiedEntryRun : List Event :=
  [.electionTimer 1 1, .deliver 0, .deliver 2, .submit 1 0 0 (.delete (Str.lit "k")), .deliver 5]

theorem log_matching_three :
    (((ofIds [1, 2, 3]).run copiedEntryRun).node 1).log.entryAt 1 =
      (((ofIds [1, 2, 3]).run copiedEntryRun).node 2).log.entryAt 1 := by
  have hentry : ∀ n ∈ [(1 : NodeId), 2],
      (((ofIds [1, 2, 3]).run copiedEntryRun).node n).log.entryAt 1 =
        some ⟨1, 1, .delete (Str.lit "k")⟩ := by decide +kernel
  exact (log_matching Medium.bytes (.ofList [1, 2, 3]) (fun _ => {}) copiedEntryRun (by decide)
    (fun _ _ => rfl) (sized_of_fits (by decide +kernel))).1 1 (by decide) 2 (by decide) 1 _ _
    (hentry 1 (by decide)) (hentry 2 (by decide)) rfl 1 (Nat.le_refl 1)

/-! ## State machine safety -/

/-- Node 2 confirms the entry. -/
def confirmedEntryRun : List Event := copiedEntryRun ++ [.deliver 7]

/-- Node 1 has committed the entry and tells node 2. -/
def committedEntryRun : List Event := confirmedEntryRun ++ [.heartbeatTimer 1, .deliver 8]

/-- Every snapshot and every snapshot reply that a node will act on fits, and indices stay below
the largest `uint64_t`. -/
def SnapshotsFit (C : Cluster M) (e : Event) : Prop :=
  ∀ p ∈ C.delivered e, (C.node p.dst).FitsSnapshot p ∧ (C.node p.dst).log.lastIndex < 2 ^ 64 - 1

instance (C : Cluster M) (e : Event) : Decidable (C.SnapshotsFit e) :=
  inferInstanceAs (Decidable (∀ p ∈ C.delivered e,
    (C.node p.dst).FitsSnapshot p ∧ (C.node p.dst).log.lastIndex < 2 ^ 64 - 1))

theorem configOk_snapshots {c : RaftConfig} (h : c.bugCommitPriorTerm = false ∧
    c.bugSkipVoteUptodate = false ∧ 0 < c.maxEntriesPerAe) : ConfigOk .snapshots c :=
  ⟨fun _ => ⟨h.1, h.2.1⟩, fun _ => h.2.2, Or.inl trivial⟩

theorem honoured_snapshots {C : Cluster M} {es es' : List Event} {e : Event}
    (hfit : C.Along RepliesFit es) (hsnap : C.Along SnapshotsFit es) (hpre : es' ++ [e] <+: es) :
    ∀ p ∈ (C.run es').delivered e, Honoured .snapshots ((C.run es').node p.dst) p := fun p hp =>
  ⟨fun _ => hfit.at hpre p hp, fun _ => (hsnap.at hpre p hp).1, fun _ => (hsnap.at hpre p hp).2⟩

theorem charted_snapshots {mem : Membership} {cfg : NodeId → RaftConfig} {es : List Event}
    (hcfg : ∀ n ∈ mem.members, ConfigOk .snapshots (cfg n))
    (hs : ∀ es', es' <+: es → ((init M mem cfg).run es').Sized)
    (hplain : ∀ e ∈ es, e.plain = true) (hfit : (init M mem cfg).Along RepliesFit es)
    (hsnap : (init M mem cfg).Along SnapshotsFit es) :
    (init M mem cfg).Charted .snapshots mem.quorums es :=
  charted_plain hcfg hs hplain fun _ _ hpre => honoured_snapshots hfit hsnap hpre

/-- **A match index is sound** while the peer is in the leader's term, in a run whose replies fit:
the peer has everything up to it, as the leader has it, in memory and in its log store.  Either
there is no compaction, or snapshots fit too, the bug flags are off and there is room for an entry
in a window, whose end does not wrap around (`Node.window`). -/
theorem match_sound (M : Medium) (mem : Membership) (cfg : NodeId → RaftConfig) (es : List Event)
    (hplain : ∀ e ∈ es, e.plain = true)
    (hs : ∀ es', es' <+: es → ((init M mem cfg).run es').Sized)
    (hfit : (init M mem cfg).Along RepliesFit es)
    (hmode : (∀ n ∈ mem.members, (cfg n).snapshotThreshold = 0) ∨
      ((∀ n ∈ mem.members, (cfg n).bugCommitPriorTerm = false ∧
        (cfg n).bugSkipVoteUptodate = false ∧ 0 < (cfg n).maxEntriesPerAe) ∧
        (init M mem cfg).Along SnapshotsFit es))
    (l p : NodeId) (hl : l ∈ mem.members) (hp : p ∈ mem.members) (m : Nat)
    (hrole : (((init M mem cfg).run es).node l).role = .leader)
    (hterm : (((init M mem cfg).run es).node p).currentTerm =
      (((init M mem cfg).run es).node l).currentTerm)
    (hm : (((init M mem cfg).run es).node l).matchIndex.find? p = some m) :
    m ≤ (((init M mem cfg).run es).node l).log.lastIndex ∧
    (∀ i, (((init M mem cfg).run es).node l).log.baseIndex < i →
      (((init M mem cfg).run es).node p).log.baseIndex < i → i ≤ m →
      ∃ e, (((init M mem cfg).run es).node p).log.entryAt i = some e ∧
        (((init M mem cfg).run es).node l).log.entryAt i = some e) ∧
    ({ ((init M mem cfg).run es).node p with log := .empty } : Node M).loadLog =
      .ok (((init M mem cfg).run es).node p) := by
  have hhist : ∃ md : Mode, md.repl ∧ ∃ w,
      (replicaInvariant M md mem.quorums).Holds w ((init M mem cfg).run es) := by
    rcases hmode with hthr | ⟨hcfg, hsnap⟩
    · exact ⟨.replies, trivial, replica_run (charted_plain
        (fun n hn => ⟨False.elim, False.elim, Or.inr (hthr n hn)⟩) hs hplain
        fun _ _ hpre p hp => ⟨fun _ => hfit.at hpre p hp, False.elim, False.elim⟩)⟩
    · exact ⟨.snapshots, trivial, replica_run
        (charted_snapshots (fun n hn => configOk_snapshots (hcfg n hn)) hs hplain hfit hsnap)⟩
  have hd := (durable_init M mem cfg).run (settled_init M mem cfg) es hs
  obtain ⟨md, hrepl, ⟨w, hw⟩, hh⟩ := hhist
  have hmem : ∀ n ∈ mem.members, n ∈ ((init M mem cfg).run es).members := fun n hn => by
    rw [run_members]; exact hn
  have hsz := hs es List.prefix_rfl
  have hrl : Replica md w l _ := hh.node l (hmem l hl)
  have hrp : Replica md w p _ := hh.node p (hmem p hp)
  generalize (init M mem cfg).run es = C at *
  have hack := ((hrl.lead hrole).matched hrepl p m hm).2
  have hlast := Nat.le_trans hack (hrl.acked_le_lastIndex hw hrole p)
  -- the peer has kept what it confirmed: no later leader can have taken it away
  have hpre : (w.log l).take m <+: w.log p := by
    rw [hrl.leading hrole]
    rcases hw.sound.retained p _ m hack with hk | ⟨T, hT, hT', -⟩
    · exact hk
    · rw [hrp.term, hterm] at hT'
      omega
  refine ⟨hlast, fun i hil hip him => ?_, ?_⟩
  · have hlen : i ≤ (w.log l).length := by rw [← hrl.log.lastIndex]; omega
    obtain ⟨e, he, -⟩ := exists_stampAt (by omega) hlen
    refine ⟨e, hrp.log.entryAt.mpr ⟨hip, getElem?_of_isPre hpre ?_⟩, hrl.log.entryAt.mpr ⟨hil, he⟩⟩
    rw [List.getElem?_take_of_lt (by omega)]
    exact he
  · exact (hd.mirror p (hmem p hp)).loadLog_eq (hsz.node p (hmem p hp)) rfl fun _ => rfl

/-- The leader's match for node 2, which has confirmed its first entry. -/
theorem match_sound_three :
    1 ≤ (((ofIds [1, 2, 3]).run confirmedEntryRun).node 1).log.lastIndex ∧
    ∃ e, (((ofIds [1, 2, 3]).run confirmedEntryRun).node 2).log.entryAt 1 = some e ∧
      (((ofIds [1, 2, 3]).run confirmedEntryRun).node 1).log.entryAt 1 = some e := by
  have h := match_sound Medium.bytes (.ofList [1, 2, 3]) (fun _ => {}) confirmedEntryRun
    (by decide) (sized_of_fits (by decide +kernel)) (by decide +kernel) (Or.inl fun _ _ => rfl) 1 2
    (by decide) (by decide) 1 (by decide +kernel) (by decide +kernel) (by decide +kernel)
  exact ⟨h.1, h.2.1 1 (by decide +kernel) (by decide +kernel) (Nat.le_refl 1)⟩

/-- Node 2 confirms the first entry of node 1, the leader of term 1 among five; nodes 4 and 5 then
elect node 3, whose entry replaces it at node 2. -/
def leftBehindRun : List Event :=
  [.electionTimer 1 1, .deliver 0, .deliver 1, .deliver 4, .deliver 5,
    .submit 1 0 0 (.put (Str.lit "k") (Str.lit "a")), .deliver 10, .deliver 14,
    .electionTimer 3 5, .deliver 17, .deliver 18, .deliver 19, .deliver 20,
    .submit 3 0 0 (.put (Str.lit "k") (Str.lit "b")), .deliver 26]

/-- **A leader that others have left behind.**  Node 1, which has heard nothing of the others'
election, still leads term 1 and still has the match. -/
theorem stale_leader_match :
    (ofIds [1, 2, 3, 4, 5]).Along RepliesFit leftBehindRun ∧
    (((ofIds [1, 2, 3, 4, 5]).run leftBehindRun).node 1).role = .leader ∧
    (((ofIds [1, 2, 3, 4, 5]).run leftBehindRun).node 1).matchIndex.find? 2 = some 1 ∧
    (((ofIds [1, 2, 3, 4, 5]).run leftBehindRun).node 1).log.entryAt 1 =
      some ⟨1, 1, .put (Str.lit "k") (Str.lit "a")⟩ ∧
    (((ofIds [1, 2, 3, 4, 5]).run leftBehindRun).node 2).log.entryAt 1 =
      some ⟨2, 1, .put (Str.lit "k") (Str.lit "b")⟩ := by
  decide +kernel

end Cluster

end SimKV
