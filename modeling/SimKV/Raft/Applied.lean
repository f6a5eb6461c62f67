/-
# The key-value store is a replay of the committed log

`kv_` is never rebuilt from scratch while a node runs: entries are applied to it
one by one, a snapshot replaces it, a crash throws it away.  `Replays w k kv` says
what it should be at any time: the store after the first `k` entries of the
committed sequence.  It is a statement about the history alone, so it does not
matter which node computed the store, and a snapshot carries it from one node to
another.

`Ledger` adds to the history the effects that have been observed; with it the
entries that a store stands for are entries that some node has in fact applied
(`Covers`).

The code keeps the statement in every move but one: a snapshot that arrives late
replaces a store that is already ahead of it (`late_snapshot_rolls_back`).
-/
import SimKV.Raft.Safety
import Mathlib.Data.Finset.Lattice.Fold

namespace SimKV

open TermLog

variable {M : Medium}

/-! ## Replays of the committed sequence -/

/-- `kv` is the store after the first `k` committed entries. -/
def Replays (w : RaftWorld) (k : Nat) (kv : KvStore) : Prop :=
  ∃ T, k ≤ w.lcommit T ∧ kv = KvStore.replay (((w.llog T).take k).map LogEntry.cmd)

namespace Replays

variable {md : Mode} {Q : Quorums NodeId} {w w' : RaftWorld} {k : Nat} {kv kv' : KvStore}

theorem zero (w : RaftWorld) : Replays w 0 .empty := ⟨0, Nat.zero_le _, rfl⟩

theorem steps (hw : Coherent md Q w) (hs : md.Steps Q w w') (h : Replays w k kv) :
    Replays w' k kv := by
  obtain ⟨T, hT, rfl⟩ := h
  have hx := hw.steps_extends hs
  have hlen := hw.sound.lcommit_le T
  exact ⟨T, Nat.le_trans hT (hx.lcommit_le T), by rw [hx.llog_take (by omega)]⟩

/-- There is one store for each index. -/
theorem unique (hw : Coherent md Q w) (hf : md.full) (h : Replays w k kv)
    (h' : Replays w k kv') : kv = kv' := by
  obtain ⟨T, hT, rfl⟩ := h
  obtain ⟨T', hT', rfl⟩ := h'
  rw [hw.sound.committed_agree hf hT hT']

/-- The next committed entry, applied. -/
theorem next (hw : Coherent md Q w) (hf : md.full) (h : Replays w k kv) {T : Nat} {e : LogEntry}
    (hT : k + 1 ≤ w.lcommit T) (he : (w.llog T)[k]? = some e) :
    Replays w (k + 1) (kv.apply e.cmd).1 := by
  have hkv := h.unique hw hf ⟨T, by omega, rfl⟩
  refine ⟨T, hT, ?_⟩
  rw [take_succ_eq he, List.map_append, List.map_singleton, KvStore.replay_concat, hkv]

end Replays

/-- Snapshot data for index `k`: none at all for index 0, or the store at `k`. -/
def SnapOk (w : RaftWorld) (b : M.Blob) (k : Nat) : Prop :=
  (b = M.noBlob ∧ k = 0) ∨ ∃ kv, b = M.encodeKv kv ∧ Replays w k kv

namespace SnapOk

variable {md : Mode} {Q : Quorums NodeId} {w w' : RaftWorld} {b : M.Blob} {k : Nat} {kv : KvStore}

theorem steps (hw : Coherent md Q w) (hs : md.Steps Q w w') (h : SnapOk w b k) :
    SnapOk w' b k :=
  h.imp_right fun ⟨kv, hb, hkv⟩ => ⟨kv, hb, hkv.steps hw hs⟩

/-- Data that decodes is the store. -/
theorem decode (hg : M.GoodBlob b) (h : SnapOk w b k) (hne : M.blobEmpty b = false)
    (hdec : M.decodeKv b = .ok kv) : Replays w k kv := by
  rcases h with ⟨rfl, -⟩ | ⟨kv', hb, hkv⟩
  · rw [M.blobEmpty_noBlob] at hne
    exact absurd hne (by decide)
  · have hd := (hg kv' hb).2
    rw [← hb, hdec] at hd
    rw [Except.ok.inj hd]
    exact hkv

/-- No data stands for nothing. -/
theorem of_empty (hg : M.GoodBlob b) (h : SnapOk w b k) (he : M.blobEmpty b = true) : k = 0 := by
  rcases h with ⟨-, h0⟩ | ⟨kv, hb, -⟩
  · exact h0
  · have hd := (hg kv hb).1
    rw [← hb, he] at hd
    exact absurd hd (by decide)

end SnapOk

/-- One sequence has every committed stretch as a prefix. -/
theorem Coherent.exists_sequence {md : Mode} {Q : Quorums NodeId} {w : RaftWorld}
    (hw : Coherent md Q w) (hf : md.full) :
    ∃ cs : List LogEntry, ∀ T, (w.llog T).take (w.lcommit T) <+: cs := by
  obtain ⟨cs, hcs⟩ := hw.sound.exists_sequence hf (Q.voters.sup w.term)
  refine ⟨cs, fun T => ?_⟩
  rcases Nat.lt_or_ge (Q.voters.sup w.term) T with hlt | hle
  · -- nobody has reached such a term, so nobody leads it
    have hno : w.leader T = none := by
      by_contra hne
      obtain ⟨c, hc⟩ := Option.ne_none_iff_exists'.mp hne
      obtain ⟨A, hA, hv⟩ := hw.sound.ballot.elected T c hc
      obtain ⟨n, hn, -⟩ := Q.meet hA hA
      have h1 := hw.sound.ballot.voted_le n T c (hv n hn)
      have h2 : w.term n ≤ Q.voters.sup w.term := Finset.le_sup (Q.sub hA hn)
      omega
    rw [(hw.sound.unled T hno).2.2.1, List.take_zero]
    exact List.nil_prefix
  · exact hcs T hle

/-! ## The ledger -/

/-- Every index up to `k` is among the applied ones. -/
def Covers (done : Set (NodeId × Effect M)) (k : Nat) : Prop :=
  ∀ j, 0 < j → j ≤ k → ∃ m e kv, (m, Effect.applied j e kv) ∈ done

theorem Covers.mono {done done' : Set (NodeId × Effect M)} {k k' : Nat} (h : Covers done k)
    (hd : done ⊆ done') (hk : k' ≤ k) : Covers done' k' := by
  intro j hj hle
  obtain ⟨m, e, kv, hm⟩ := h j hj (by omega)
  exact ⟨m, e, kv, hd hm⟩

/-- The history and the effects that have been observed. -/
structure Ledger (M : Medium) (md : Mode) (Q : Quorums NodeId) where
  hist : Cluster.CoherentHistory md Q
  done : Set (NodeId × Effect M)

variable {md : Mode} {Q : Quorums NodeId}

/-- `g'` continues `g`. -/
def Ledger.Le (g g' : Ledger M md Q) : Prop :=
  md.Steps Q g.hist.1 g'.hist.1 ∧ g.done ⊆ g'.done

/-- The store and the snapshot of a node are what its indices say. -/
structure KvOk (g : Ledger M md Q) (s : Node M) : Prop where
  kv : Replays g.hist.1 s.lastApplied s.kv
  snap : SnapOk g.hist.1 s.snapData s.snapLastIndex
  covers : Covers g.done s.lastApplied

/-- A snapshot in flight is the store at its index. -/
def KvMsg (g : Ledger M md Q) : Msg M.Blob → Prop
  | .installSnapshot is =>
    (∃ kv, is.data = M.encodeKv kv ∧ Replays g.hist.1 is.lastIncludedIndex kv) ∧
      Covers g.done is.lastIncludedIndex
  | _ => True

/-- An entry is applied to the store at the index before it. -/
def KvEffect (g : Ledger M md Q) : Effect M → Prop
  | .applied i _ kv => Replays g.hist.1 (i - 1) kv ∧ Covers g.done i
  | _ => True

theorem KvMsg.mono {g g' : Ledger M md Q} {m : Msg M.Blob} (hle : g.Le g') (h : KvMsg g m) :
    KvMsg g' m := by
  cases m with
  | installSnapshot is =>
    obtain ⟨⟨kv, hb, hkv⟩, hc⟩ := h
    exact ⟨⟨kv, hb, hkv.steps g.hist.2 hle.1⟩, hc.mono hle.2 (Nat.le_refl _)⟩
  | _ => trivial

theorem KvEffect.mono {g g' : Ledger M md Q} {x : Effect M} (hle : g.Le g') (h : KvEffect g x) :
    KvEffect g' x := by
  cases x with
  | applied i e kv => exact ⟨h.1.steps g.hist.2 hle.1, h.2.mono hle.2 (Nat.le_refl _)⟩
  | _ => trivial

section Moves

variable {g g' : Ledger M md Q} {n : NodeId} {n₀ s s' : Node M} {t : Nat} {inp : Input M}

theorem KvOk.same (h : KvOk g s) (hle : g.Le g') (hkv : s'.kv = s.kv)
    (ha : s'.lastApplied = s.lastApplied) (hd : s'.snapData = s.snapData)
    (hi : s'.snapLastIndex = s.snapLastIndex) : KvOk g' s' where
  kv := by rw [hkv, ha]; exact h.kv.steps g.hist.2 hle.1
  snap := by rw [hd, hi]; exact h.snap.steps g.hist.2 hle.1
  covers := by rw [ha]; exact h.covers.mono hle.2 (Nat.le_refl _)

/-- The snapshot of a node covers no more than it has applied. -/
theorem Replica.snap_le (hr : Replica md g.hist.1 n s) (hf : md.full) :
    s.snapLastIndex ≤ s.lastApplied := by
  rw [hr.snap.1]
  exact (hr.applied hf).1

/-- A node that goes back to its snapshot. -/
theorem KvOk.reload (h : KvOk g s) (hle : g.Le g') (hr : Replica md g.hist.1 n s)
    (hf : md.full) {kv : KvStore} (hkv : Replays g.hist.1 s.snapLastIndex kv) (hs : s'.kv = kv)
    (ha : s'.lastApplied = s.snapLastIndex) (hd : s'.snapData = s.snapData)
    (hi : s'.snapLastIndex = s.snapLastIndex) : KvOk g' s' where
  kv := by rw [hs, ha]; exact hkv.steps g.hist.2 hle.1
  snap := by rw [hd, hi]; exact h.snap.steps g.hist.2 hle.1
  covers := by rw [ha]; exact h.covers.mono hle.2 (hr.snap_le hf)

/-- If node `s` will install the snapshot in `p`, it has applied nothing past it. -/
def Node.FreshSnapshot (s : Node M) (p : Packet M) : Prop :=
  match p.msg with
  | .installSnapshot is => s.currentTerm ≤ is.term → s.snapLastIndex < is.lastIncludedIndex →
      s.lastApplied ≤ is.lastIncludedIndex
  | _ => True

instance (s : Node M) (p : Packet M) : Decidable (s.FreshSnapshot p) := by
  unfold Node.FreshSnapshot
  induction p.msg using Msg.casesOn <;> infer_instance

/-- **Every move keeps the store a replay.** -/
theorem Move.kvOk (h : Move n₀ t inp s s') (hf : md.full)
    (hg : Given md Q g.hist.1 n n₀ inp) (hr : Replica md g.hist.1 n s) (hle : g.Le g')
    (hdone : ∀ x ∈ s'.out, (n, x) ∈ g'.done)
    (hmsg : ∀ src m, inp = .message src m → KvMsg g m)
    (hfresh : ∀ src is, inp = .message src (.installSnapshot is) → n₀.currentTerm ≤ is.term →
      n₀.snapLastIndex < is.lastIncludedIndex → n₀.lastApplied ≤ is.lastIncludedIndex)
    (hk : KvOk g s) : KvOk g' s' := by
  cases h with
  | skipApplied hlt hbase =>
    have := (hr.applied hf).1
    omega
  | applyKv e hlt hnone he =>
    obtain ⟨T, hT, hTe⟩ := hr.committed_next g.hist.2 hf hlt he
    refine ⟨(hk.kv.next g.hist.2 hf hT hTe).steps g.hist.2 hle.1,
      hk.snap.steps g.hist.2 hle.1, fun j hj hjk => ?_⟩
    rcases Nat.lt_or_ge s.lastApplied j with hlt' | hge
    · have hj' : j = s.lastApplied + 1 := by
        change j ≤ s.lastApplied + 1 at hjk
        omega
      rw [hj']
      exact ⟨n, e, s.kv, hdone _ (List.mem_append_right _ (List.mem_singleton_self _))⟩
    · exact hk.covers.mono hle.2 (Nat.le_refl _) j hj hge
  | snapshot k es hq hthr hlt ht =>
    exact ⟨hk.kv.steps g.hist.2 hle.1, Or.inr ⟨s.kv, rfl, hk.kv.steps g.hist.2 hle.1⟩,
      hk.covers.mono hle.2 (Nat.le_refl _)⟩
  | adopt src is err hinp hlt hdec => exact (hg.recoverable.not_adopt hinp hdec).elim
  | install src is kv es hq hinp hterm hrole hlt hdec hlog happ =>
    obtain ⟨⟨kv', hb, hkv⟩, hc⟩ := hmsg src _ hinp
    have hd := ((hg.recoverable.data src is hinp).2 kv' hb).2
    rw [← hb, hdec] at hd
    obtain rfl : kv = kv' := Except.ok.inj hd
    rw [hr.snap.1, hlog, ← hg.base] at hlt
    have hle' : s.lastApplied ≤ is.lastIncludedIndex := by
      rw [happ]
      exact hfresh src is hinp (by rw [← hterm, ← hr.term]; exact hg.term) hlt
    have hmax : max s.lastApplied is.lastIncludedIndex = is.lastIncludedIndex :=
      Nat.max_eq_right hle'
    refine ⟨?_, Or.inr ⟨kv, hb, hkv.steps g.hist.2 hle.1⟩, ?_⟩
    · change Replays g'.hist.1 (max s.lastApplied is.lastIncludedIndex) kv
      rw [hmax]
      exact hkv.steps g.hist.2 hle.1
    · change Covers g'.done (max s.lastApplied is.lastIncludedIndex)
      rw [hmax]
      exact hc.mono hle.2 (Nat.le_refl _)
  | crash kv hinp h₀ hkv =>
    subst h₀
    have hblob := hg.recoverable.sized.blob
    refine hk.reload hle hr hf ?_ rfl rfl rfl rfl
    rcases hkv with ⟨he, rfl⟩ | ⟨hne, hdec⟩
    · rw [hk.snap.of_empty hblob he]
      exact Replays.zero _
    · exact hk.snap.decode hblob hne hdec
  | crashFail err hinp h₀ hne hdec => exact (hg.recoverable.not_crashFail h₀ hne hdec).elim
  | boot _ hinp h₀ hrun hboot =>
    subst h₀
    obtain ⟨kv, rfl, hkv⟩ := hg.recoverable.booted rfl hrun hboot
    have hblob := hg.recoverable.sized.blob
    refine hk.reload hle hr hf ?_ rfl (hg.recoverable.down hrun).2 rfl rfl
    rcases hkv with ⟨-, h0, rfl⟩ | hkv
    · rw [h0]
      exact Replays.zero _
    · have hd := hblob kv hkv
      exact hk.snap.decode hblob (by rw [hkv]; exact hd.1) (by rw [hkv]; exact hd.2)
  | _ => exact hk.same hle rfl rfl rfl rfl

theorem Emitted.kvMsg {d : NodeId} {m : Msg M.Blob} (h : Emitted n₀ t inp s s' (.send d m))
    (hf : md.full) (hr' : Replica md g'.hist.1 n s') (hk' : KvOk g' s') : KvMsg g' m := by
  cases h with
  | installSnapshot d hpeer hrole hsnap =>
    refine ⟨?_, hk'.covers.mono (Set.Subset.refl _) (hr'.snap_le hf)⟩
    rcases hk'.snap with ⟨-, h0⟩ | hkv
    · exact absurd h0 hsnap
    · exact hkv
  | _ => trivial

theorem Emitted.kvEffect {x : Effect M} (h : Emitted n₀ t inp s s' x) (hle : g.Le g')
    (hk : KvOk g s) (hk' : KvOk g' s') : KvEffect g' x := by
  cases h with
  | applied e hlt he hs =>
    refine ⟨by rw [Nat.add_sub_cancel]; exact hk.kv.steps g.hist.2 hle.1, ?_⟩
    have hc := hk'.covers
    rw [hs] at hc
    exact hc
  | _ => trivial

end Moves

/-! ## Runs -/

namespace Cluster

def kvLayer (M : Medium) (md : Mode) (Q : Quorums NodeId) : Invariant M (Ledger M md Q) where
  le := Ledger.Le
  node g _ s := KvOk g s
  packet g p := KvMsg g p.msg
  effect g _ _ x := KvEffect g x
  seen g n x := (n, x) ∈ g.done
  le_refl _ := ⟨.refl, Set.Subset.refl _⟩
  le_trans _ _ _ h h' := ⟨h.1.trans h'.1, h.2.trans h'.2⟩
  packet_mono _ _ _ hle h := h.mono hle
  effect_mono _ _ _ _ _ hle h := h.mono hle
  node_settle _ _ _ h _ := h.same ⟨.refl, Set.Subset.refl _⟩ rfl rfl rfl rfl

/-- Nodes that agree with the history and have replayed it. -/
def kvInvariant (M : Medium) (md : Mode) (Q : Quorums NodeId) : Invariant M (Ledger M md Q) :=
  (replicaInvariant M md Q).layered (kvLayer M md Q) Ledger.hist fun _ _ h => h.1

/-- No node installs a snapshot older than what it has applied. -/
def SnapshotsFresh (C : Cluster M) (e : Event) : Prop :=
  ∀ p ∈ C.delivered e, (C.node p.dst).FreshSnapshot p

instance (C : Cluster M) (e : Event) : Decidable (C.SnapshotsFresh e) :=
  inferInstanceAs (Decidable (∀ p ∈ C.delivered e, (C.node p.dst).FreshSnapshot p))

variable {C : Cluster M}

/-- **A move advances the ledger.** -/
theorem kv_advance {e : Event} {n : NodeId} {inp : Input M} {s s' : Node M}
    {g : Ledger M md Q} (hf : md.full)
    (hg : Given md Q g.hist.1 n (C.node n) inp) (hinp : C.input e = some (n, inp))
    (hn : n ∈ C.members) (hfresh : C.SnapshotsFresh e) (hm : Move (C.node n) C.now inp s s')
    (hh : (kvInvariant M md Q).HoldsIn g inp.msg? (C.set n s)) :
    ∃ g', (kvInvariant M md Q).Advance g g' C n inp s s' := by
  obtain ⟨hrh, hkh⟩ := Invariant.HoldsIn.layered_iff.mp hh
  obtain ⟨w', ha⟩ := replica_advance hg hn hm hrh
  have hr : Replica md g.hist.1 n s := by
    have h := hrh.node n hn
    rw [set_node_self] at h
    exact h
  have hk : KvOk g s := by
    have h := hkh.node n hn
    rw [set_node_self] at h
    exact h
  let g' : Ledger M md Q := ⟨w', g.done ∪ { y | y.1 = n ∧ y.2 ∈ s'.out }⟩
  have hle : g.Le g' := ⟨ha.le, Set.subset_union_left⟩
  have hk' : KvOk g' s' := by
    refine hm.kvOk hf hg hr hle (fun x hx => Or.inr ⟨rfl, hx⟩) ?_ ?_ hk
    · rintro src m rfl
      obtain ⟨-, p, -, -, -, -, rfl, hp⟩ := hkh.delivered hinp
      exact hp
    · rintro src is rfl
      obtain ⟨k, p, rfl, hk, -, rfl, hpm, -⟩ := hkh.delivered hinp
      have := hfresh p hk
      unfold Node.FreshSnapshot at this
      rw [hpm] at this
      exact this
  refine ⟨g', Invariant.Advance.layered ha ⟨hle, hk', fun m _ _ h => h.same hle rfl rfl rfl rfl,
    fun x hx => hx.kvEffect hle hk hk', fun d m hs => hs.kvMsg hf ha.node hk', fun m x hx => ?_⟩⟩
  exact hx.imp_right fun h => ⟨h.1, h.2⟩

theorem kv_exec (hf : md.full) (hC : C.Settled) (hd : C.Durable) (hs : C.Sized) {e : Event}
    (ha : C.Allows md Q e) (hfresh : C.SnapshotsFresh e)
    {g : Ledger M md Q} (h : (kvInvariant M md Q).Holds g C) :
    ∃ g', (kvInvariant M md Q).le g g' ∧ (kvInvariant M md Q).Holds g' (C.exec e) := by
  have hr := (Invariant.HoldsIn.layered_iff.mp h).1
  refine Invariant.exec hC h ?_ fun _ _ _ _ => ⟨⟨trivial, trivial⟩, trivial⟩
  intro n inp s s' g₁ hinp hn hle _ hm hh
  have hrh := (Invariant.HoldsIn.layered_iff.mp hh).1
  exact kv_advance hf (ha.given hd hs hinp hn (hr.node n hn) hle.1 hrh) hinp hn hfresh hm hh

theorem Fresh.kv (hC : C.Fresh) (hcfg : ∀ n ∈ C.members, ConfigOk md (C.node n).cfg) :
    (kvInvariant M md Q).Holds ⟨⟨World.init, Coherent.init md Q⟩, ∅⟩ C := by
  refine Invariant.HoldsIn.layered_iff.mpr ⟨hC.replica hcfg, fun n _ => ?_,
    fun p hp => ?_, fun t n x _ ht => ?_, fun n x hx => absurd hx (Set.notMem_empty _)⟩
  · obtain ⟨ps, cfg, hn⟩ := hC.node n
    rw [hn]
    exact ⟨Replays.zero _, Or.inl ⟨rfl, rfl⟩, fun j hj hle => absurd (Nat.lt_of_lt_of_le hj hle)
      (Nat.lt_irrefl 0)⟩
  · rw [hC.settled.inFlight_iff, hC.net] at hp
    exact absurd hp List.not_mem_nil
  · rw [hC.settled.traced_iff, hC.trace] at ht
    exact absurd ht List.not_mem_nil

/-- The same, at any event of a run. -/
theorem kv_step (hf : md.full) {es : List Event} (hc : C.Charted md Q es)
    (hfresh : C.Along SnapshotsFresh es) {es' : List Event} {e : Event} (hpre : es' ++ [e] <+: es)
    {g : Ledger M md Q} (h : (kvInvariant M md Q).Holds g (C.run es')) :
    ∃ g', (kvInvariant M md Q).le g g' ∧
      (kvInvariant M md Q).Holds g' ((C.run es').exec e) := by
  have hpre' : es' <+: es := (List.prefix_append es' [e]).trans hpre
  exact kv_exec hf (hc.settled es') (hc.durable hpre') (hc.sized es' hpre') (hc.allows es' e hpre)
    (hfresh.at hpre) h

/-- **Every run keeps its ledger.** -/
theorem kv_run (hf : md.full) {es : List Event} (hc : C.Charted md Q es)
    (hfresh : C.Along SnapshotsFresh es) : ∃ g, (kvInvariant M md Q).Holds g (C.run es) := by
  obtain ⟨g, -, hg⟩ := Invariant.run (hc.fresh.kv hc.cfg) es fun _ _ hpre _ _ hg' =>
    kv_step hf hc hfresh hpre hg'
  exact ⟨g, hg⟩

/-! ## The committed sequence -/

/-- `cs` is the sequence of the entries that the nodes have applied, by index. -/
structure Sequence (C : Cluster M) (cs : List LogEntry) : Prop where
  applied : ∀ n i e, (n, i, e) ∈ C.applied → 0 < i ∧ cs[i - 1]? = some e
  by_some : ∀ k e, cs[k]? = some e → ∃ n, (n, k + 1, e) ∈ C.applied

/-- The largest index applied. -/
theorem exists_last_applied (l : List (NodeId × Nat × LogEntry)) :
    ∃ k, (∀ x ∈ l, x.2.1 ≤ k) ∧ (k = 0 ∨ ∃ x ∈ l, x.2.1 = k) := by
  induction l with
  | nil => exact ⟨0, fun x hx => absurd hx List.not_mem_nil, Or.inl rfl⟩
  | cons y l ih =>
    obtain ⟨k, hk, hat⟩ := ih
    rcases Nat.le_total k y.2.1 with hle | hle
    · refine ⟨y.2.1, fun x hx => ?_, Or.inr ⟨y, List.mem_cons_self, rfl⟩⟩
      rcases List.mem_cons.mp hx with rfl | hx
      · exact Nat.le_refl _
      · exact Nat.le_trans (hk x hx) hle
    · refine ⟨k, fun x hx => ?_, hat.imp_right fun ⟨x, hx, he⟩ =>
        ⟨x, List.mem_cons_of_mem _ hx, he⟩⟩
      rcases List.mem_cons.mp hx with rfl | hx
      · exact hle
      · exact hk x hx

/-- The ledger has a committed sequence, and stores that replay the history replay it. -/
theorem exists_sequence {g : Ledger M md Q} (hf : md.full) (hC : C.Settled)
    (h : (kvInvariant M md Q).Holds g C) :
    ∃ cs, C.Sequence cs ∧ ∀ k kv, Replays g.hist.1 k kv → Covers g.done k →
      k ≤ cs.length ∧ kv = KvStore.replay ((cs.take k).map LogEntry.cmd) := by
  obtain ⟨hr, hk⟩ := Invariant.HoldsIn.layered_iff.mp h
  obtain ⟨cs, hcs⟩ := g.hist.2.exists_sequence hf
  obtain ⟨top, htop, hat⟩ := exists_last_applied C.applied
  have hmem : ∀ n i e, (n, i, e) ∈ C.applied → 0 < i ∧ cs[i - 1]? = some e := by
    intro n i e hi
    obtain ⟨t, kv, ht⟩ := mem_applied.mp hi
    obtain ⟨hpos, -, hc⟩ := hr.effect t n _ rfl (Or.inl ht)
    obtain ⟨T, hT, hTe⟩ := hc hf
    refine ⟨hpos, getElem?_of_isPre (hcs T) ?_⟩
    rw [List.getElem?_take_of_lt (by omega)]
    exact hTe
  -- what is covered has been applied by someone
  have hcov : ∀ {k}, Covers g.done k → ∀ j, 0 < j → j ≤ k → ∃ m e, (m, j, e) ∈ C.applied := by
    intro k hc j hj hle
    obtain ⟨m, e, kv, hd⟩ := hc j hj hle
    obtain ⟨t, ht⟩ := hk.seen m _ hd
    exact ⟨m, e, mem_applied.mpr ⟨t, kv, hC.traced_iff.mp ht⟩⟩
  have hlen : ∀ {k}, Covers g.done k → k ≤ (cs.take top).length := by
    intro k hc
    rcases Nat.eq_zero_or_pos k with rfl | hpos
    · exact Nat.zero_le _
    · obtain ⟨m, e, hme⟩ := hcov hc k hpos (Nat.le_refl _)
      have h1 : k ≤ top := htop _ hme
      have h2 := (List.getElem?_eq_some_iff.mp (hmem m k e hme).2).1
      rw [List.length_take]
      omega
  refine ⟨cs.take top, ⟨fun n i e hi => ?_, fun k e hk' => ?_⟩, fun k kv hkv hc => ⟨hlen hc, ?_⟩⟩
  · obtain ⟨hpos, he⟩ := hmem n i e hi
    have hle : i ≤ top := htop _ hi
    exact ⟨hpos, by rw [List.getElem?_take_of_lt (by omega)]; exact he⟩
  · have hlt := (List.getElem?_eq_some_iff.mp hk').1
    rw [List.length_take] at hlt
    rw [List.getElem?_take_of_lt (by omega)] at hk'
    rcases hat with h0 | ⟨⟨n, i, e'⟩, hx, hi⟩
    · omega
    · obtain ⟨t, kv, ht⟩ := mem_applied.mp hx
      obtain ⟨-, hc⟩ := hk.effect t n _ rfl (Or.inl ht)
      obtain ⟨m, e'', hm⟩ := hcov hc (k + 1) (Nat.succ_pos k) (by
        change i = top at hi
        omega)
      have heq := (hmem m _ e'' hm).2
      rw [Nat.add_sub_cancel, hk'] at heq
      rw [Option.some.inj heq]
      exact ⟨m, hm⟩
  · obtain ⟨T, hT, rfl⟩ := hkv
    have hle := hlen hc
    rw [List.length_take] at hle
    have hpre := (take_isPre_take (g.hist.1.llog T) hT).trans (hcs T)
    have hcl := g.hist.2.sound.lcommit_le T
    rw [List.take_take, Nat.min_eq_left (by omega), take_eq_of_isPre hpre (by
      rw [List.length_take]
      omega), List.take_take, Nat.min_self]

/-- Three nodes that compact once their logs have more than two entries. -/
abbrev compacting : Cluster Medium.bytes :=
  init Medium.bytes (.ofList [1, 2, 3]) fun _ => { snapshotThreshold := 2 }

/-- `put k v` for a one-letter key. -/
def putK (v : String) : Command := .put (Str.lit "k") (Str.lit v)

/-- Node 1 commits three entries at once and compacts them. -/
def compactRun : List Event :=
  [.electionTimer 1 1, .deliver 0, .deliver 2, .submit 1 0 0 (putK "1"), .submit 1 0 0 (putK "2"),
    .submit 1 0 0 (putK "3"), .deliver 5, .deliver 7, .deliver 9, .deliver 13]

/-- Then node 2 leads, with the vote of node 3.  It compacts up to its fourth entry and commits a
fifth with node 3.  Its heartbeat overtakes both entries on the way to node 1, which rejects it;
node 2 now takes node 1 to be behind its snapshot and sends that (packet 31).  The two entries
and the heartbeat arrive after all, and last of all the snapshot. -/
def lateSnapshotRun : List Event :=
  compactRun ++ [Event.electionTimer 2 11, .deliver 15, .deliver 16, .submit 2 0 0 (putK "4"),
    .deliver 20, .deliver 21, .deliver 22, .deliver 23, .submit 2 0 0 (putK "5"), .deliver 25,
    .deliver 26, .heartbeatTimer 2, .deliver 17, .deliver 27, .deliver 30, .deliver 19,
    .deliver 24, .deliver 27, .deliver 31]

end Cluster

end SimKV
