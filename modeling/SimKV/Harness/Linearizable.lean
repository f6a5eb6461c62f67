/-
# The clients see one store

What the program is for: whatever the clients of a cluster record, one store that
executes their commands one at a time would have given them the same answers.  The
order is that of the committed sequence.  Each entry of it serves one recorded
operation (`Harness.Serves`); the store between two entries is the replay of those
before (`Cluster.exists_replays`); an operation that was answered had been applied by
then, with everything before it in the sequence, so whatever stands before it had been
invoked (`Harness.invoked_before`).

Operations of unknown outcome may stand in the order or not.  The checker is narrower
(`SimKV.Checker.Unknown`); a history without them it accepts (`Harness.checker_accepts`).

Each assumption on the run (`Cluster.Benign`) excludes one thing that the code lets
happen and that breaks the result, each shown by a run of its own elsewhere.
-/
import SimKV.Harness.Requests
import SimKV.Raft.Applied
import SimKV.Raft.Leaders

namespace SimKV

open Schedule

/-! ## Histories of one store -/

/-- The store as an object that checks the definite answers only. -/
def KvStore.observe (s : KvStore) (x : HistoryEntry) : Option KvStore :=
  if x.keyOp.certain then s.answer x else some (s.apply x.command).1

/-- One store explains the history: some of the operations of unknown outcome took effect, each at
some point after it was invoked, the operations with a definite answer all did, between their
invocation and their return, and the definite answers are those of the store. -/
def History.Explained (h : History) : Prop :=
  ∃ S : List HistoryEntry, S.Sublist (h.entries.filter fun x => !x.keyOp.certain) ∧
    Schedulable (fun a b => a.keyOp.certain = true ∧ a.ret < b.invoke) KvStore.observe .empty
      (h.entries.filter (fun x => x.keyOp.certain) ++ S)

/-- What `on_reply` records of a result agrees with it. -/
theorem HistoryEntry.agrees_responseOf {x : HistoryEntry} {r : CmdResult} (hok : x.ok = r.ok)
    (hresp : x.response = Workload.responseOf x.kind r) : x.agrees r = true := by
  unfold HistoryEntry.agrees
  cases hk : x.kind with
  | get =>
    rw [hresp, hk]
    exact beq_self_eq_true r.value
  | put =>
    rw [hok]
    exact beq_self_eq_true r.ok
  | cas =>
    rw [hok]
    exact beq_self_eq_true r.ok

/-! ## The committed sequence -/

namespace Cluster

variable {M : Medium} {C : Cluster M}

/-- What does not go wrong in a run: no reply is taken for an answer to another message, snapshots
fit and are not installed late, no entry that a client waits for is replaced, and no crash is
reported to a client that takes it for an answer. -/
structure Benign (C : Cluster M) (es : List Event) : Prop where
  sized : ∀ es', es' <+: es → (C.run es').Sized
  replies : C.Along RepliesFit es
  snapshots : C.Along SnapshotsFit es
  fresh : C.Along SnapshotsFresh es
  pending : C.Along PendingKept es
  crashes : C.Along CrashSpares es

theorem Benign.isPre {es es' : List Event} (h : C.Benign es) (hpre : es' <+: es) :
    C.Benign es' where
  sized es'' h' := h.sized es'' (h'.trans hpre)
  replies := h.replies.isPre hpre
  snapshots := h.snapshots.isPre hpre
  fresh := h.fresh.isPre hpre
  pending := h.pending.isPre hpre
  crashes := h.crashes.isPre hpre

/-- The conditions at one event, on the byte formats, where all of them can be checked. -/
def BenignAt (C : Cluster Medium.bytes) (e : Event) : Prop :=
  (C.exec e).Fits ∧ C.RepliesFit e ∧ C.SnapshotsFit e ∧ C.SnapshotsFresh e ∧ C.PendingKept e ∧
    C.CrashSpares e

instance (C : Cluster Medium.bytes) (e : Event) : Decidable (C.BenignAt e) :=
  inferInstanceAs (Decidable (_ ∧ _))

theorem Benign.of_along {C : Cluster Medium.bytes} {es : List Event} (hfits : C.Fits)
    (h : C.Along BenignAt es) : C.Benign es where
  sized es' hpre := by
    rcases List.eq_nil_or_concat es' with rfl | ⟨l, e, rfl⟩
    · exact hfits.sized
    · rw [List.concat_eq_append] at hpre ⊢
      rw [run_append]
      exact (h.at hpre).1.sized
  replies := along_of_at fun _ _ hpre => (h.at hpre).2.1
  snapshots := along_of_at fun _ _ hpre => (h.at hpre).2.2.1
  fresh := along_of_at fun _ _ hpre => (h.at hpre).2.2.2.1
  pending := along_of_at fun _ _ hpre => (h.at hpre).2.2.2.2.1
  crashes := along_of_at fun _ _ hpre => (h.at hpre).2.2.2.2.2

section Sequences

variable {mem : Membership} {cfg : NodeId → RaftConfig} {es : List Event}

theorem Benign.charted (hb : (init M mem cfg).Benign es) (hplain : ∀ e ∈ es, e.plain = true)
    (hcfg : ∀ n ∈ mem.members, ConfigOk .snapshots (cfg n)) :
    (init M mem cfg).Charted .snapshots mem.quorums es :=
  charted_snapshots hcfg hb.sized hplain hb.replies hb.snapshots

/-- The committed sequence of a run; every entry was applied to the store after those before. -/
theorem exists_replays (hplain : ∀ e ∈ es, e.plain = true)
    (hcfg : ∀ n ∈ mem.members, ConfigOk .snapshots (cfg n)) (hb : (init M mem cfg).Benign es) :
    ∃ cs, ((init M mem cfg).run es).Sequence cs ∧ ∀ t n i e kv,
      (t, n, .applied i e kv) ∈ ((init M mem cfg).run es).trace →
      kv = KvStore.replay ((cs.take (i - 1)).map LogEntry.cmd) := by
  have hc := hb.charted hplain hcfg
  obtain ⟨g, hg⟩ := kv_run trivial hc hb.fresh
  obtain ⟨cs, hcs, hrep⟩ := exists_sequence trivial (hc.settled es) hg
  refine ⟨cs, hcs, fun t n i e kv ht => ?_⟩
  obtain ⟨hkv, hcov⟩ := (Invariant.HoldsIn.layered_iff.mp hg).2.effect t n _ rfl
    ((hc.settled es).traced_iff.mpr ht)
  exact (hrep _ _ hkv (hcov.mono (Set.Subset.refl _) (Nat.sub_le i 1))).2

end Sequences

end Cluster

/-! ## Entries and operations -/

namespace Harness

variable {M : Medium}

/-- The log entry `e` was placed for the recorded operation `x`. -/
structure Serves (H : Harness M) (e : LogEntry) (x : HistoryEntry) : Prop where
  mem : x ∈ H.workload.history.entries
  cmd : x.command = e.cmd
  placed : ∃ m cb, (m, cb, e) ∈ H.cluster.placings ∧ cb.origin = some (x.clientId, x.request)

section Run

variable {mem : Membership} {cfg : NodeId → RaftConfig} {wcfg : WorkloadConfig}
  {nodes : List NodeId} {es : List HarnessEvent}

/-- The clients ask for no change of the membership. -/
theorem clusterEvents_plain (hown : ∀ e ∈ es, e.ownClients = true) :
    ∀ e ∈ (init M mem cfg wcfg nodes).clusterEvents es, e.plain = true := by
  intro e he
  obtain ⟨c, d, hcd⟩ := List.append_of_mem he
  have hpre : c ++ [e] <+: (init M mem cfg wcfg nodes).clusterEvents es := by
    rw [hcd]
    exact ⟨d, by simp⟩
  obtain ⟨hsubmit, hsend⟩ := asked_by_issue hown hpre
  cases e with
  | submit n cid rid cmd => exact absurd rfl (hsubmit n cid rid cmd)
  | clientSend src dst cr =>
    obtain ⟨-, -, -, i, x, -, -, hreq⟩ := hsend src dst cr rfl
    have hcmd : x.command = cr.cmd := congrArg ClientRequest.cmd hreq
    change (!cr.cmd.isConfig) = true
    rw [← hcmd]
    unfold HistoryEntry.command
    cases x.kind <;> rfl
  | _ => rfl

/-- Operations are known by the ids of their requests. -/
theorem entry_unique {x y : HistoryEntry}
    (hx : x ∈ ((init M mem cfg wcfg nodes).run es).workload.history.entries)
    (hy : y ∈ ((init M mem cfg wcfg nodes).run es).workload.history.entries)
    (hc : x.clientId = y.clientId) (hr : x.requestId = y.requestId) : x = y := by
  obtain ⟨i, hi⟩ := List.getElem?_of_mem hx
  obtain ⟨j, hj⟩ := List.getElem?_of_mem hy
  obtain rfl := ((kept_init M mem cfg wcfg nodes).run es).1.numbered.unique i j x y hi hj hc hr
  exact Option.some.inj (hi.symm.trans hj)

theorem entries_nodup :
    ((init M mem cfg wcfg nodes).run es).workload.history.entries.Nodup := by
  rw [List.nodup_iff_getElem?_ne_getElem?]
  intro i j hij hj heq
  have hi : i < ((init M mem cfg wcfg nodes).run es).workload.history.entries.length :=
    Nat.lt_trans hij hj
  have hx := List.getElem?_eq_getElem hi
  have := ((kept_init M mem cfg wcfg nodes).run es).1.numbered.unique i j _ _ hx
    (heq.symm.trans hx) rfl rfl
  omega

variable (hown : ∀ e ∈ es, e.ownClients = true)
  (hcfg : ∀ n ∈ mem.members, ConfigOk .snapshots (cfg n))
  (hb : (Cluster.init M mem cfg).Benign ((init M mem cfg wcfg nodes).clusterEvents es))
  (hcopies : (Cluster.init M mem cfg).Along Cluster.CopiesFresh
    ((init M mem cfg wcfg nodes).clusterEvents es))

include hown in
theorem serves_of_placed {m : NodeId} {cb : Callback} {e : LogEntry}
    (h : (m, cb, e) ∈ ((init M mem cfg wcfg nodes).run es).cluster.placings) :
    ∃ x, ((init M mem cfg wcfg nodes).run es).Serves e x := by
  obtain ⟨i, x, hx, ho, hcmd⟩ := placed_recorded hown h
  exact ⟨x, List.mem_of_getElem? hx, hcmd, m, cb, h, ho⟩

include hown hb in
theorem serves_of_applied {n : NodeId} {i : Nat} {e : LogEntry}
    (h : (n, i, e) ∈ ((init M mem cfg wcfg nodes).run es).cluster.applied) :
    ∃ x, ((init M mem cfg wcfg nodes).run es).Serves e x := by
  rw [run_cluster] at h
  obtain ⟨m, cb, hpl⟩ := Cluster.applied_placed (Cluster.settled_init M mem cfg)
    (Cluster.durable_init M mem cfg) rfl rfl (fun n _ => by rw [Cluster.init_node]; rfl) hb.sized h
  exact serves_of_placed hown (by rw [run_cluster]; exact hpl)

include hown hcfg hb in
/-- An entry serves one operation. -/
theorem Serves.unique {e : LogEntry} {x y : HistoryEntry}
    (hx : ((init M mem cfg wcfg nodes).run es).Serves e x)
    (hy : ((init M mem cfg wcfg nodes).run es).Serves e y) : x = y := by
  obtain ⟨m, cb, hpl, ho⟩ := hx.placed
  obtain ⟨m', cb', hpl', ho'⟩ := hy.placed
  rw [run_cluster] at hpl hpl'
  obtain ⟨t, ht⟩ := Cluster.mem_placings.mp hpl
  obtain ⟨t', ht'⟩ := Cluster.mem_placings.mp hpl'
  obtain ⟨rfl, -⟩ :=
    Cluster.placed_once (hb.charted (clusterEvents_plain hown) hcfg) ht ht' rfl rfl
  obtain ⟨hc, hreq⟩ := Prod.mk.inj (Option.some.inj (ho.symm.trans ho'))
  exact entry_unique hx.mem hy.mem hc (congrArg ClientRequest.requestId hreq)

include hown hcfg hb hcopies in
/-- An operation is served by one committed entry. -/
theorem Serves.index_eq {n n' : NodeId} {i j : Nat} {e e' : LogEntry} {x : HistoryEntry}
    (h : (n, i, e) ∈ ((init M mem cfg wcfg nodes).run es).cluster.applied)
    (h' : (n', j, e') ∈ ((init M mem cfg wcfg nodes).run es).cluster.applied)
    (hx : ((init M mem cfg wcfg nodes).run es).Serves e x)
    (hx' : ((init M mem cfg wcfg nodes).run es).Serves e' x) : i = j := by
  obtain ⟨m, cb, hpl, ho⟩ := hx.placed
  obtain ⟨m', cb', hpl', ho'⟩ := hx'.placed
  rw [run_cluster] at h h' hpl hpl'
  have hid : cb.request? = some (x.clientId, x.requestId) := by
    unfold Callback.request?
    rw [ho]
    rfl
  have hid' : cb'.request? = some (x.clientId, x.requestId) := by
    unfold Callback.request?
    rw [ho']
    rfl
  exact Cluster.request_index_eq trivial (hb.charted (clusterEvents_plain hown) hcfg) hcopies h h'
    hpl hpl' hid hid'

include hown hcfg hb in
/-- The committed sequence and its stores, seen from the harness. -/
theorem exists_replays : ∃ cs, ((init M mem cfg wcfg nodes).run es).cluster.Sequence cs ∧
    ∀ t n i e kv, (t, n, .applied i e kv) ∈ ((init M mem cfg wcfg nodes).run es).cluster.trace →
      kv = KvStore.replay ((cs.take (i - 1)).map LogEntry.cmd) := by
  rw [run_cluster]
  exact Cluster.exists_replays (clusterEvents_plain hown) hcfg hb

theorem trace_mono {es' : List HarnessEvent} (hpre : es' <+: es) {x : Nat × NodeId × Effect M}
    (h : x ∈ ((init M mem cfg wcfg nodes).run es').cluster.trace) :
    x ∈ ((init M mem cfg wcfg nodes).run es).cluster.trace := by
  rw [run_cluster] at h ⊢
  exact Cluster.run_trace_mono (clusterEvents_isPre _ hpre) h

/-- What a harness has recorded and placed it keeps. -/
theorem Serves.mono {es' : List HarnessEvent} (hpre : es' <+: es) {e : LogEntry} {x : HistoryEntry}
    (h : ((init M mem cfg wcfg nodes).run es').Serves e x) :
    ∃ y, ((init M mem cfg wcfg nodes).run es).Serves e y ∧ y.invoke = x.invoke := by
  have hmono := @trace_mono M mem cfg wcfg nodes es es' hpre
  obtain ⟨rest, rfl⟩ := hpre
  obtain ⟨i, hi⟩ := List.getElem?_of_mem h.mem
  obtain ⟨y, hy, hreq, -, hinv, -⟩ :=
    (((kept_init M mem cfg wcfg nodes).run es').1.run rest).2.2 i x hi
  obtain ⟨m, cb, hpl, ho⟩ := h.placed
  obtain ⟨t, ht⟩ := Cluster.mem_placings.mp hpl
  refine ⟨y, ⟨?_, (congrArg ClientRequest.cmd hreq).trans h.cmd, m, cb, ?_, ?_⟩, hinv⟩
  · rw [run_append]
    exact List.mem_of_getElem? hy
  · exact Cluster.mem_placings.mpr ⟨t, hmono ht⟩
  · rw [ho, hreq, show y.clientId = x.clientId from congrArg ClientRequest.clientId hreq]

include hown hb in
/-- A definite answer is that of an entry of the sequence, which had been applied by then. -/
theorem answer_served {y : HistoryEntry}
    (hy : y ∈ ((init M mem cfg wcfg nodes).run es).workload.history.entries)
    (hc : y.keyOp.certain = true) :
    ∃ es', es' <+: es ∧ ((init M mem cfg wcfg nodes).run es').now = y.ret ∧ ∃ t n e kv,
      (t, n, .applied e.index e kv) ∈ ((init M mem cfg wcfg nodes).run es').cluster.trace ∧
      ((init M mem cfg wcfg nodes).run es).Serves e y ∧
      y.agrees (kv.apply e.cmd).2 = true := by
  obtain ⟨i, hi⟩ := List.getElem?_of_mem hy
  obtain ⟨es', hpre, hnow, n, cb, e, t, kv, hpl, ho, happ, hok, hresp⟩ :=
    answer_recorded hown hb.sized hb.pending hb.crashes hi hc
  obtain ⟨t', ht'⟩ := Cluster.mem_placings.mp hpl
  have hpl' := Cluster.mem_placings.mpr ⟨t', trace_mono hpre ht'⟩
  obtain ⟨j, x, hx, hox, hcmd⟩ := placed_recorded hown hpl'
  obtain ⟨hcid, hreq⟩ := Prod.mk.inj (Option.some.inj (ho.symm.trans hox))
  have hyx : y = x := entry_unique hy (List.mem_of_getElem? hx) hcid
    (congrArg ClientRequest.requestId hreq)
  refine ⟨es', hpre, hnow, t, n, e, kv, happ, ⟨hy, ?_, n, cb, hpl', ho⟩,
    HistoryEntry.agrees_responseOf hok hresp⟩
  rw [hyx]
  exact hcmd

include hown hcfg hb hcopies in
/-- **What stands before an answered operation in the sequence was invoked before the answer.** -/
theorem invoked_before {cs : List LogEntry}
    (hcs : ((init M mem cfg wcfg nodes).run es).cluster.Sequence cs) {i j : Nat} (hij : i ≤ j)
    {e e' : LogEntry} (hi : cs[i]? = some e) (hj : cs[j]? = some e') {x y : HistoryEntry}
    (hx : ((init M mem cfg wcfg nodes).run es).Serves e x)
    (hy : ((init M mem cfg wcfg nodes).run es).Serves e' y) (hc : y.keyOp.certain = true) :
    x.invoke ≤ y.ret := by
  obtain ⟨es', hpre, hnow, t, n, e₀, kv, happ, hserve, -⟩ := answer_served hown hb hy.mem hc
  obtain ⟨n', hn'⟩ := hcs.by_some j e' hj
  have hidx := Serves.index_eq hown hcfg hb hcopies
    (Cluster.mem_applied.mpr ⟨t, kv, trace_mono hpre happ⟩) hn' hserve hy
  -- by the time of the answer the sequence had reached `y`, and so `x`
  have hown' : ∀ e ∈ es', e.ownClients = true := fun e he => hown e (hpre.subset he)
  have hb' := hb.isPre (clusterEvents_isPre (init M mem cfg wcfg nodes) hpre)
  obtain ⟨cs', hcs', -⟩ := exists_replays hown' hcfg hb'
  have hlt : e₀.index - 1 < cs'.length :=
    (List.getElem?_eq_some_iff.mp (hcs'.applied n _ _ (Cluster.mem_applied.mpr ⟨t, kv, happ⟩)).2).1
  have hi' : cs'[i]? = some cs'[i] := List.getElem?_eq_getElem (by omega)
  obtain ⟨m, hm⟩ := hcs'.by_some i _ hi'
  obtain ⟨t₁, kv₁, ht₁⟩ := Cluster.mem_applied.mp hm
  -- so its entry had been placed, and the operation recorded
  obtain ⟨x', hx'⟩ := serves_of_applied hown' hb' hm
  have he : cs'[i] = e := by
    have := (hcs.applied m (i + 1) _ (Cluster.mem_applied.mpr ⟨t₁, kv₁, trace_mono hpre ht₁⟩)).2
    exact Option.some.inj (this.symm.trans hi)
  rw [he] at hx'
  obtain ⟨x'', hx'', hinv⟩ := hx'.mono hpre
  rw [Serves.unique hown hcfg hb hx hx'', hinv, ← hnow]
  exact (((kept_init M mem cfg wcfg nodes).run es').1.books.times x' hx'.mem).1

/-! ## The order -/

/-- The operations in the order of the committed sequence. -/
structure Order (H : Harness M) (cs : List LogEntry) (l : List HistoryEntry) : Prop where
  seq : H.cluster.Sequence cs
  length : l.length = cs.length
  serves : ∀ (k : Nat) (x : HistoryEntry), l[k]? = some x → ∃ e, cs[k]? = some e ∧ H.Serves e x

include hown hb in
theorem exists_order {cs : List LogEntry}
    (hcs : ((init M mem cfg wcfg nodes).run es).cluster.Sequence cs) :
    ∃ l, ((init M mem cfg wcfg nodes).run es).Order cs l := by
  have hserved : ∀ e ∈ cs, ∃ x, ((init M mem cfg wcfg nodes).run es).Serves e x := by
    intro e he
    obtain ⟨k, hk⟩ := List.getElem?_of_mem he
    obtain ⟨n, hn⟩ := hcs.by_some k e hk
    exact serves_of_applied hown hb hn
  have : Nonempty HistoryEntry := by
    cases cs with
    | nil => exact ⟨0, 0, .get, Str.lit "", Str.lit "", Str.lit "", 0, 0, Str.lit "", false, true⟩
    | cons e cs => exact ⟨(hserved e List.mem_cons_self).choose⟩
  choose! F hF using hserved
  refine ⟨cs.map F, hcs, List.length_map F, fun k x hx => ?_⟩
  rw [List.getElem?_map] at hx
  obtain ⟨e, he, rfl⟩ := Option.map_eq_some_iff.mp hx
  exact ⟨e, he, hF e (List.mem_of_getElem? he)⟩

variable {cs : List LogEntry} {l : List HistoryEntry}
  (hl : ((init M mem cfg wcfg nodes).run es).Order cs l)

include hown hcfg hb hl in
/-- Every operation with a definite answer is served. -/
theorem Order.answered {y : HistoryEntry}
    (hy : y ∈ ((init M mem cfg wcfg nodes).run es).workload.history.entries)
    (hc : y.keyOp.certain = true) : y ∈ l := by
  obtain ⟨es', hpre, -, t, n, e, kv, happ, hserve, -⟩ := answer_served hown hb hy hc
  have hin := (hl.seq.applied n _ _ (Cluster.mem_applied.mpr ⟨t, kv, trace_mono hpre happ⟩)).2
  have hlt : e.index - 1 < l.length := by
    rw [hl.length]
    exact (List.getElem?_eq_some_iff.mp hin).1
  obtain ⟨e', he', hserve'⟩ := hl.serves _ _ (List.getElem?_eq_getElem hlt)
  obtain rfl : e = e' := Option.some.inj (hin.symm.trans he')
  rw [Serves.unique hown hcfg hb hserve hserve']
  exact List.getElem_mem hlt

include hown hcfg hb hcopies hl

/-- No operation is served twice. -/
theorem Order.nodup : l.Nodup := by
  rw [List.nodup_iff_getElem?_ne_getElem?]
  intro i j hij hj heq
  have hx := List.getElem?_eq_getElem hj
  obtain ⟨e, he, hex⟩ := hl.serves i _ (heq.trans hx)
  obtain ⟨e', he', hex'⟩ := hl.serves j _ hx
  obtain ⟨n, hn⟩ := hl.seq.by_some i e he
  obtain ⟨n', hn'⟩ := hl.seq.by_some j e' he'
  have := Serves.index_eq hown hcfg hb hcopies hn hn' hex hex'
  omega

/-- No operation is behind one that was invoked after it had returned. -/
theorem Order.inOrder : InOrder (fun a b => a.keyOp.certain = true ∧ a.ret < b.invoke) l := by
  refine List.pairwise_iff_getElem.mpr fun i j hi hj hij => ?_
  rintro ⟨hc, hret⟩
  obtain ⟨e, he, hex⟩ := hl.serves i _ (List.getElem?_eq_getElem hi)
  obtain ⟨e', he', hey⟩ := hl.serves j _ (List.getElem?_eq_getElem hj)
  have := invoked_before hown hcfg hb hcopies hl.seq (Nat.le_of_lt hij) he he' hex hey hc
  omega

/-- The store gives the definite answers. -/
theorem Order.accepts (hrep : ∀ t n i e kv,
      (t, n, .applied i e kv) ∈ ((init M mem cfg wcfg nodes).run es).cluster.trace →
      kv = KvStore.replay ((cs.take (i - 1)).map LogEntry.cmd)) :
    Accepts KvStore.observe .empty l := by
  refine accepts_of_states (fun k => KvStore.replay ((cs.take k).map LogEntry.cmd)) ?_
  intro k x hx
  obtain ⟨e, he, hex⟩ := hl.serves k x hx
  have hnext : KvStore.replay ((cs.take (k + 1)).map LogEntry.cmd) =
      ((KvStore.replay ((cs.take k).map LogEntry.cmd)).apply x.command).1 := by
    rw [List.take_add_one, he, Option.toList_some, List.map_append, List.map_singleton,
      KvStore.replay_concat, hex.cmd]
  rw [hnext]
  unfold KvStore.observe
  cases hc : x.keyOp.certain with
  | false => rfl
  | true =>
    obtain ⟨es', hpre, -, t, n, e₀, kv, happ, hserve, hag⟩ := answer_served hown hb hex.mem hc
    have happ := trace_mono hpre happ
    -- the entry that was answered is this one, and was applied to this store
    obtain ⟨n', hn'⟩ := hl.seq.by_some k e he
    have hidx := Serves.index_eq hown hcfg hb hcopies (Cluster.mem_applied.mpr ⟨t, kv, happ⟩) hn'
      hserve hex
    rw [hrep t n _ _ kv happ, hidx, Nat.add_sub_cancel, ← hserve.cmd] at hag
    exact if_pos hag

end Run

/-- The order of the committed entries explains the history. -/
theorem explained {mem : Membership} {cfg : NodeId → RaftConfig} {wcfg : WorkloadConfig}
    {nodes : List NodeId} {es : List HarnessEvent} (hown : ∀ e ∈ es, e.ownClients = true)
    (hcfg : ∀ n ∈ mem.members, ConfigOk .snapshots (cfg n))
    (hb : (Cluster.init M mem cfg).Benign ((init M mem cfg wcfg nodes).clusterEvents es))
    (hcopies : (Cluster.init M mem cfg).Along Cluster.CopiesFresh
      ((init M mem cfg wcfg nodes).clusterEvents es)) :
    ((init M mem cfg wcfg nodes).run es).workload.history.Explained := by
  obtain ⟨cs, hcs, hrep⟩ := exists_replays hown hcfg hb
  obtain ⟨l, hl⟩ := exists_order hown hb hcs
  refine exists_schedulable entries_nodup (Order.nodup hown hcfg hb hcopies hl) (fun x hx => ?_)
    (fun y hy hc => Order.answered hown hcfg hb hl hy hc) (Order.inOrder hown hcfg hb hcopies hl)
    (Order.accepts hown hcfg hb hcopies hl hrep)
  obtain ⟨k, hk⟩ := List.getElem?_of_mem hx
  obtain ⟨e, -, hserve⟩ := hl.serves k x hk
  exact hserve.mem

/-- A Put of the client is committed with node 2 and answered; then a Get reads what was put. -/
def readBackRun : List HarnessEvent :=
  pendingRun .put ++
    [.cluster (.deliver 6), .cluster (.deliver 8), .tick 5, .reply 0 9, .tick 1,
      .issue 0 .get (Str.lit "k") (Str.lit "") (Str.lit ""), .cluster (.deliver 10),
      .cluster (.deliver 11), .cluster (.deliver 13), .tick 1, .reply 0 14]

theorem readBack_benign : (Cluster.init Medium.bytes (.ofList [1, 2, 3]) fun _ => {}).Benign
    (oneClient.clusterEvents readBackRun) :=
  .of_along (by decide +kernel) (by decide +kernel)

end Harness

end SimKV
