/-
# Dying in the middle of a step

The simulator crashes a node between steps; a process can die inside one.  A step
makes its calls on the three stores one after another (`storeCalls`), so a process
that dies leaves the stores as some first part `done` of these calls left them, and
a new process on the same files begins with `start` (`Node.reopened`).

Every rewrite of a store is `truncate_to(0)`, `append`, `flush`, and the truncation
is durable at once.  Between it and the flush the store is empty, and `start` takes
an empty store for that of a new node: a vote, a term, the whole log or the
snapshot is forgotten.  Where the process dies before the first or after the last
call of the step on a store, what it recovers from that store is the value from
before or after the step.
-/
import SimKV.Raft.Writes

namespace SimKV

variable {M : Medium}

/-! ## Recovery -/

namespace Node

/-- A new process of the same server on what the calls `done` of the old one left in the files. -/
def reopened (s : Node M) (peers : List NodeId) (done : List (StoreId × StoreCall M.Cell)) :
    Node M :=
  { Node.init M s.id peers s.cfg with
    metaStore := (s.metaStore.calls (callsOn .metaStore done)).crash
    logStore := (s.logStore.calls (callsOn .logStore done)).crash
    snapshotStore := (s.snapshotStore.calls (callsOn .snapshotStore done)).crash }

/-- That process after `start`. -/
def recovered (s : Node M) (peers : List NodeId) (done : List (StoreId × StoreCall M.Cell)) :
    Node M :=
  (s.reopened peers done).start.state

/-- Term and vote. -/
def metaRecord (s : Node M) : Meta := ⟨s.currentTerm, s.votedFor⟩

def snapshotRecord (s : Node M) : Snapshot M.Blob := ⟨s.snapLastIndex, s.snapLastTerm, s.snapData⟩

/-- Of term and vote, of the log and of the snapshot, `r` has the value of `s` or that of `s'`. -/
structure OldOrNew (s s' r : Node M) : Prop where
  metaRecord : r.metaRecord = s.metaRecord ∨ r.metaRecord = s'.metaRecord
  log : r.log = s.log ∨ r.log = s'.log
  snapshotRecord : r.snapshotRecord = s.snapshotRecord ∨ r.snapshotRecord = s'.snapshotRecord

/-- For each store, none or all of the calls of the step have been made; and where the log store
holds nothing yet, the snapshot store has not been touched either. -/
structure Between (s : Node M) (done rest : List (StoreId × StoreCall M.Cell)) : Prop where
  whole : ∀ which, callsOn which done = [] ∨ callsOn which rest = []
  logFirst : callsOn .snapshotStore done = [] ∨ callsOn .logStore done ≠ [] ∨
    s.logStore.durableSize ≠ 0

end Node

/-- What `start` makes of stores that mirror a state `v` is that state: whatever the fields were
before, the stores decide. -/
theorem Mirror.start_eq {v r : Node M} (h : Mirror v) (hsz : NodeSized v)
    (hcommit : v.commitIndex = v.snapLastIndex) (happ : v.lastApplied = v.snapLastIndex)
    (hrun : v.running = false) (hr : r = { v with
      currentTerm := 0, votedFor := none, log := .empty, kv := .empty
      snapLastIndex := 0, snapLastTerm := 0, snapData := M.noBlob
      commitIndex := 0, lastApplied := 0 }) :
    r.start.state.metaRecord = v.metaRecord ∧ r.start.state.log = v.log ∧
      r.start.state.snapshotRecord = v.snapshotRecord := by
  have hboot : r.reboot = v.reboot := by
    subst hr
    unfold Node.reboot Node.loadSnapshot
    simp only
    rcases h.snap_cases hsz with ⟨he, h1, h2, h3⟩ | ⟨he, hread, -, kv, -, hdec⟩
    · rw [h1] at hcommit happ
      rw [if_pos he, if_pos he, h1, h2, h3, hcommit, happ]
    · simp only [if_neg he, hread, hdec]
  have hrec : Recoverable v .restart := ⟨hsz, fun _ => ⟨hcommit, happ⟩, h, fun _ _ h => nomatch h⟩
  obtain ⟨kv, tm, prs, es, hstart, -⟩ := hrec.restart hrun 0
  have hsame : r.start.state = v.handle 0 .restart := by
    have hrst : r.start = r.restart := by subst hr; rfl
    rw [Node.handle, if_neg (by simp [hrun]), hrst, Node.restart_eq, Node.restart_eq, hboot]
  rw [hsame, hstart]
  exact ⟨rfl, rfl, rfl⟩

/-- Stores taken from three states, each of which they mirror, recover the value of each. -/
theorem recovered_of_stores {s a b c : Node M} {peers : List NodeId}
    {done : List (StoreId × StoreCall M.Cell)} (ha : Mirror a) (hb : Mirror b) (hc : Mirror c)
    (hsa : NodeSized a) (hsb : NodeSized b) (hsc : NodeSized c)
    (hm : s.metaStore.calls (callsOn .metaStore done) = a.metaStore)
    (hl : s.logStore.calls (callsOn .logStore done) = b.logStore)
    (hs : s.snapshotStore.calls (callsOn .snapshotStore done) = c.snapshotStore)
    (hfirst : b.logStore.durableSize = 0 → c.snapshotStore = .empty) :
    (s.recovered peers done).metaRecord = a.metaRecord ∧ (s.recovered peers done).log = b.log ∧
      (s.recovered peers done).snapshotRecord = c.snapshotRecord := by
  have hfm : a.metaStore.crash = a.metaStore := ha.flushed.1
  have hfl : b.logStore.crash = b.logStore := hb.flushed.2.1
  have hfs : c.snapshotStore.crash = c.snapshotStore := hc.flushed.2.2
  let v : Node M := { s.reopened peers done with
    currentTerm := a.currentTerm, votedFor := a.votedFor, log := b.log
    snapLastIndex := c.snapLastIndex, snapLastTerm := c.snapLastTerm, snapData := c.snapData
    commitIndex := c.snapLastIndex, lastApplied := c.snapLastIndex }
  have hvm : v.metaStore = a.metaStore := by
    change (s.metaStore.calls (callsOn .metaStore done)).crash = _
    rw [hm, hfm]
  have hvl : v.logStore = b.logStore := by
    change (s.logStore.calls (callsOn .logStore done)).crash = _
    rw [hl, hfl]
  have hvs : v.snapshotStore = c.snapshotStore := by
    change (s.snapshotStore.calls (callsOn .snapshotStore done)).crash = _
    rw [hs, hfs]
  have hv : Mirror v := by
    refine ⟨?_, ?_, ?_⟩
    · rw [hvm]; exact ha.metaRec
    · rw [hvl]; exact hb.logRec
    · rw [hvl, hvs]
      rcases hc.snapRec with h | ⟨hst, -, hkv⟩
      · exact Or.inl h
      · refine Or.inr ⟨hst, ?_, hkv⟩
        -- a snapshot store that was written goes with a log store that was
        rcases hb.logRec with ⟨he, -⟩ | he
        · have hem := hfirst (by rw [he]; rfl)
          rw [hst] at hem
          exact absurd (congrArg DurableStore.durableSize hem) (Mirror.holding_size hsc.snapRec.1)
        · exact he
  exact hv.start_eq (r := s.reopened peers done) ⟨hsa.metaRec, hsb.logRec, hsc.snapRec, hsc.blob⟩
    rfl rfl rfl rfl

open Node in
/-- A step of a node that writes its stores as it should, cut between the rewrites. -/
theorem Wrote.recovered {s s' : Node M} {es : List (Effect M)}
    {done rest : List (StoreId × StoreCall M.Cell)} (h : s.Wrote es s')
    (hcalls : storeCalls es = done ++ rest) (hm : Mirror s) (hm' : Mirror s') (hs : NodeSized s)
    (hs' : NodeSized s') (hb : s.Between done rest) (peers : List NodeId) :
    s.OldOrNew s' (s.recovered peers done) := by
  -- each store is as it was before the step or as it is after it
  have hstore : ∀ which, ∃ a, (a = s ∧ callsOn which done = [] ∨ a = s' ∧ callsOn which done ≠ []) ∧
      (s.storeOf which).calls (callsOn which done) = a.storeOf which := by
    intro which
    by_cases hnone : callsOn which done = []
    · exact ⟨s, Or.inl ⟨rfl, hnone⟩, by rw [hnone]; rfl⟩
    · have hrest := (hb.whole which).resolve_left hnone
      refine ⟨s', Or.inr ⟨rfl, hnone⟩, ?_⟩
      rw [h.store which, hcalls, callsOn_append, hrest, List.append_nil]
  have hall : ∀ {a : Node M} {P Q : Prop}, a = s ∧ P ∨ a = s' ∧ Q → Mirror a ∧ NodeSized a := by
    rintro a P Q (⟨rfl, -⟩ | ⟨rfl, -⟩)
    · exact ⟨hm, hs⟩
    · exact ⟨hm', hs'⟩
  obtain ⟨a, ha, hast⟩ := hstore .metaStore
  obtain ⟨b, hbm, hbst⟩ := hstore .logStore
  obtain ⟨c, hc, hcst⟩ := hstore .snapshotStore
  have hfirst : b.logStore.durableSize = 0 → c.snapshotStore = .empty := by
    intro hzero
    rcases hbm with ⟨rfl, hlog⟩ | ⟨rfl, hlog⟩
    · have hsnap := hb.logFirst.resolve_right (not_or.mpr ⟨not_not_intro hlog, not_not_intro hzero⟩)
      obtain rfl : c = b := hc.elim And.left fun hne => absurd hsnap hne.2
      rcases hm.snapRec with ⟨he, -⟩ | ⟨-, hl, -⟩
      · exact he
      · rw [hl] at hzero
        exact absurd hzero (Mirror.holding_size hs.logRec.1)
    · refine absurd hzero (h.written fun hnil => hlog ?_)
      rw [hcalls, callsOn_append] at hnil
      exact (List.append_eq_nil_iff.mp hnil).1
  obtain ⟨hmeta, hlog, hsnap⟩ := recovered_of_stores (hall ha).1 (hall hbm).1 (hall hc).1
    (hall ha).2 (hall hbm).2 (hall hc).2 hast hbst hcst hfirst
  refine ⟨?_, ?_, ?_⟩
  · rw [hmeta]; exact ha.imp (fun h => by rw [h.1]) fun h => by rw [h.1]
  · rw [hlog]; exact hbm.imp (fun h => by rw [h.1]) fun h => by rw [h.1]
  · rw [hsnap]; exact hc.imp (fun h => by rw [h.1]) fun h => by rw [h.1]

namespace Cluster

/-- The store calls that node `n` makes when `e` happens. -/
def stepCalls (C : Cluster M) (n : NodeId) (e : Event) : List (StoreId × StoreCall M.Cell) :=
  match C.input e with
  | some (m, inp) => if m = n then storeCalls ((C.node n).handle C.now inp).out else []
  | none => []

/-- What the step of the cluster on `e` writes at node `n`, which may not be the one to move. -/
theorem exec_wrote (hM : M.WritesLogs) {C : Cluster M} (hC : C.Settled) (e : Event) {n : NodeId}
    (hn : n ∈ C.members)
    (hflushed : ∀ which, ((C.node n).storeOf which).crash = (C.node n).storeOf which) :
    ∃ es s', (C.node n).Wrote es s' ∧ storeCalls es = C.stepCalls n e ∧
      (C.exec e).node n = { s' with out := [], applying := none } := by
  have hrest : C.node n = { C.node n with out := [], applying := none } := by
    rw [← (hC n).1, ← (hC n).2.1]
  have hstay : (C.exec e).node n = C.node n → C.stepCalls n e = [] →
      ∃ es s', (C.node n).Wrote es s' ∧ storeCalls es = C.stepCalls n e ∧
        (C.exec e).node n = { s' with out := [], applying := none } := by
    intro hnode hnil
    exact ⟨[], C.node n, .of_unstored rfl (List.append_nil _).symm rfl, hnil.symm,
      hnode.trans hrest⟩
  cases hinp : C.input e with
  | none => exact hstay (exec_node_of_none hinp n) (by simp only [stepCalls, hinp])
  | some p =>
    obtain ⟨m, inp⟩ := p
    by_cases hmn : m = n
    · subst hmn
      obtain ⟨es, hw⟩ := ((C.node m).handle_moves C.now inp (hC m).2).1.writes hM hflushed
      have hes : storeCalls es = C.stepCalls m e := by
        have hout := hw.out
        rw [(hC m).1, List.nil_append] at hout
        simp only [stepCalls, hinp, if_true]
        rw [hout]
      exact ⟨es, _, hw, hes, exec_node hinp hn⟩
    · exact hstay (exec_node_of_ne hinp (Ne.symm hmn)) (by
        simp only [stepCalls, hinp, if_neg hmn])

/-- **Dying between the rewrites.**  In every run whose states fit their formats, a process that
dies before the first or after the last call of a step on each store recovers, for term and vote,
for the log and for the snapshot, the value from before the step or the value from after it. -/
theorem crash_point_recovers (mem : Membership) (cfg : NodeId → RaftConfig) (es : List Event)
    (e : Event) (n : NodeId) (hn : n ∈ mem.members)
    (hfits : ∀ es', es' <+: es ++ [e] → ((init Medium.bytes mem cfg).run es').Fits)
    (peers : List NodeId) (done rest : List (StoreId × StoreCall UInt8))
    (hcalls : ((init Medium.bytes mem cfg).run es).stepCalls n e = done ++ rest)
    (hbetween : (((init Medium.bytes mem cfg).run es).node n).Between done rest) :
    (((init Medium.bytes mem cfg).run es).node n).OldOrNew
      (((init Medium.bytes mem cfg).run (es ++ [e])).node n)
      ((((init Medium.bytes mem cfg).run es).node n).recovered peers done) := by
  have hC := settled_run (settled_init Medium.bytes mem cfg) es
  have hmem : ∀ es', n ∈ ((init Medium.bytes mem cfg).run es').members := fun es' => by
    rw [run_members]; exact hn
  have hmirror : ∀ es', es' <+: es ++ [e] →
      Mirror (((init Medium.bytes mem cfg).run es').node n) := fun es' h =>
    ((durable_init Medium.bytes mem cfg).run (settled_init _ _ _) es'
      fun es'' h' => (hfits es'' (h'.trans h)).sized).mirror n (hmem es')
  have hsized : ∀ es', es' <+: es ++ [e] →
      NodeSized (((init Medium.bytes mem cfg).run es').node n) := fun es' h =>
    (hfits es' h).sized.node n (hmem es')
  have hpre : es <+: es ++ [e] := List.prefix_append _ _
  obtain ⟨out, s', hw, hout, hnode⟩ := exec_wrote Medium.bytes_writesLogs hC e (hmem es)
    (hmirror es hpre).flushed_storeOf
  have hm' := hmirror _ List.prefix_rfl
  have hs' := hsized _ List.prefix_rfl
  have hrun : (init Medium.bytes mem cfg).run (es ++ [e]) =
      ((init Medium.bytes mem cfg).run es).exec e := run_append _ _ _
  rw [hrun, hnode] at hm' hs' ⊢
  have h := Wrote.recovered hw (hout.trans hcalls) (hmirror es hpre)
    (hm'.of_eq rfl rfl rfl rfl rfl rfl rfl rfl rfl) (hsized es hpre)
    ⟨hs'.metaRec, hs'.logRec, hs'.snapRec, hs'.blob⟩ hbetween peers
  exact ⟨h.metaRecord, h.log, h.snapshotRecord⟩

/-- The only node of its cluster leads and is about to take a command. -/
def elected : List Event := [.electionTimer 1 1]

def submitPut : Event := .submit 1 0 0 (.put (Str.lit "k") (Str.lit "v"))

/-- The process dies when the meta store is rewritten and the log store is not touched yet. -/
theorem crash_point_recovers_single :
    (((ofIds [1]).run elected).node 1).OldOrNew (((ofIds [1]).run (elected ++ [submitPut])).node 1)
      ((((ofIds [1]).run elected).node 1).recovered []
        ((((ofIds [1]).run elected).stepCalls 1 submitPut).take 3)) := by
  refine crash_point_recovers (.ofList [1]) (fun _ => {}) elected submitPut 1 (by decide) ?_ []
    _ ((((ofIds [1]).run elected).stepCalls 1 submitPut).drop 3) (List.take_append_drop _ _).symm ?_
  · intro es' h
    rw [← List.mem_inits] at h
    revert es'
    decide +kernel
  · refine ⟨fun which => ?_, Or.inl (by decide +kernel)⟩
    cases which <;> decide +kernel

/-- Node 2 is elected with the vote of node 1, and its heartbeat is on the way. -/
def votedRun : List Event := [.electionTimer 2 1, .deliver 0, .deliver 2]

/-- **A torn rewrite forgets a vote.**  Node 1 has voted for node 2 in term 1 and handles a
heartbeat of that term; the process dies after the first call, `truncate_to(0)` on the meta store,
and `start` finds term 0 and no vote. -/
theorem torn_rewrite_forgets :
    (((ofIds [1, 2, 3]).run votedRun).stepCalls 1 (.deliver 3)).take 1 =
      [(.metaStore, .truncateTo 0)] ∧
    (((ofIds [1, 2, 3]).run votedRun).node 1).metaRecord = ⟨1, some 2⟩ ∧
    (((ofIds [1, 2, 3]).run (votedRun ++ [Event.deliver 3])).node 1).metaRecord = ⟨1, some 2⟩ ∧
    ((((ofIds [1, 2, 3]).run votedRun).node 1).recovered [2, 3]
      [(.metaStore, .truncateTo 0)]).metaRecord = ⟨0, none⟩ := by
  decide +kernel

end Cluster

end SimKV
