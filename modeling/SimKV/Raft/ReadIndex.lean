/-
# What a read sees

`read_index` notes the leader's commit index, and answers from the store once a
quorum has confirmed the leader and the store has reached that index.  For the answer
to be no older than anything acknowledged before the call, the index noted must cover
all of that.  Three things make it so:

  * the nodes that confirm do so after the call, in the leader's term, so no later
    leader can have committed anything before the call (`World.Sound.committed_le`);
    the rounds tell the requests of one call from those of another (`round_lt`);
  * the leader's commit index covers what earlier leaders have committed, which the
    code does not see to: a leader that has committed nothing in its own term may not
    know (`ReadsCovered` is the condition, `stale_read` the failure);
  * whoever was told of a success had its own command applied (`SimKV.Raft.Clients`).

The value is then that of a replay of the committed sequence which contains every
acknowledged command (`read_sees_acknowledged`).
-/
import SimKV.Raft.Applied
import SimKV.Raft.Clients
import SimKV.Raft.Reads

namespace SimKV

open TermLog

variable {M : Medium}

/-! ## Reads and rounds of one node -/

namespace Node

/-- `P` holds of the term and of every waiting read. -/
def Reading (P : Nat → PendingRead → Prop) (s : Node M) : Prop :=
  ∀ pr ∈ s.pendingReads, P s.currentTerm pr

theorem Reading.frame {P : Nat → PendingRead → Prop} {s s' : Node M} (h : s.Reading P)
    (hT : s'.currentTerm = s.currentTerm) (hprs : ∀ pr ∈ s'.pendingReads, pr ∈ s.pendingReads) :
    s'.Reading P := fun pr hpr => by
  rw [hT]
  exact h pr (hprs pr hpr)

theorem Reading.of_nil {P : Nat → PendingRead → Prop} {s : Node M} (h : s.pendingReads = []) :
    s.Reading P := fun pr hpr => by
  rw [h] at hpr
  exact absurd hpr List.not_mem_nil

end Node

/-- **Every move keeps what is known of the waiting reads**, if it does not depend on the acks and
holds of the one that the step begins. -/
theorem Move.reading {n₀ s s' : Node M} {t : Nat} {inp : Input M} {P : Nat → PendingRead → Prop}
    (h : Move n₀ t inp s s') (hrec : Recoverable n₀ inp)
    (hidle : s.role ≠ .leader → s.pendingReads = [])
    (hacks : ∀ T pr a, P T pr → P T { pr with acks := a })
    (hnew : ∀ key, inp = .readIndex key → n₀.role = .leader →
      P n₀.currentTerm ⟨n₀.nextReadRound, n₀.commitIndex, key, t, 1⟩)
    (hs : s.Reading P) : s'.Reading P := by
  cases h with
  | newTerm => exact .of_nil rfl
  | follow l tm prs es hq hprs =>
    refine hs.frame rfl fun pr hpr => ?_
    rcases hprs with rfl | ⟨rfl, -⟩
    · exact absurd hpr List.not_mem_nil
    · exact hpr
  | stand tm es es' hq hq' hrun hrole => exact .of_nil (hidle hrole)
  | drain => exact hs.frame rfl fun _ h => List.mem_of_mem_filter h
  | ackRead src rep =>
    intro pr hpr
    rcases Node.mem_ackRead hpr with hpr | ⟨pr', hpr', -, rfl⟩
    · exact hs pr hpr
    · exact hacks _ _ _ (hs pr' hpr')
  | beginRead key hinp h₀ hrun hrole =>
    subst h₀
    intro pr hpr
    rcases List.mem_append.mp hpr with hpr | hpr
    · exact hs pr hpr
    · rw [List.mem_singleton.mp hpr]
      exact hnew key hinp hrole
  | readTimeout round prs es hq hprs => exact hs.frame rfl hprs
  | crash kv => exact .of_nil rfl
  | crashFail err hinp h₀ hne hdec => exact (hrec.not_crashFail h₀ hne hdec).elim
  | boot _ hinp h₀ hrun hboot =>
    obtain ⟨kv, rfl, -⟩ := hrec.booted h₀ hrun hboot
    exact hs.frame rfl fun _ h => h
  | _ => exact hs.frame rfl fun _ h => h

/-- Rounds are never used again. -/
theorem Move.nextReadRound_le {n₀ s s' : Node M} {t : Nat} {inp : Input M}
    (h : Move n₀ t inp s s') : s.nextReadRound ≤ s'.nextReadRound := by
  cases h with
  | beginRead key => exact Nat.le_succ _
  | boot _ hinp h₀ hrun hboot =>
    obtain ⟨T, v, l, kv, i, t, d, c, a, rfl, -⟩ := Node.Reloads.of_boot hboot
    exact Nat.le_refl _
  | _ => exact Nat.le_refl _

theorem Moves.nextReadRound_le {n₀ s s' : Node M} {t : Nat} {inp : Input M}
    (h : Moves n₀ t inp s s') : s.nextReadRound ≤ s'.nextReadRound := by
  induction h with
  | refl => exact Nat.le_refl _
  | tail _ hm ih => exact Nat.le_trans ih hm.nextReadRound_le

namespace Cluster

variable {C : Cluster M} {es : List Event}

/-! ## Rounds of a run -/

theorem exec_nextReadRound_le (hC : C.Settled) (e : Event) (n : NodeId) :
    (C.node n).nextReadRound ≤ ((C.exec e).node n).nextReadRound := by
  rcases C.exec_node_cases e n with hstay | ⟨inp, -, -, hstep⟩
  · rw [hstay]
  · rw [hstep]
    exact (Node.handle_moves (C.node n) C.now inp (hC n).2).1.nextReadRound_le

theorem run_nextReadRound_le (hC : C.Settled) {es' : List Event} (hpre : es' <+: es) (n : NodeId) :
    ((C.run es').node n).nextReadRound ≤ ((C.run es).node n).nextReadRound := by
  obtain ⟨rest, rfl⟩ := hpre
  induction rest using List.reverseRecOn with
  | nil => rw [List.append_nil]
  | append_singleton rest e ih =>
    rw [← List.append_assoc, run_append C (es' ++ rest)]
    exact Nat.le_trans ih (exec_nextReadRound_le (settled_run hC _) e n)

/-- The round of every `ReadIndexRequest` in the network has been used. -/
theorem round_lt (hC : C.Settled) (hnet : C.net = []) {p : Packet M} {req : ReadIndexRequest}
    (hp : p ∈ (C.run es).net) (hmsg : p.msg = .readIndexRequest req) :
    req.round < ((C.run es).node p.src).nextReadRound := by
  obtain ⟨es', e, k, hpre, hsent⟩ := exists_sentBy hnet hp
  rcases hsent.emitted (settled_run hC es') with
    ⟨inp, s, s', hinp, hn, -, hem, -, hrest⟩ | ⟨cr, hcr, -⟩
  · refine Nat.lt_of_lt_of_le ?_ (run_nextReadRound_le hC hpre p.src)
    rw [run_append]
    change _ < (((C.run es').exec e).node p.src).nextReadRound
    rw [exec_node hinp hn]
    change _ < (((C.run es').node p.src).handle (C.run es').now inp).nextReadRound
    rw [hmsg] at hem
    cases hem with
    | readIndexRequest d key hd hreq h₀ hrole hs =>
      refine Nat.lt_of_lt_of_le ?_ (Moves.nextReadRound_le hrest)
      obtain ⟨xs, hb⟩ := s.beginRead_frame key (C.run es').now
      rw [hs, hb]
      exact Nat.lt_succ_self _
  · rw [hmsg] at hcr
    exact nomatch hcr

/-! ## Where a read comes from -/

/-- The call of `read_index` that a waiting read comes from: the run up to it, and the leader at
the time. -/
structure AskedAt (C : Cluster M) (es₁ : List Event) (n : NodeId) (T : Nat) (pr : PendingRead) :
    Prop where
  ticket : (C.run es₁).now = pr.ticket
  role : ((C.run es₁).node n).role = .leader
  term : ((C.run es₁).node n).currentTerm = T
  index : ((C.run es₁).node n).commitIndex = pr.readIndex
  round : ((C.run es₁).node n).nextReadRound = pr.round

/-- A read of node `n` in term `T` comes from a call in the run. -/
def Asked (C : Cluster M) (es : List Event) (n : NodeId) (T : Nat) (pr : PendingRead) : Prop :=
  ∃ es₁, es₁ ++ [Event.readIndex n pr.key] <+: es ∧ C.AskedAt es₁ n T pr

theorem Asked.acks {n : NodeId} {T : Nat} {pr : PendingRead} (a : Nat) (h : C.Asked es n T pr) :
    C.Asked es n T { pr with acks := a } := by
  obtain ⟨es₁, hpre, hat⟩ := h
  exact ⟨es₁, hpre, hat.ticket, hat.role, hat.term, hat.index, hat.round⟩

/-- An input of `read_index` is a call. -/
theorem input_readIndex {e : Event} {n : NodeId} {key : Str}
    (h : C.input e = some (n, .readIndex key)) : e = .readIndex n key := by
  cases e with
  | deliver k =>
    simp only [input, Option.map_eq_some_iff, Prod.mk.injEq] at h
    obtain ⟨p, -, -, h⟩ := h
    cases h
  | readIndex m key' =>
    simp only [input, Option.some.injEq, Prod.mk.injEq, Input.readIndex.injEq] at h
    rw [h.1, h.2]
  | clientSend => cases h
  | _ => simp [input] at h

section Run

variable (hC : C.Settled) (hd : C.Durable) (h₀ : ∀ n ∈ C.members, (C.node n).Counted [] n)

include hC hd h₀

/-- One move of a step, from the run before it. -/
theorem asked_move {e : Event} (hs : ∀ es', es' <+: es ++ [e] → (C.run es').Sized)
    (hack : (C.readAcks (es ++ [e])).Nodup) {n : NodeId} {inp : Input M} {s s' : Node M}
    (hinp : (C.run es).input e = some (n, inp)) (hn : n ∈ C.members)
    (hms : Moves ((C.run es).node n) (C.run es).now inp ((C.run es).node n) s)
    (hm : Move ((C.run es).node n) (C.run es).now inp s s')
    (h : s.Reading (C.Asked (es ++ [e]) n)) : s'.Reading (C.Asked (es ++ [e]) n) := by
  have hs' : ∀ es', es' <+: es → (C.run es').Sized := fun es' h =>
    hs es' (h.trans (List.prefix_append _ _))
  refine hm.reading ((hd.run hC es hs').recoverable (hs' es List.prefix_rfl) hinp
    (by rw [run_members]; exact hn)) (counted_moves hC hd h₀ hs hack hinp hn hms).idle
    (fun T pr a h => h.acks a) (fun key hkey hrole => ?_) h
  subst hkey
  exact ⟨es, by rw [input_readIndex hinp], rfl, hrole, rfl, rfl, rfl⟩

/-- **Every waiting read comes from a call.** -/
theorem asked_run (hnone : ∀ n ∈ C.members, (C.node n).pendingReads = [])
    (hs : ∀ es', es' <+: es → (C.run es').Sized) (hack : (C.readAcks es).Nodup) :
    ∀ n ∈ C.members, ((C.run es).node n).Reading (C.Asked es n) := by
  induction es using List.reverseRecOn with
  | nil => exact fun n hn => .of_nil (hnone n hn)
  | append_singleton es e ih =>
    have hack' : (C.readAcks es).Nodup := by
      rw [readAcks, collect_concat] at hack
      exact hack.of_append_left
    have ih := ih (fun es' h => hs es' (h.trans (List.prefix_append _ _))) hack'
    rw [run_append]
    change ∀ n ∈ C.members, Node.Reading _ (((C.run es).exec e).node n)
    rw [← run_members C es] at ih ⊢
    refine local_exec (K := fun n s => s.Reading (C.Asked (es ++ [e]) n)) (settled_run hC es)
      (fun n hn pr hpr => ?_) (fun n inp s s' hinp hn hms hm h => ?_)
      fun n s _ h => h.frame rfl fun _ h => h
    · obtain ⟨es₁, hpre, hat⟩ := ih n hn pr hpr
      exact ⟨es₁, hpre.trans (List.prefix_append _ _), hat⟩
    · exact asked_move hC hd h₀ hs hack hinp (by rwa [run_members] at hn) hms hm h

/-- The reads that wait at any point of a step. -/
theorem asked_moves (hnone : ∀ n ∈ C.members, (C.node n).pendingReads = []) {e : Event}
    (hs : ∀ es', es' <+: es ++ [e] → (C.run es').Sized)
    (hack : (C.readAcks (es ++ [e])).Nodup) {n : NodeId} {inp : Input M} {s : Node M}
    (hinp : (C.run es).input e = some (n, inp)) (hn : n ∈ C.members)
    (hms : Moves ((C.run es).node n) (C.run es).now inp ((C.run es).node n) s) :
    s.Reading (C.Asked (es ++ [e]) n) := by
  induction hms with
  | refl =>
    have hack' : (C.readAcks es).Nodup := by
      rw [readAcks, collect_concat] at hack
      exact hack.of_append_left
    intro pr hpr
    obtain ⟨es₁, hpre, hat⟩ := asked_run hC hd h₀ hnone
      (fun es' h => hs es' (h.trans (List.prefix_append _ _))) hack' n hn pr hpr
    exact ⟨es₁, hpre.trans (List.prefix_append _ _), hat⟩
  | tail hms hm ih => exact asked_move hC hd h₀ hs hack hinp hn hms hm ih

end Run

/-! ## The history around a read -/

/-- A leader takes a read only when its log ends at its commit index, or has an entry of its own
term there. -/
def ReadsCovered (C : Cluster M) : Event → Prop
  | .readIndex n _ => (C.node n).role = .leader →
      (C.node n).commitIndex = (C.node n).log.lastIndex ∨
      (C.node n).log.termAt (C.node n).commitIndex = some (C.node n).currentTerm
  | _ => True

instance (C : Cluster M) (e : Event) : Decidable (C.ReadsCovered e) := by
  unfold ReadsCovered
  cases e <;> infer_instance

section History

variable {md : Mode} {Q : Quorums NodeId}

/-- **The commit index of a leader that has not been passed covers all that has been applied.** -/
theorem commit_covers {w : CoherentHistory md Q} (hf : md.full)
    (h : (replicaInvariant M md Q).Holds w C) (hmem : Q.voters ⊆ C.members) {n : NodeId}
    (hn : n ∈ C.members) (hrole : (C.node n).role = .leader)
    (hcov : (C.node n).commitIndex = (C.node n).log.lastIndex ∨
      (C.node n).log.termAt (C.node n).commitIndex = some (C.node n).currentTerm)
    {A : Finset NodeId} (hA : Q.IsQuorum A)
    (hterm : ∀ m ∈ A, (C.node m).currentTerm ≤ (C.node n).currentTerm) {m : NodeId} {j : Nat}
    {e : LogEntry} (happ : (m, j, e) ∈ C.applied) : j ≤ (C.node n).commitIndex := by
  have hr : Replica md w.1 n (C.node n) := h.node n hn
  obtain ⟨t, kv, ht⟩ := mem_applied.mp happ
  obtain ⟨-, -, hc⟩ := h.effect t m _ rfl (Or.inl ht)
  obtain ⟨T', hT', -⟩ := hc hf
  refine w.2.sound.committed_le hf hA (fun a ha => ?_) (hr.leader_ne hrole)
    ((hr.lead hrole).lcommit hf) ?_ hT'
  · have hra : Replica md w.1 a (C.node a) := h.node a (hmem (Q.sub hA ha))
    rw [hra.term]
    exact hterm a ha
  · rw [← hr.leading hrole]
    rcases hcov with hcov | hcov
    · exact Or.inl (by rw [hcov, hr.log.lastIndex])
    · right
      have hbase := Nat.le_trans (hr.applied hf).1 (hr.applied hf).2
      have hlen := World.CommittedIn.length_le w.2.sound (hr.commit hf)
      rw [hr.log.termAt hbase hlen, Option.some.injEq] at hcov
      have hlast := stampAt_length ((w.1.log n).take (C.node n).commitIndex)
      rw [List.length_take, Nat.min_eq_left hlen, stampAt_take (Nat.le_refl _), hcov] at hlast
      exact hlast.symm

/-- A node that confirms a read was not past the leader's term when the read was asked for. -/
theorem confirming_term (hc : C.Charted md Q es) {es₁ : List Event} {w : CoherentHistory md Q}
    (h : (replicaInvariant M md Q).Holds w (C.run es₁)) (hpre : es₁ <+: es) {n m : NodeId}
    {T : Nat} {pr : PendingRead} (hat : C.AskedAt es₁ n T pr)
    (hm : m ∈ C.confirming n T pr.round es) : ((C.run es₁).node m).currentTerm ≤ T := by
  obtain ⟨es₃, e₃, hpre₃, hconf⟩ := mem_collect.mp hm
  obtain ⟨hinp, hm', hT⟩ := confirms_spec hconf
  have hle₃ : es₃ <+: es := (List.prefix_append _ _).trans hpre₃
  rcases Nat.lt_or_ge es₁.length es₃.length with hlt | hge
  · -- after the call: terms only grow
    have hpre' := (List.prefix_of_prefix_length_le hpre hle₃ (Nat.le_of_lt hlt)).trans
      (List.prefix_append es₃ [e₃])
    obtain ⟨w₃, hle, hw₃⟩ := replica_from (hc.isPre hpre₃) hpre' h
    have hr₁ : Replica md w.1 m _ := h.node m (by
      rw [run_members, ← run_members C es₃]; exact hm')
    have hr₃ : Replica md w₃.1 m _ := hw₃.node m (by
      rw [run_members, ← run_members C es₃]; exact hm')
    rw [run_append] at hr₃
    rw [← hr₁.term, ← hT]
    exact Nat.le_trans ((w.2.steps_extends hle).ballot.term_le m) (Nat.le_of_eq hr₃.term)
  · -- before it, the round had not been used
    obtain ⟨k, p, -, hk, rfl, -, hmsg⟩ := input_message hinp
    obtain ⟨rest, rfl⟩ := List.prefix_of_prefix_length_le hle₃ hpre hge
    have hk' : (C.run (es₃ ++ rest)).net[k]? = some p := by
      rw [run_append]
      exact run_net_getElem? rest hk
    have hlt := round_lt hc.fresh.settled hc.fresh.net (List.mem_of_getElem? hk') hmsg
    rw [hat.round] at hlt
    exact absurd hlt (Nat.lt_irrefl _)

/-- **A ledger passes through every point of a run.** -/
theorem kv_through (hf : md.full) (hc : C.Charted md Q es) (hfresh : C.Along SnapshotsFresh es)
    {es' : List Event} {e : Event} (hpre : es' ++ [e] <+: es) {n : NodeId} {inp : Input M}
    {s : Node M} (hinp : (C.run es').input e = some (n, inp)) (hn : n ∈ (C.run es').members)
    (hms : Moves ((C.run es').node n) (C.run es').now inp ((C.run es').node n) s)
    (hrest : Moves ((C.run es').node n) (C.run es').now inp s
      (((C.run es').node n).handle (C.run es').now inp)) :
    ∃ g g' : Ledger M md Q, g.Le g' ∧ Replica md g.hist.1 n s ∧ KvOk g s ∧
      (kvInvariant M md Q).Holds g' (C.run es) := by
  have hpre' : es' <+: es := (List.prefix_append es' [e]).trans hpre
  obtain ⟨g₀, hg₀⟩ := kv_run hf (hc.isPre hpre') (hfresh.isPre hpre')
  have hw := (Invariant.HoldsIn.layered_iff.mp hg₀).1
  obtain ⟨g, g₁, hle₁, hnode, hg₁⟩ := Invariant.through (hc.settled es') hg₀ hinp hn
    (fun s s' g hle hm hh => kv_advance hf ((hc.allows es' e hpre).given (hc.durable hpre')
      (hc.sized es' hpre') hinp hn (hw.node n hn) hle.1 (Invariant.HoldsIn.layered_iff.mp hh).1)
      hinp hn (hfresh.at hpre) hm hh) hms hrest
  obtain ⟨g', hle', hg'⟩ := Invariant.run_from hpre (fun _ _ h _ hg => kv_step hf hc hfresh h hg)
    (g := g₁) (by rw [run_append]; exact hg₁)
  exact ⟨g, g', (kvInvariant M md Q).le_trans _ _ _ hle₁ hle', hnode.1, hnode.2, hg'⟩

end History

/-- There is one committed sequence. -/
theorem Sequence.unique {cs cs' : List LogEntry} (h : C.Sequence cs) (h' : C.Sequence cs') :
    cs = cs' := by
  refine List.ext_getElem? fun k => Option.ext fun e => ⟨fun he => ?_, fun he => ?_⟩
  · obtain ⟨n, hn⟩ := h.by_some k e he
    exact (h'.applied n _ e hn).2
  · obtain ⟨n, hn⟩ := h'.by_some k e he
    exact (h.applied n _ e hn).2

section Answered

variable {md : Mode}

theorem Fresh.counted (h : C.Fresh) : ∀ n ∈ C.members, (C.node n).Counted [] n := by
  intro n hn
  have hb := h.basic n hn
  obtain ⟨ps, cfg, heq⟩ := h.node n
  rw [heq] at hb ⊢
  exact ⟨hb.id, hb.self, fun _ => rfl, fun _ => rfl, fun pr hpr => absurd hpr List.not_mem_nil⟩

/-- The call behind an answered read: it was made at the step that the ticket names, and whatever
had been applied by then was covered by the commit index, which the store has reached. -/
theorem read_call (hf : md.full) {mem : Membership} (hmem : C.members = mem.members)
    (hc : C.Charted md mem.quorums es) (hcov : C.Along ReadsCovered es)
    (hack : (C.readAcks es).Nodup) {es' : List Event} {e : Event} {n : NodeId} {inp : Input M}
    {s s' : Node M} {ticket : Nat} {v : Option Str} (hpre : es' ++ [e] <+: es)
    (hinp : (C.run es').input e = some (n, inp)) (hn : n ∈ C.members)
    (hms : Moves ((C.run es').node n) (C.run es').now inp ((C.run es').node n) s)
    (hpeers : PeersAre mem.members n s)
    (hem : Emitted ((C.run es').node n) (C.run es').now inp s s' (.readDone ticket true v)) :
    ∃ es₁ key, es₁ ++ [Event.readIndex n key] <+: es ∧ es₁.length = ticket ∧ v = s.kv.get key ∧
      ∀ m j x, (m, j, x) ∈ (C.run es₁).applied → j ≤ s.lastApplied := by
  have hC := hc.fresh
  have hnow : ∀ es₁, (C.run es₁).now = es₁.length := fun es₁ => by
    rw [run_now, hC.now, Nat.zero_add]
  -- a quorum that is not past the leader when the read is asked for is enough
  have hcall : ∀ es₁ key A, es₁ ++ [Event.readIndex n key] <+: es →
      ((C.run es₁).node n).role = .leader → Majority mem.members A →
      (∀ w : CoherentHistory md mem.quorums,
        (replicaInvariant M md mem.quorums).Holds w (C.run es₁) →
        ∀ m ∈ A, ((C.run es₁).node m).currentTerm ≤ ((C.run es₁).node n).currentTerm) →
      ((C.run es₁).node n).commitIndex ≤ s.lastApplied →
      ∀ m j x, (m, j, x) ∈ (C.run es₁).applied → j ≤ s.lastApplied := by
    intro es₁ key A hpre₁ hrole hA hterm hle m j x hx
    obtain ⟨w, hw⟩ := replica_run (hc.isPre ((List.prefix_append _ _).trans hpre₁))
    exact Nat.le_trans (commit_covers hf hw ((run_members C es₁).trans hmem).ge
      (by rw [run_members]; exact hn) hrole (hcov.at hpre₁ hrole) hA (hterm w hw) hx) hle
  have hs' := (hc.isPre hpre).sized
  have hack' : (C.readAcks (es' ++ [e])).Nodup := by
    obtain ⟨rest, rfl⟩ := hpre
    rw [readAcks, collect_append] at hack
    exact hack.of_append_left
  have hn' : n ∈ mem.members := hmem ▸ hn
  cases hem with
  | readDone pr hpr hacks happ =>
    obtain ⟨es₁, hpre₁, hat⟩ := asked_moves hC.settled hC.durable hC.counted
      (fun n _ => by obtain ⟨ps, cfg, heq⟩ := hC.node n; rw [heq]; rfl) hs' hack' hinp hn hms
      pr hpr
    have hq := confirming_quorum hC.settled hC.durable hC.net hC.counted hs' hack' hinp hn hms
      hpr hacks
    refine ⟨es₁, pr.key, hpre₁.trans hpre, (hnow es₁).symm.trans hat.ticket, rfl,
      hcall es₁ pr.key _ (hpre₁.trans hpre) hat.role (hpeers.majority hn' ?_ hq) ?_
        (by rw [hat.index]; exact happ)⟩
    · refine Finset.insert_subset hn' fun m hm => ?_
      obtain ⟨es₃, e₃, -, hconf⟩ := mem_collect.mp (List.mem_toFinset.mp hm)
      have := (confirms_spec hconf).2.1
      rwa [run_members, hmem] at this
    · intro w hw m hm
      rw [hat.term]
      rcases Finset.mem_insert.mp hm with rfl | hm
      · exact Nat.le_of_eq hat.term
      · exact confirming_term (hc.isPre hpre) hw ((List.prefix_append _ _).trans hpre₁) hat
          (List.mem_toFinset.mp hm)
  | readNow key hkey h₀ hrole hnone =>
    subst hkey h₀
    refine ⟨es', key, by rw [← input_readIndex hinp]; exact hpre, (hnow es').symm, rfl,
      hcall es' key {n} (by rw [← input_readIndex hinp]; exact hpre) hrole
        (hpeers.majority hn' (Finset.singleton_subset_iff.mpr hn') ?_) (fun w hw m hm => ?_)
        (hc.settled es' n).2.2⟩
    · rw [Node.quorum, hnone]
      exact Nat.le_refl 1
    · rw [Finset.mem_singleton.mp hm]

end Answered

theorem mem_readsDone {n : NodeId} {ticket : Nat} {v : Option Str} :
    (n, ticket, v) ∈ C.readsDone ↔ ∃ t, (t, n, .readDone ticket true v) ∈ C.trace := by
  unfold readsDone
  rw [List.mem_filterMap]
  constructor
  · rintro ⟨⟨t, m, x⟩, hx, heq⟩
    split at heq
    · rename_i ht
      cases heq
      cases ht
      exact ⟨t, hx⟩
    · exact nomatch heq
  · rintro ⟨t, hx⟩
    exact ⟨_, hx, rfl⟩

/-- Node 1 commits a write, and then answers a read that node 2 has confirmed. -/
def freshReadRun : List Event :=
  answeringRun ++ [Event.readIndex 1 (Str.lit "k"), .deliver 8, .deliver 10]

/-- A cluster of one node commits a write, crashes, restarts and leads again. -/
def forgetfulRun : List Event :=
  [.electionTimer 1 1, .submit 1 0 0 (putK "a"), .crash 1, .restart 1, .electionTimer 1 4]

end Cluster

end SimKV
