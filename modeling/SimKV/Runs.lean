/-
# Invariants of runs

The glue between the moves of one node and the runs of a cluster.  Inside a step
the effects of the moving node are still in its `out`; `InFlight` and `Traced`
see them there as well as in the network and the trace, so a statement about
messages or effects does not change when the step ends (`inFlight_settle`,
`traced_settle`).

`exec_induct` is the one induction of the development: a property that holds
before a step, survives every move of the node that takes it, and does not care
whether the effects have been collected yet, holds after the step.  Nearly every
invariant has the same shape, statements about each node, each packet and each
recorded effect that refer to some abstract state; `Invariant` is that shape, and
`Invariant.exec` says what is left to prove about one move of one node.
-/
import SimKV.Cluster
import SimKV.Raft.Effects

namespace SimKV

namespace Cluster

variable {M : Medium}

/-- The cluster with node `n` in state `s`, in the middle of a step. -/
def set (C : Cluster M) (n : NodeId) (s : Node M) : Cluster M :=
  { C with node := Function.update C.node n s }

@[simp] theorem set_node_self (C : Cluster M) (n : NodeId) (s : Node M) :
    (C.set n s).node n = s := by
  simp [set]

theorem set_node_of_ne (C : Cluster M) {n m : NodeId} (s : Node M) (h : m ≠ n) :
    (C.set n s).node m = C.node m := by
  simp [set, Function.update_of_ne h]

@[simp] theorem set_self (C : Cluster M) (n : NodeId) : C.set n (C.node n) = C := by
  simp [set]

@[simp] theorem set_net (C : Cluster M) (n : NodeId) (s : Node M) :
    (C.set n s).net = C.net := rfl

@[simp] theorem settle_node_self (C : Cluster M) (n : NodeId) (re : Option (Msg M.Blob))
    (s : Node M) : (C.settle n re s).node n = { s with out := [], applying := none } := by
  simp [settle]

theorem settle_node_of_ne (C : Cluster M) {n m : NodeId} (re : Option (Msg M.Blob)) (s : Node M)
    (h : m ≠ n) : (C.settle n re s).node m = C.node m := by
  simp [settle, Function.update_of_ne h]

/-! ## Between steps -/

/-- No step is in progress, and no node has anything left to apply. -/
def Settled (C : Cluster M) : Prop := ∀ n, (C.node n).out = [] ∧ (C.node n).Rested

/-- Packet `p` has been sent; `re` is what the step in progress is handling. -/
def InFlight (C : Cluster M) (re : Option (Msg M.Blob)) (p : Packet M) : Prop :=
  p ∈ C.net ∨ (.send p.dst p.msg ∈ (C.node p.src).out ∧ p.re = re)

/-- Node `n` had effect `e` in step `t`. -/
def Traced (C : Cluster M) (t : Nat) (n : NodeId) (e : Effect M) : Prop :=
  (t, n, e) ∈ C.trace ∨ (t = C.now ∧ e ∈ (C.node n).out)

theorem mem_packets {n : NodeId} {re : Option (Msg M.Blob)} {out : List (Effect M)}
    {p : Packet M} : p ∈ packets n re out ↔ p.src = n ∧ .send p.dst p.msg ∈ out ∧ p.re = re := by
  unfold packets
  rw [List.mem_filterMap]
  constructor
  · rintro ⟨e, he, hp⟩
    cases e with
    | send dst m =>
      simp only [Option.some.injEq] at hp
      subst hp
      exact ⟨rfl, he, rfl⟩
    | _ => simp at hp
  · rintro ⟨rfl, he, rfl⟩
    exact ⟨_, he, rfl⟩

theorem Settled.inFlight_iff {C : Cluster M} (h : C.Settled) {re : Option (Msg M.Blob)}
    {p : Packet M} : C.InFlight re p ↔ p ∈ C.net := by
  unfold InFlight
  rw [(h p.src).1]
  simp

theorem Settled.traced_iff {C : Cluster M} (h : C.Settled) {t : Nat} {n : NodeId}
    {e : Effect M} : C.Traced t n e ↔ (t, n, e) ∈ C.trace := by
  unfold Traced
  rw [(h n).1]
  simp

theorem settled_settle {C : Cluster M} (h : C.Settled) (n : NodeId) (re : Option (Msg M.Blob))
    {s : Node M} (hs : s.Rested) : (C.settle n re s).Settled := by
  intro m
  by_cases hm : m = n
  · subst hm
    rw [settle_node_self]
    exact ⟨rfl, rfl, hs.2⟩
  · rw [settle_node_of_ne C re s hm]
    exact h m

/-- The end of a step leaves no effect uncollected. -/
theorem settle_out {C : Cluster M} (h : C.Settled) (n : NodeId) (re : Option (Msg M.Blob))
    (s : Node M) (m : NodeId) : ((C.settle n re s).node m).out = [] := by
  by_cases hm : m = n
  · subst hm
    rw [settle_node_self]
  · rw [settle_node_of_ne C re s hm]
    exact (h m).1

/-- Packets that arrive from outside and the passing of time settle nothing. -/
theorem settled_tick {C : Cluster M} (h : C.Settled) (net : List (Packet M)) (now : Nat) :
    Settled { C with net := net, now := now } := h

/-- The packets in flight do not change when a step ends. -/
theorem inFlight_settle {C : Cluster M} (h : C.Settled) {n : NodeId} {re re' : Option (Msg M.Blob)}
    {s : Node M} {p : Packet M} :
    (C.settle n re s).InFlight re' p ↔ (C.set n s).InFlight re p := by
  unfold InFlight
  rw [settle_out h n re s p.src]
  simp only [List.not_mem_nil, false_and, or_false]
  change p ∈ C.net ++ packets n re s.out ↔ _
  rw [List.mem_append, mem_packets]
  by_cases hp : p.src = n
  · subst hp
    rw [set_node_self]
    simp
  · rw [set_node_of_ne C s hp, (h p.src).1]
    simp [hp]

/-- The effects so far do not change when a step ends. -/
theorem traced_settle {C : Cluster M} (h : C.Settled) {n : NodeId} {re : Option (Msg M.Blob)}
    {s : Node M} {t : Nat} {m : NodeId} {e : Effect M} :
    (C.settle n re s).Traced t m e ↔ (C.set n s).Traced t m e := by
  unfold Traced
  rw [settle_out h n re s m]
  simp only [List.not_mem_nil, and_false, or_false]
  change (t, m, e) ∈ C.trace ++ s.out.map (fun e => (C.now, n, e)) ↔ _
  rw [List.mem_append, List.mem_map]
  by_cases hm : m = n
  · subst hm
    rw [set_node_self]
    constructor
    · rintro (h1 | ⟨e', he', heq⟩)
      · exact Or.inl h1
      · simp only [Prod.mk.injEq] at heq
        obtain ⟨rfl, -, rfl⟩ := heq
        exact Or.inr ⟨rfl, he'⟩
    · rintro (h1 | ⟨rfl, he⟩)
      · exact Or.inl h1
      · exact Or.inr ⟨e, he, rfl⟩
  · rw [set_node_of_ne C s hm, (h m).1]
    constructor
    · rintro (h1 | ⟨e', -, heq⟩)
      · exact Or.inl h1
      · simp only [Prod.mk.injEq] at heq
        exact absurd heq.2.1.symm hm
    · rintro (h1 | ⟨-, he⟩)
      · exact Or.inl h1
      · simp at he

/-! ## What an event is to its node -/

/-- A message that is delivered was sent. -/
theorem input_message {C : Cluster M} {e : Event} {n src : NodeId} {m : Msg M.Blob}
    (h : C.input e = some (n, .message src m)) :
    ∃ k p, e = .deliver k ∧ C.net[k]? = some p ∧ p.src = src ∧ p.dst = n ∧ p.msg = m := by
  cases e with
  | deliver k =>
    simp only [input, Option.map_eq_some_iff, Prod.mk.injEq, Input.message.injEq] at h
    obtain ⟨p, hp, rfl, rfl, rfl⟩ := h
    exact ⟨k, p, rfl, hp, rfl, rfl, rfl⟩
  | _ => simp [input] at h

/-! ## The induction -/

section Induction

variable {C : Cluster M} {e : Event} {P : Option (Msg M.Blob) → Cluster M → Prop}

/-- A property of the cluster, and of what the step in progress is handling, survives an event
if it survives the moves of the node that takes it and the ends of steps. -/
theorem exec_induct (hC : C.Settled) (start : ∀ re, P re C)
    (move : ∀ n inp s s', C.input e = some (n, inp) → n ∈ C.members →
      Moves (C.node n) C.now inp (C.node n) s → Move (C.node n) C.now inp s s' →
      P inp.msg? (C.set n s) → P inp.msg? (C.set n s'))
    (settle : ∀ n re s, n ∈ C.members → s.applying = none → P re (C.set n s) →
      P none (C.settle n re s))
    (client : ∀ src dst cr, e = .clientSend src dst cr →
      P none { C with net := C.net ++ [⟨src, dst, .clientRequest cr, none⟩], now := C.now + 1 })
    (tick : P none { C with now := C.now + 1 }) : P none (C.exec e) := by
  unfold exec
  split
  · rename_i n inp hinp
    split
    · rename_i hn
      obtain ⟨hm, hi⟩ := Node.handle_moves (C.node n) C.now inp (hC n).2
      -- from the state before the step, move by move
      have hrun : ∀ s, Moves (C.node n) C.now inp (C.node n) s → P inp.msg? (C.set n s) := by
        intro s hs
        induction hs with
        | refl => rw [set_self]; exact start _
        | tail hs hstep ih => exact move n inp _ _ hinp hn hs hstep ih
      exact settle n inp.msg? _ hn hi.1 (hrun _ hm)
    · exact tick
  · split
    · exact client _ _ _ rfl
    · exact tick

theorem settled_exec (hC : C.Settled) (e : Event) : (C.exec e).Settled := by
  unfold exec
  split
  · split
    · exact settled_settle hC _ _ (Node.handle_moves _ _ _ (hC _).2).2
    · exact hC
  · split
    · exact hC
    · exact hC

theorem exec_members (C : Cluster M) (e : Event) : (C.exec e).members = C.members := by
  unfold exec
  split
  · split <;> rfl
  · split <;> rfl

/-- An event is a step of the node it is for. -/
theorem exec_eq {n : NodeId} {inp : Input M} (hinp : C.input e = some (n, inp))
    (hn : n ∈ C.members) : C.exec e = C.settle n inp.msg? ((C.node n).handle C.now inp) := by
  unfold exec
  rw [hinp]
  exact if_pos hn

theorem exec_node {n : NodeId} {inp : Input M} (hinp : C.input e = some (n, inp))
    (hn : n ∈ C.members) :
    (C.exec e).node n = { (C.node n).handle C.now inp with out := [], applying := none } := by
  rw [exec_eq hinp hn]
  exact settle_node_self C n _ _

/-- An event that is not an input of a node moves none. -/
theorem exec_node_of_none (hinp : C.input e = none) (n : NodeId) :
    (C.exec e).node n = C.node n := by
  unfold exec
  rw [hinp]
  cases e <;> rfl

/-- The other nodes do not move. -/
theorem exec_node_of_ne {n m : NodeId} {inp : Input M} (hinp : C.input e = some (n, inp))
    (hm : m ≠ n) : (C.exec e).node m = C.node m := by
  unfold exec
  rw [hinp]
  simp only
  split
  · exact settle_node_of_ne C _ _ hm
  · rfl

/-- In an event a node takes a step, or stays as it is. -/
theorem exec_node_cases (C : Cluster M) (e : Event) (n : NodeId) :
    (C.exec e).node n = C.node n ∨ ∃ inp, C.input e = some (n, inp) ∧ n ∈ C.members ∧
      (C.exec e).node n = { (C.node n).handle C.now inp with out := [], applying := none } := by
  cases hinp : C.input e with
  | none => exact Or.inl (exec_node_of_none hinp n)
  | some q =>
    obtain ⟨m, inp⟩ := q
    by_cases hnm : n = m
    · subst hnm
      by_cases hn : n ∈ C.members
      · exact Or.inr ⟨inp, rfl, hn, exec_node hinp hn⟩
      · refine Or.inl ?_
        simp only [exec, hinp, if_neg hn]
    · exact Or.inl (exec_node_of_ne hinp hnm)

theorem run_nil (C : Cluster M) : C.run [] = C := rfl

theorem run_cons (C : Cluster M) (e : Event) (es : List Event) :
    C.run (e :: es) = (C.exec e).run es := rfl

theorem run_append (C : Cluster M) (es es' : List Event) :
    C.run (es ++ es') = (C.run es).run es' := List.foldl_append

theorem settled_run (hC : C.Settled) (es : List Event) : (C.run es).Settled := by
  induction es generalizing C with
  | nil => exact hC
  | cons e es ih => exact ih (settled_exec hC e)

theorem run_members (C : Cluster M) (es : List Event) : (C.run es).members = C.members := by
  induction es generalizing C with
  | nil => rfl
  | cons e es ih => rw [run_cons, ih, exec_members]

end Induction

/-! ## Packets are never taken back -/

/-- The network only grows. -/
theorem exec_net (C : Cluster M) (e : Event) : ∃ ps, (C.exec e).net = C.net ++ ps := by
  unfold exec
  split
  · split
    · exact ⟨_, rfl⟩
    · exact ⟨[], by simp⟩
  · split
    · exact ⟨_, rfl⟩
    · exact ⟨[], by simp⟩

theorem exec_net_getElem? {C : Cluster M} {k : Nat} {p : Packet M} (e : Event)
    (h : C.net[k]? = some p) : (C.exec e).net[k]? = some p := by
  obtain ⟨ps, hps⟩ := C.exec_net e
  rw [hps, List.getElem?_append_left (List.getElem?_eq_some_iff.mp h).1]
  exact h

theorem run_net_getElem? {C : Cluster M} {k : Nat} {p : Packet M} (es : List Event)
    (h : C.net[k]? = some p) : (C.run es).net[k]? = some p := by
  induction es generalizing C with
  | nil => exact h
  | cons e es ih => exact ih (exec_net_getElem? e h)

/-- Effects are never forgotten. -/
theorem exec_trace (C : Cluster M) (e : Event) : ∃ xs, (C.exec e).trace = C.trace ++ xs := by
  unfold exec
  split
  · split
    · exact ⟨_, rfl⟩
    · exact ⟨[], by simp⟩
  · split <;> exact ⟨[], by simp⟩

theorem run_trace_mono {C : Cluster M} {es es' : List Event} (hpre : es' <+: es)
    {x : Nat × NodeId × Effect M} (hx : x ∈ (C.run es').trace) : x ∈ (C.run es).trace := by
  obtain ⟨rest, rfl⟩ := hpre
  rw [run_append]
  generalize C.run es' = C' at hx
  induction rest generalizing C' with
  | nil => exact hx
  | cons e rest ih =>
    obtain ⟨xs, hxs⟩ := C'.exec_trace e
    exact ih _ (by rw [hxs]; exact List.mem_append_left _ hx)

/-- The steps are numbered. -/
theorem exec_now (C : Cluster M) (e : Event) : (C.exec e).now = C.now + 1 := by
  unfold exec
  split
  · split <;> rfl
  · split <;> rfl

theorem run_now (C : Cluster M) (es : List Event) : (C.run es).now = C.now + es.length := by
  induction es generalizing C with
  | nil => rfl
  | cons e es ih => rw [run_cons, ih, exec_now, List.length_cons]; omega

/-- Every loud effect was emitted by a move of its node in the step of its number, on the way to
the state that the step ends in. -/
theorem exists_emitted {C : Cluster M} (hC : C.Settled) (htrace : C.trace = []) {es : List Event}
    {t : Nat} {n : NodeId} {x : Effect M} (hq : x.quiet = false)
    (h : (t, n, x) ∈ (C.run es).trace) :
    ∃ es' e inp s s', es' ++ [e] <+: es ∧ (C.run es').now = t ∧
      (C.run es').input e = some (n, inp) ∧ n ∈ (C.run es').members ∧
      (t, n, x) ∈ (C.run (es' ++ [e])).trace ∧
      Moves ((C.run es').node n) t inp ((C.run es').node n) s ∧
      Move ((C.run es').node n) t inp s s' ∧ Emitted ((C.run es').node n) t inp s s' x ∧
      Moves ((C.run es').node n) t inp s' (((C.run es').node n).handle t inp) := by
  induction es using List.reverseRecOn with
  | nil =>
    rw [run_nil, htrace] at h
    exact absurd h List.not_mem_nil
  | append_singleton es e ih =>
    by_cases hold : (t, n, x) ∈ (C.run es).trace
    · obtain ⟨es', e', inp, s, s', hpre, h'⟩ := ih hold
      exact ⟨es', e', inp, s, s', hpre.trans (List.prefix_append _ _), h'⟩
    · have hC' := settled_run hC es
      have h' : (t, n, x) ∈ ((C.run es).exec e).trace := by rwa [run_append] at h
      unfold exec at h'
      split at h'
      · rename_i m inp hinp
        split at h'
        · rename_i hm
          have hnew : (t, n, x) ∈ (C.run es).trace ++ List.map (fun y => ((C.run es).now, m, y))
              (((C.run es).node m).handle (C.run es).now inp).out := h'
          rcases List.mem_append.mp hnew with hnew | hnew
          · exact absurd hnew hold
          · obtain ⟨y, hy, heq⟩ := List.mem_map.mp hnew
            simp only [Prod.mk.injEq] at heq
            obtain ⟨rfl, rfl, rfl⟩ := heq
            obtain ⟨s, s', hms, hmv, hem, hrest⟩ :=
              (Node.handle_moves _ (C.run es).now inp (hC' m).2).1.emits (hC' m).1 hq hy
            exact ⟨es, e, inp, s, s', List.prefix_rfl, rfl, hinp, hm, h, hms, hmv, hem, hrest⟩
        · exact absurd h' hold
      · split at h' <;> exact absurd h' hold

/-- The number of a step says which event of the run it is. -/
theorem step_unique {C : Cluster M} {es es₁ es₂ : List Event} {e₁ e₂ : Event}
    (h₁ : es₁ ++ [e₁] <+: es) (h₂ : es₂ ++ [e₂] <+: es)
    (hnow : (C.run es₁).now = (C.run es₂).now) : es₁ = es₂ ∧ e₁ = e₂ := by
  rw [run_now, run_now, Nat.add_left_cancel_iff] at hnow
  have hlen : (es₁ ++ [e₁]).length = (es₂ ++ [e₂]).length := by
    rw [List.length_append, List.length_append, hnow]
    rfl
  have heq := (List.prefix_of_prefix_length_le h₁ h₂ (Nat.le_of_eq hlen)).eq_of_length hlen
  exact ⟨List.append_inj_left heq hnow, List.singleton_inj.mp (List.append_inj_right heq hnow)⟩

/-- Packet number `k` is `p`, and event `e` put it into the network. -/
def SentBy (C : Cluster M) (e : Event) (k : Nat) (p : Packet M) : Prop :=
  C.net.length ≤ k ∧ (C.exec e).net[k]? = some p

/-- What an event puts into the network is among the effects of its node, or a client's request. -/
theorem SentBy.cases {C : Cluster M} {e : Event} {k : Nat} {p : Packet M} (h : C.SentBy e k p) :
    (∃ inp, C.input e = some (p.src, inp) ∧ p.src ∈ C.members ∧
      .send p.dst p.msg ∈ ((C.node p.src).handle C.now inp).out) ∨
    ∃ cr, p.msg = .clientRequest cr ∧ e = .clientSend p.src p.dst cr := by
  obtain ⟨hk, hp⟩ := h
  have hnot : C.net[k]? ≠ some p := by
    rw [List.getElem?_eq_none hk]
    simp
  unfold exec at hp
  split at hp
  · rename_i n inp hinp
    split at hp
    · rename_i hn
      have hp' : (C.net ++ packets n inp.msg? ((C.node n).handle C.now inp).out)[k]? = some p := hp
      rw [List.getElem?_append_right hk] at hp'
      obtain ⟨rfl, hsend, -⟩ := mem_packets.mp (List.mem_of_getElem? hp')
      exact Or.inl ⟨inp, hinp, hn, hsend⟩
    · exact absurd hp hnot
  · split at hp
    · rename_i src dst cr _
      have hp' : (C.net ++ [⟨src, dst, .clientRequest cr, none⟩])[k]? = some p := hp
      rw [List.getElem?_append_right hk] at hp'
      rw [List.mem_singleton.mp (List.mem_of_getElem? hp')]
      exact Or.inr ⟨cr, rfl, rfl⟩
    · exact absurd hp hnot

/-- What an event puts into the network is emitted by a move of its node, or a client's request. -/
theorem SentBy.emitted {C : Cluster M} {e : Event} {k : Nat} {p : Packet M} (hC : C.Settled)
    (h : C.SentBy e k p) :
    (∃ inp s s', C.input e = some (p.src, inp) ∧ p.src ∈ C.members ∧
      Moves (C.node p.src) C.now inp (C.node p.src) s ∧
      Emitted (C.node p.src) C.now inp s s' (.send p.dst p.msg) ∧
      .send p.dst p.msg ∈ ((C.node p.src).handle C.now inp).out ∧
      Moves (C.node p.src) C.now inp s' ((C.node p.src).handle C.now inp)) ∨
    ∃ cr, p.msg = .clientRequest cr ∧ e = .clientSend p.src p.dst cr := by
  refine h.cases.imp_left fun ⟨inp, hinp, hn, hsend⟩ => ?_
  obtain ⟨s, s', hms, -, hem, hrest⟩ :=
    (Node.handle_moves _ C.now inp (hC p.src).2).1.emits (hC p.src).1 rfl hsend
  exact ⟨inp, s, s', hinp, hn, hms, hem, hsend, hrest⟩

/-- Every packet was put into the network by some event of the run. -/
theorem exists_sentBy {C : Cluster M} (hnet : C.net = []) {es : List Event} {p : Packet M}
    (hp : p ∈ (C.run es).net) : ∃ es' e k, es' ++ [e] <+: es ∧ (C.run es').SentBy e k p := by
  induction es using List.reverseRecOn with
  | nil =>
    rw [run_nil, hnet] at hp
    exact absurd hp List.not_mem_nil
  | append_singleton es e ih =>
    by_cases hold : p ∈ (C.run es).net
    · obtain ⟨es', e', k, hpre, hk⟩ := ih hold
      exact ⟨es', e', k, hpre.trans (List.prefix_append _ _), hk⟩
    · rw [run_append] at hp
      obtain ⟨k, hk⟩ := List.mem_iff_getElem?.mp hp
      refine ⟨es, e, k, List.prefix_rfl, ?_, hk⟩
      by_contra hlt
      obtain ⟨ps, hps⟩ := (C.run es).exec_net e
      have hk' : ((C.run es).exec e).net[k]? = some p := hk
      rw [hps, List.getElem?_append_left (by omega)] at hk'
      exact hold (List.mem_of_getElem? hk')

/-- `P` holds of the cluster and the event at every event of a run. -/
def Along (P : Cluster M → Event → Prop) (C : Cluster M) : List Event → Prop
  | [] => True
  | e :: es => P C e ∧ (C.exec e).Along P es

instance {P : Cluster M → Event → Prop} [∀ C e, Decidable (P C e)] :
    ∀ (es : List Event) (C : Cluster M), Decidable (C.Along P es)
  | [], _ => .isTrue trivial
  | _ :: es, C => @instDecidableAnd _ _ _ (instDecidableAlong es (C.exec _))

theorem Along.at {P : Cluster M → Event → Prop} {C : Cluster M} {es : List Event}
    (h : C.Along P es) {es' : List Event} {e : Event} (hpre : es' ++ [e] <+: es) :
    P (C.run es') e := by
  induction es' generalizing C es with
  | nil =>
    obtain ⟨rest, rfl⟩ := hpre
    exact h.1
  | cons x es' ih =>
    obtain ⟨rest, rfl⟩ := hpre
    exact ih h.2 ⟨rest, rfl⟩

theorem along_of_at {P : Cluster M → Event → Prop} {C : Cluster M} {es : List Event}
    (h : ∀ es' e, es' ++ [e] <+: es → P (C.run es') e) : C.Along P es := by
  induction es generalizing C with
  | nil => trivial
  | cons e es ih =>
    refine ⟨h [] e (List.prefix_append [e] es), ih fun es' e' hpre => ?_⟩
    exact h (e :: es') e' (List.cons_prefix_cons.mpr ⟨rfl, hpre⟩)

theorem Along.isPre {P : Cluster M → Event → Prop} {C : Cluster M} {es es' : List Event}
    (h : C.Along P es) (hpre : es' <+: es) : C.Along P es' := by
  induction es' generalizing C es with
  | nil => trivial
  | cons x es' ih =>
    obtain ⟨rest, rfl⟩ := hpre
    exact ⟨h.1, ih h.2 (List.prefix_append _ _)⟩

/-- What `f` finds at the step that an event brings about. -/
def atStep {α : Type} (f : Node M → NodeId → Input M → Option α) (C : Cluster M) (e : Event) :
    List α :=
  match C.input e with
  | some (n, inp) => if n ∈ C.members then (f (C.node n) n inp).toList else []
  | none => []

theorem atStep_eq {α : Type} {f : Node M → NodeId → Input M → Option α} {C : Cluster M} {e : Event}
    {n : NodeId} {inp : Input M} (hinp : C.input e = some (n, inp)) (hn : n ∈ C.members) :
    C.atStep f e = (f (C.node n) n inp).toList := by
  rw [atStep, hinp]
  exact if_pos hn

theorem mem_atStep {α : Type} {f : Node M → NodeId → Input M → Option α} {C : Cluster M}
    {e : Event} {x : α} (h : x ∈ C.atStep f e) :
    ∃ n inp, C.input e = some (n, inp) ∧ n ∈ C.members ∧ f (C.node n) n inp = some x := by
  unfold atStep at h
  split at h
  · rename_i n inp hinp
    split at h
    · rename_i hn
      exact ⟨n, inp, hinp, hn, Option.mem_toList.mp h⟩
    · exact absurd h List.not_mem_nil
  · exact absurd h List.not_mem_nil

/-- What `f` finds at the events of a run, in order. -/
def collect {α : Type} (f : Cluster M → Event → List α) (C : Cluster M) : List Event → List α
  | [] => []
  | e :: es => f C e ++ (C.exec e).collect f es

section Collect

variable {α : Type} {f : Cluster M → Event → List α}

theorem collect_append (C : Cluster M) (es es' : List Event) :
    C.collect f (es ++ es') = C.collect f es ++ (C.run es).collect f es' := by
  induction es generalizing C with
  | nil => rfl
  | cons e es ih => rw [List.cons_append, collect, ih, collect, run_cons, List.append_assoc]

theorem collect_concat (C : Cluster M) (es : List Event) (e : Event) :
    C.collect f (es ++ [e]) = C.collect f es ++ f (C.run es) e := by
  rw [collect_append, collect, collect, List.append_nil]

theorem mem_collect {C : Cluster M} {es : List Event} {x : α} :
    x ∈ C.collect f es ↔ ∃ es' e, es' ++ [e] <+: es ∧ x ∈ f (C.run es') e := by
  constructor
  · intro h
    induction es using List.reverseRecOn with
    | nil => exact absurd h List.not_mem_nil
    | append_singleton es e ih =>
      rw [collect_concat] at h
      rcases List.mem_append.mp h with h | h
      · obtain ⟨es', e', hpre, hx⟩ := ih h
        exact ⟨es', e', hpre.trans (List.prefix_append _ _), hx⟩
      · exact ⟨es, e, List.prefix_rfl, h⟩
  · rintro ⟨es', e, ⟨rest, rfl⟩, hx⟩
    rw [collect_append, collect_concat]
    exact List.mem_append_left _ (List.mem_append_right _ hx)

end Collect

/-! ## Statements about single nodes -/

section Local

variable {C : Cluster M} {K : NodeId → Node M → Prop}

/-- A statement about single nodes survives an event if it survives the moves of the node that
takes it. -/
theorem local_exec {e : Event} (hC : C.Settled) (h : ∀ n ∈ C.members, K n (C.node n))
    (move : ∀ n inp s s', C.input e = some (n, inp) → n ∈ C.members →
      Moves (C.node n) C.now inp (C.node n) s → Move (C.node n) C.now inp s s' → K n s → K n s')
    (settle : ∀ n s, s.applying = none → K n s → K n { s with out := [], applying := none }) :
    ∀ n ∈ C.members, K n ((C.exec e).node n) := by
  have hend : ∀ n ∈ (C.exec e).members, K n ((C.exec e).node n) := by
    refine exec_induct (e := e) (P := fun _ C => ∀ n ∈ C.members, K n (C.node n)) hC
      (fun _ => h) ?_ ?_ (fun _ _ _ _ => h) h
    · intro n inp s s' hinp hn hms hm hs m hm'
      by_cases hmn : m = n
      · subst hmn
        have := hs m hm'
        rw [set_node_self] at this ⊢
        exact move m inp s s' hinp hn hms hm this
      · have := hs m hm'
        rw [set_node_of_ne C s hmn] at this
        rw [set_node_of_ne C s' hmn]
        exact this
    · intro n re s hn hi hs m hm'
      have := hs m hm'
      by_cases hmn : m = n
      · subst hmn
        rw [set_node_self] at this
        rw [settle_node_self]
        exact settle m s hi this
      · rw [set_node_of_ne C s hmn] at this
        rw [settle_node_of_ne C re s hmn]
        exact this
  rwa [exec_members] at hend

/-- A statement about single nodes survives a run if it survives each of its events. -/
theorem local_run (h : ∀ n ∈ C.members, K n (C.node n)) (es : List Event)
    (step : ∀ es' e, es' ++ [e] <+: es → (∀ n ∈ C.members, K n ((C.run es').node n)) →
      ∀ n ∈ C.members, K n (((C.run es').exec e).node n)) :
    ∀ n ∈ C.members, K n ((C.run es).node n) := by
  induction es using List.reverseRecOn with
  | nil => exact h
  | append_singleton es e ih =>
    rw [run_append]
    exact step es e List.prefix_rfl (ih fun es' e' hpre =>
      step es' e' (hpre.trans (List.prefix_append _ _)))

end Local

/-! ## Invariants with an abstract state -/

/-- Statements about nodes, packets and effects that refer to an abstract state `g : G`, and how
that state may change.  The abstract state may also claim effects as `seen`. -/
structure Invariant (M : Medium) (G : Type) where
  le : G → G → Prop
  node : G → NodeId → Node M → Prop
  packet : G → Packet M → Prop
  effect : G → Nat → NodeId → Effect M → Prop
  seen : G → NodeId → Effect M → Prop := fun _ _ _ => False
  le_refl : ∀ g, le g g
  le_trans : ∀ g g' g'', le g g' → le g' g'' → le g g''
  packet_mono : ∀ g g' p, le g g' → packet g p → packet g' p
  effect_mono : ∀ g g' t n x, le g g' → effect g t n x → effect g' t n x
  node_settle : ∀ g n s, node g n s → s.applying = none →
    node g n { s with out := [], applying := none }

namespace Invariant

variable {G : Type} (I : Invariant M G)

/-- The statements hold of the cluster, in the middle of a step that handles `re`. -/
structure HoldsIn (g : G) (re : Option (Msg M.Blob)) (C : Cluster M) : Prop where
  node : ∀ n ∈ C.members, I.node g n (C.node n)
  packet : ∀ p, C.InFlight re p → I.packet g p
  effect : ∀ t n x, x.quiet = false → C.Traced t n x → I.effect g t n x
  seen : ∀ n x, I.seen g n x → ∃ t, C.Traced t n x

/-- The statements hold of the cluster between steps. -/
abbrev Holds (g : G) (C : Cluster M) : Prop := I.HoldsIn g none C

/-- What a move of node `n` from `s` to `s'` must keep, the abstract state going from `g` to
`g'`. -/
structure Advance (g g' : G) (C : Cluster M) (n : NodeId) (inp : Input M) (s s' : Node M) :
    Prop where
  le : I.le g g'
  node : I.node g' n s'
  others : ∀ m ∈ C.members, m ≠ n → I.node g m (C.node m) → I.node g' m (C.node m)
  emitted : ∀ x, Emitted (C.node n) C.now inp s s' x → I.effect g' C.now n x
  sent : ∀ d m, Emitted (C.node n) C.now inp s s' (.send d m) → I.packet g' ⟨n, d, m, inp.msg?⟩
  seen : ∀ m x, I.seen g' m x → I.seen g m x ∨ (m = n ∧ x ∈ s'.out)

variable {I} {g g' : G} {C : Cluster M}

/-- The abstract state need not move if only the moving node's statement is concerned. -/
theorem Advance.stay {n : NodeId} {inp : Input M} {s s' : Node M} (hn : I.node g n s')
    (he : ∀ x, Emitted (C.node n) C.now inp s s' x → I.effect g C.now n x)
    (hs : ∀ d m, Emitted (C.node n) C.now inp s s' (.send d m) → I.packet g ⟨n, d, m, inp.msg?⟩) :
    I.Advance g g C n inp s s' :=
  ⟨I.le_refl g, hn, fun _ _ _ h => h, he, hs, fun _ _ h => Or.inl h⟩

theorem HoldsIn.move {n : NodeId} {inp : Input M} {s s' : Node M}
    (hm : Move (C.node n) C.now inp s s') (ha : I.Advance g g' C n inp s s')
    (h : I.HoldsIn g inp.msg? (C.set n s)) : I.HoldsIn g' inp.msg? (C.set n s') where
  node m hmem := by
    have hm' := h.node m hmem
    by_cases hmn : m = n
    · subst hmn
      rw [set_node_self]
      exact ha.node
    · rw [set_node_of_ne C s hmn] at hm'
      rw [set_node_of_ne C s' hmn]
      exact ha.others m hmem hmn hm'
  packet p hp := by
    by_cases hpn : p.src = n
    · rcases hp with hp | ⟨hp, hre⟩
      · exact I.packet_mono g g' p ha.le (h.packet p (Or.inl hp))
      · rw [hpn, set_node_self] at hp
        rcases hm.emits hp with hp | hp | hp
        · exact I.packet_mono g g' p ha.le
            (h.packet p (Or.inr ⟨by rw [hpn, set_node_self]; exact hp, hre⟩))
        · exact absurd hp (by simp [Effect.quiet])
        · have hs := ha.sent p.dst p.msg hp
          rw [← hpn, ← hre] at hs
          exact hs
    · refine I.packet_mono g g' p ha.le (h.packet p (hp.imp_right fun hp => ?_))
      rw [set_node_of_ne C s hpn]
      rw [set_node_of_ne C s' hpn] at hp
      exact hp
  effect t m x hx ht := by
    by_cases hmn : m = n
    · subst hmn
      rcases ht with ht | ⟨rfl, ht⟩
      · exact I.effect_mono g g' t m x ha.le (h.effect t m x hx (Or.inl ht))
      · rw [set_node_self] at ht
        rcases hm.emits ht with ht | ht | ht
        · exact I.effect_mono g g' _ m x ha.le
            (h.effect _ m x hx (Or.inr ⟨rfl, by rw [set_node_self]; exact ht⟩))
        · rw [hx] at ht
          exact absurd ht (by decide)
        · exact ha.emitted x ht
    · refine I.effect_mono g g' t m x ha.le (h.effect t m x hx (ht.imp_right fun ht => ?_))
      rw [set_node_of_ne C s hmn]
      rw [set_node_of_ne C s' hmn] at ht
      exact ht
  seen m x hx := by
    rcases ha.seen m x hx with hx | ⟨rfl, hx⟩
    · obtain ⟨t, ht⟩ := h.seen m x hx
      refine ⟨t, ht.imp_right fun ⟨ht, hx⟩ => ⟨ht, ?_⟩⟩
      by_cases hmn : m = n
      · subst hmn
        rw [set_node_self] at hx ⊢
        exact hm.kept.out x hx
      · rw [set_node_of_ne C s hmn] at hx
        rw [set_node_of_ne C s' hmn]
        exact hx
    · exact ⟨C.now, Or.inr ⟨rfl, by rw [set_node_self]; exact hx⟩⟩

/-- The packet that an event delivers, and the statement about it. -/
theorem HoldsIn.delivered {e : Event} {re : Option (Msg M.Blob)} {n src : NodeId} {s : Node M}
    {m : Msg M.Blob} (h : I.HoldsIn g re (C.set n s))
    (hinp : C.input e = some (n, .message src m)) :
    ∃ k p, e = .deliver k ∧ C.net[k]? = some p ∧ p.src = src ∧ p.dst = n ∧ p.msg = m ∧
      I.packet g p := by
  obtain ⟨k, p, hk, hp, hsrc, hdst, hmsg⟩ := input_message hinp
  exact ⟨k, p, hk, hp, hsrc, hdst, hmsg, h.packet p (Or.inl (List.mem_of_getElem? hp))⟩

/-- Before a step it does not matter what the step is going to handle. -/
theorem HoldsIn.start (hC : C.Settled) (h : I.Holds g C) (re : Option (Msg M.Blob)) :
    I.HoldsIn g re C :=
  ⟨h.node, fun p hp => h.packet p (hC.inFlight_iff.mpr (hC.inFlight_iff.mp hp)), h.effect, h.seen⟩

/-- What holds at the end of a step holds after it. -/
theorem HoldsIn.settle {re : Option (Msg M.Blob)} {n : NodeId} {s : Node M} (hC : C.Settled)
    (hi : s.applying = none) (h : I.HoldsIn g re (C.set n s)) : I.Holds g (C.settle n re s) where
  node m hm := by
    have hm' := h.node m hm
    by_cases hmn : m = n
    · subst hmn
      rw [set_node_self] at hm'
      rw [settle_node_self]
      exact I.node_settle g m s hm' hi
    · rw [set_node_of_ne C s hmn] at hm'
      rw [settle_node_of_ne C re s hmn]
      exact hm'
  packet p hp := h.packet p ((inFlight_settle hC).mp hp)
  effect t m x hx ht := h.effect t m x hx ((traced_settle hC).mp ht)
  seen m x hx := (h.seen m x hx).imp fun _ ht => (traced_settle hC).mpr ht

/-- An invariant that survives the moves of a node survives any stretch of its step. -/
theorem HoldsIn.moves {n : NodeId} {inp : Input M} {s s' : Node M}
    (h : I.HoldsIn g inp.msg? (C.set n s))
    (move : ∀ s s' g', I.le g g' → Move (C.node n) C.now inp s s' →
      I.HoldsIn g' inp.msg? (C.set n s) → ∃ g'', I.Advance g' g'' C n inp s s')
    (hs : Moves (C.node n) C.now inp s s') :
    ∃ g', I.le g g' ∧ I.HoldsIn g' inp.msg? (C.set n s') := by
  induction hs with
  | refl => exact ⟨g, I.le_refl g, h⟩
  | tail _ hm ih =>
    obtain ⟨g', hg, hh⟩ := ih
    obtain ⟨g'', ha⟩ := move _ _ g' hg hm hh
    exact ⟨g'', I.le_trans _ _ _ hg ha.le, hh.move hm ha⟩

/-- An invariant that survives the moves of a node holds at every point inside its step, and from
there on to its end. -/
theorem through {e : Event} {n : NodeId} {inp : Input M} {s : Node M} (hC : C.Settled)
    (h : I.Holds g C) (hinp : C.input e = some (n, inp)) (hn : n ∈ C.members)
    (move : ∀ s s' g', I.le g g' → Move (C.node n) C.now inp s s' →
      I.HoldsIn g' inp.msg? (C.set n s) → ∃ g'', I.Advance g' g'' C n inp s s')
    (hms : Moves (C.node n) C.now inp (C.node n) s)
    (hrest : Moves (C.node n) C.now inp s ((C.node n).handle C.now inp)) :
    ∃ g₁ g₂, I.le g₁ g₂ ∧ I.node g₁ n s ∧ I.Holds g₂ (C.exec e) := by
  have h₀ : I.HoldsIn g inp.msg? (C.set n (C.node n)) := by
    rw [set_self]
    exact h.start hC _
  obtain ⟨g₁, hle₁, h₁⟩ := h₀.moves move hms
  obtain ⟨g₂, hle₂, h₂⟩ := h₁.moves
    (fun s s' g' hle => move s s' g' (I.le_trans _ _ _ hle₁ hle)) hrest
  have hs := h₁.node n hn
  rw [set_node_self] at hs
  refine ⟨g₁, g₂, hle₂, hs, ?_⟩
  rw [exec_eq hinp hn]
  exact h₂.settle hC (Node.handle_moves _ _ inp (hC n).2).2.1

/-- **An invariant survives an event if it survives the moves of the node that takes it.** -/
theorem exec {e : Event} (hC : C.Settled) (h : I.Holds g C)
    (move : ∀ n inp s s' g', C.input e = some (n, inp) → n ∈ C.members → I.le g g' →
      Moves (C.node n) C.now inp (C.node n) s → Move (C.node n) C.now inp s s' →
      I.HoldsIn g' inp.msg? (C.set n s) → ∃ g'', I.Advance g' g'' C n inp s s')
    (client : ∀ src dst cr, e = .clientSend src dst cr →
      I.packet g ⟨src, dst, .clientRequest cr, none⟩) :
    ∃ g', I.le g g' ∧ I.Holds g' (C.exec e) := by
  refine exec_induct (e := e) (P := fun re C => ∃ g', I.le g g' ∧ I.HoldsIn g' re C) hC
    ?_ ?_ ?_ ?_ ?_
  · exact fun re => ⟨g, I.le_refl g, h.start hC re⟩
  · rintro n inp s s' hinp hn hms hm ⟨g', hg, hh⟩
    obtain ⟨g'', ha⟩ := move n inp s s' g' hinp hn hg hms hm hh
    exact ⟨g'', I.le_trans _ _ _ hg ha.le, hh.move hm ha⟩
  · rintro n re s hn hi ⟨g', hg, hh⟩
    exact ⟨g', hg, hh.settle hC hi⟩
  · intro src dst cr he
    have hC' := settled_tick hC (C.net ++ [⟨src, dst, .clientRequest cr, none⟩]) (C.now + 1)
    refine ⟨g, I.le_refl g, h.node, fun p hp => ?_, fun t m x hx ht =>
      h.effect t m x hx (hC.traced_iff.mpr (hC'.traced_iff.mp ht)), fun m x hx =>
      (h.seen m x hx).imp fun t ht => hC'.traced_iff.mpr (hC.traced_iff.mp ht)⟩
    rcases List.mem_append.mp (hC'.inFlight_iff.mp hp) with hp | hp
    · exact h.packet p (hC.inFlight_iff.mpr hp)
    · rw [List.mem_singleton.mp hp]
      exact client src dst cr he
  · have hC' := settled_tick hC C.net (C.now + 1)
    exact ⟨g, I.le_refl g, h.node, fun p hp => h.packet p hp, fun t m x hx ht =>
      h.effect t m x hx (hC.traced_iff.mpr (hC'.traced_iff.mp ht)), fun m x hx =>
      (h.seen m x hx).imp fun t ht => hC'.traced_iff.mpr (hC.traced_iff.mp ht)⟩

/-- **An invariant survives a run if it survives each of its events.** -/
theorem run (h : I.Holds g C) (es : List Event)
    (step : ∀ es' e, es' ++ [e] <+: es → ∀ g', I.le g g' → I.Holds g' (C.run es') →
      ∃ g'', I.le g' g'' ∧ I.Holds g'' ((C.run es').exec e)) :
    ∃ g', I.le g g' ∧ I.Holds g' (C.run es) := by
  induction es using List.reverseRecOn with
  | nil => exact ⟨g, I.le_refl g, h⟩
  | append_singleton es e ih =>
    obtain ⟨g', hg, hh⟩ := ih fun es' e' hpre =>
      step es' e' (hpre.trans (List.prefix_append _ _))
    obtain ⟨g'', hg', hh'⟩ := step es e List.prefix_rfl g' hg hh
    exact ⟨g'', I.le_trans _ _ _ hg hg', by rw [run_append]; exact hh'⟩

/-- An invariant that survives each event of a run survives what is left of it. -/
theorem run_from {es es₁ : List Event} (hpre : es₁ <+: es)
    (step : ∀ es' e, es' ++ [e] <+: es → ∀ g, I.Holds g (C.run es') →
      ∃ g', I.le g g' ∧ I.Holds g' ((C.run es').exec e))
    (h : I.Holds g (C.run es₁)) : ∃ g', I.le g g' ∧ I.Holds g' (C.run es) := by
  obtain ⟨rest, rfl⟩ := hpre
  rw [run_append]
  refine run h rest fun es' e hpre' g' _ hg' => ?_
  rw [← run_append] at hg' ⊢
  refine step (es₁ ++ es') e ?_ g' hg'
  rw [List.append_assoc]
  exact (List.prefix_append_right_inj es₁).mpr hpre'

/-! ## One invariant on top of another -/

section Over

variable {H : Type} (I : Invariant M G) (J : Invariant M H) (f : H → G)
  (hf : ∀ h h', J.le h h' → I.le (f h) (f h'))

/-- The statements of `I` and those of `J`, where the abstract state of `J` contains that of `I`. -/
def layered : Invariant M H where
  le := J.le
  node h n s := I.node (f h) n s ∧ J.node h n s
  packet h p := I.packet (f h) p ∧ J.packet h p
  effect h t n x := I.effect (f h) t n x ∧ J.effect h t n x
  seen h n x := I.seen (f h) n x ∨ J.seen h n x
  le_refl := J.le_refl
  le_trans := J.le_trans
  packet_mono h h' p hle hp :=
    ⟨I.packet_mono _ _ p (hf h h' hle) hp.1, J.packet_mono _ _ p hle hp.2⟩
  effect_mono h h' t n x hle hx :=
    ⟨I.effect_mono _ _ t n x (hf h h' hle) hx.1, J.effect_mono _ _ t n x hle hx.2⟩
  node_settle _ n s hs ha := ⟨I.node_settle _ n s hs.1 ha, J.node_settle _ n s hs.2 ha⟩

variable {I J f hf} {h₁ h₂ : H} {re : Option (Msg M.Blob)}

theorem HoldsIn.layered_iff : (I.layered J f hf).HoldsIn h₁ re C ↔
    I.HoldsIn (f h₁) re C ∧ J.HoldsIn h₁ re C := by
  constructor
  · intro hh
    exact ⟨⟨fun n hn => (hh.node n hn).1, fun p hp => (hh.packet p hp).1,
        fun t n x hx ht => (hh.effect t n x hx ht).1, fun n x hx => hh.seen n x (Or.inl hx)⟩,
      ⟨fun n hn => (hh.node n hn).2, fun p hp => (hh.packet p hp).2,
        fun t n x hx ht => (hh.effect t n x hx ht).2, fun n x hx => hh.seen n x (Or.inr hx)⟩⟩
  · rintro ⟨h1, h2⟩
    exact ⟨fun n hn => ⟨h1.node n hn, h2.node n hn⟩, fun p hp => ⟨h1.packet p hp, h2.packet p hp⟩,
      fun t n x hx ht => ⟨h1.effect t n x hx ht, h2.effect t n x hx ht⟩,
      fun n x hx => hx.elim (h1.seen n x) (h2.seen n x)⟩

theorem Advance.layered {n : NodeId} {inp : Input M} {s s' : Node M}
    (hi : I.Advance (f h₁) (f h₂) C n inp s s') (hj : J.Advance h₁ h₂ C n inp s s') :
    (I.layered J f hf).Advance h₁ h₂ C n inp s s' where
  le := hj.le
  node := ⟨hi.node, hj.node⟩
  others m hm hmn hn := ⟨hi.others m hm hmn hn.1, hj.others m hm hmn hn.2⟩
  emitted x hx := ⟨hi.emitted x hx, hj.emitted x hx⟩
  sent d m hs := ⟨hi.sent d m hs, hj.sent d m hs⟩
  seen m x hx := by
    rcases hx with hx | hx
    · exact (hi.seen m x hx).imp_left Or.inl
    · exact (hj.seen m x hx).imp_left Or.inr

end Over

end Invariant

/-! ## The initial cluster -/

/-- A node that starts with empty stores schedules its election timer and does nothing else. -/
theorem start_init (M : Medium) (n : NodeId) (peers : List NodeId) (cfg : RaftConfig) :
    (Node.init M n peers cfg).start =
      .ok { Node.init M n peers cfg with
        running := true
        timers := ⟨true, 1, false⟩
        out := [.timer (.scheduleElection 1)] } := by
  have hthr : ¬ (cfg.snapshotThreshold > 0 ∧ 0 > cfg.snapshotThreshold) := by omega
  have happ : ({ Node.init M n peers cfg with running := true } : Node M).applyCommittedEntries =
      .ok { Node.init M n peers cfg with running := true } := by
    change (if cfg.snapshotThreshold > 0 ∧ 0 > cfg.snapshotThreshold then _ else _) = _
    rw [if_neg hthr]
    rfl
  have hload : (Node.init M n peers cfg).start =
      (({ Node.init M n peers cfg with running := true } : Node M).applyCommittedEntries >>=
        fun s => pure s.scheduleElectionTimeout) := rfl
  rw [hload, happ]
  rfl

theorem init_node (M : Medium) (mem : Membership) (cfg : NodeId → RaftConfig) (n : NodeId) :
    (init M mem cfg).node n =
      { Node.init M n (mem.peers n) (cfg n) with
        running := true, timers := ⟨true, 1, false⟩ } := by
  change { (Node.init M n (mem.peers n) (cfg n)).start.state with out := [] } = _
  rw [start_init]
  rfl

theorem launch_node (M : Medium) (r : Roster) (cfg : NodeId → RaftConfig) (n : NodeId) :
    (launch M r cfg).node n =
      { Node.init M n (r.peers n) (cfg n) with
        running := true, timers := ⟨true, 1, false⟩ } := by
  change { (Node.init M n (r.peers n) (cfg n)).start.state with out := [] } = _
  rw [start_init]
  rfl

/-- Every node has just been constructed, with others as its peers, and started. -/
structure Fresh (C : Cluster M) : Prop where
  node : ∀ n, ∃ ps cfg, C.node n =
    { Node.init M n ps cfg with running := true, timers := ⟨true, 1, false⟩ }
  basic : ∀ n ∈ C.members, (C.node n).Basic n
  net : C.net = []
  trace : C.trace = []
  now : C.now = 0

theorem Fresh.settled {C : Cluster M} (h : C.Fresh) : C.Settled := by
  intro n
  obtain ⟨ps, cfg, hn⟩ := h.node n
  rw [hn]
  exact ⟨rfl, rfl, Nat.le_refl 0⟩

theorem fresh_init (M : Medium) (mem : Membership) (cfg : NodeId → RaftConfig) :
    (init M mem cfg).Fresh := by
  refine ⟨fun n => ⟨_, _, init_node M mem cfg n⟩, fun n hn => ?_, rfl, rfl, rfl⟩
  rw [init_node]
  exact ⟨rfl, fun hmem => ((mem.mem_peers n hn n).mp ((List.mem_insertionSort _).mp hmem)).2 rfl⟩

theorem fresh_launch (M : Medium) (r : Roster) (cfg : NodeId → RaftConfig) :
    (launch M r cfg).Fresh := by
  refine ⟨fun n => ⟨_, _, launch_node M r cfg n⟩, fun n _ => ?_, rfl, rfl, rfl⟩
  rw [launch_node]
  exact ⟨rfl, fun hmem => r.not_self n ((List.mem_insertionSort _).mp hmem)⟩

theorem settled_init (M : Medium) (mem : Membership) (cfg : NodeId → RaftConfig) :
    (init M mem cfg).Settled := (fresh_init M mem cfg).settled

theorem settled_launch (M : Medium) (r : Roster) (cfg : NodeId → RaftConfig) :
    (launch M r cfg).Settled := (fresh_launch M r cfg).settled

theorem Fresh.basic_run {C : Cluster M} (h : C.Fresh) (es : List Event) :
    ∀ n ∈ C.members, ((C.run es).node n).Basic n := by
  refine local_run (K := fun n s => s.Basic n) h.basic es fun es' e _ hb => ?_
  rw [← run_members C es'] at hb ⊢
  exact local_exec (K := fun n s => s.Basic n) (settled_run h.settled es') hb
    (fun _ _ _ _ _ _ _ hm hs => hm.basic hs) fun _ _ _ h => h.frame rfl rfl

/-- Servers that know each other, with the default configuration and the stores of the source. -/
abbrev launched (ids : List NodeId) : Cluster Medium.bytes :=
  launch Medium.bytes (.ofList ids) fun _ => {}

end Cluster

end SimKV
