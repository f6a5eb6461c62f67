/-
# Who has confirmed a read

A read is answered once `acks` reaches the quorum.  `acks` is a bare counter: it goes
up with every `ReadIndexReply` of the leader's term and the read's round, whoever
sent it and however often it arrives.  What holds is a bound: in the leader's term,
`acks` is at most one more than the number of different nodes whose reply to that
round the leader has been given, provided that it has been given no reply twice
(`Counted`).  Each of those nodes has handled the request in the leader's term, so
then a read that is answered has been confirmed by a quorum of different nodes
(`read_confirmed`).  With a duplicated reply it need not have been
(`one_voter_confirms`).
-/
import SimKV.Raft.Formats

namespace SimKV

variable {M : Medium}

/-! ## Replies a leader has been given -/

/-- Whose reply, to which leader, and what it says. -/
abbrev ReadAck := NodeId × NodeId × ReadIndexReply

/-- The nodes whose reply to round `r` node `n` has been given in term `T`. -/
def responders (g : List ReadAck) (n : NodeId) (T r : Nat) : Finset NodeId :=
  ((g.filter fun a => a.2 = (n, ⟨T, r⟩)).map Prod.fst).toFinset

theorem mem_responders {g : List ReadAck} {n m : NodeId} {T r : Nat} :
    m ∈ responders g n T r ↔ (m, n, ⟨T, r⟩) ∈ g := by
  unfold responders
  rw [List.mem_toFinset, List.mem_map]
  constructor
  · rintro ⟨⟨m', a⟩, ha, rfl⟩
    obtain ⟨hg, heq⟩ := List.mem_filter.mp ha
    rw [decide_eq_true_eq] at heq
    exact heq ▸ hg
  · intro hg
    exact ⟨_, List.mem_filter.mpr ⟨hg, by simp⟩, rfl⟩

theorem responders_mono {g g' : List ReadAck} (h : ∀ a ∈ g, a ∈ g') (n : NodeId) (T r : Nat) :
    (responders g n T r).card ≤ (responders g' n T r).card :=
  Finset.card_le_card fun _ hm => mem_responders.mpr (h _ (mem_responders.mp hm))

/-- A reply that is new adds a responder. -/
theorem responders_new {g : List ReadAck} {m n : NodeId} {rep : ReadIndexReply}
    (h : (m, n, rep) ∉ g) : (responders g n rep.term rep.round).card + 1 =
      (responders (g ++ [(m, n, rep)]) n rep.term rep.round).card := by
  have hnot : m ∉ responders g n rep.term rep.round := fun hm => h (mem_responders.mp hm)
  rw [← Finset.card_insert_of_notMem hnot]
  congr 1
  ext k
  rw [Finset.mem_insert, mem_responders, mem_responders, List.mem_append, List.mem_singleton,
    or_comm]
  simp only [Prod.mk.injEq, and_true]

/-! ## The bound -/

/-- Node `n` in state `s` keeps books only as leader, and no read has more acks than it has
responders among the replies `g`, itself included. -/
structure Node.Counted (g : List ReadAck) (n : NodeId) (s : Node M) : Prop where
  id : s.id = n
  self : n ∉ s.peers
  down : s.running = false → s.role = .follower
  idle : s.role ≠ .leader → s.pendingReads = []
  acks : ∀ pr ∈ s.pendingReads, pr.acks ≤ (responders g n s.currentTerm pr.round).card + 1

namespace Node.Counted

variable {g g' : List ReadAck} {n : NodeId} {s s' : Node M}

theorem mono (h : s.Counted g n) (hg : ∀ a ∈ g, a ∈ g') : s.Counted g' n :=
  ⟨h.id, h.self, h.down, h.idle, fun pr hpr =>
    Nat.le_trans (h.acks pr hpr) (Nat.succ_le_succ (responders_mono hg _ _ _))⟩

/-- The node keeps its role and its term, and begins no read. -/
theorem frame (h : s.Counted g n) (hid : s'.id = s.id) (hp : n ∉ s'.peers)
    (hrun : s'.running = s.running) (hrole : s'.role = s.role)
    (hT : s'.currentTerm = s.currentTerm) (hprs : ∀ pr ∈ s'.pendingReads, pr ∈ s.pendingReads) :
    s'.Counted g n where
  id := hid.trans h.id
  self := hp
  down := by rw [hrun, hrole]; exact h.down
  idle hr := by
    rw [hrole] at hr
    refine List.eq_nil_iff_forall_not_mem.mpr fun pr hpr => ?_
    have := hprs pr hpr
    rw [h.idle hr] at this
    exact absurd this List.not_mem_nil
  acks pr hpr := by rw [hT]; exact h.acks pr (hprs pr hpr)

/-- The node has no reads. -/
theorem fresh (h : s.Counted g n) (hid : s'.id = s.id) (hp : s'.peers = s.peers)
    (hdown : s'.running = false → s'.role = .follower) (hprs : s'.pendingReads = []) :
    s'.Counted g n where
  id := hid.trans h.id
  self := by rw [hp]; exact h.self
  down := hdown
  idle _ := hprs
  acks pr hpr := by rw [hprs] at hpr; exact absurd hpr List.not_mem_nil

end Node.Counted

theorem Node.mem_ackRead {round : Nat} {prs : List PendingRead} {pr : PendingRead}
    (h : pr ∈ Node.ackRead round prs) :
    pr ∈ prs ∨ ∃ pr' ∈ prs, pr'.round = round ∧ pr = { pr' with acks := pr'.acks + 1 } := by
  induction prs with
  | nil => exact Or.inl h
  | cons x prs ih =>
    rw [ackRead] at h
    split at h
    · rename_i hx
      rcases List.mem_cons.mp h with h | h
      · exact Or.inr ⟨x, List.mem_cons_self, hx, h⟩
      · exact Or.inl (List.mem_cons_of_mem _ h)
    · rcases List.mem_cons.mp h with h | h
      · exact Or.inl (h ▸ List.mem_cons_self)
      · rcases ih h with h | ⟨pr', hpr', h⟩
        · exact Or.inl (List.mem_cons_of_mem _ h)
        · exact Or.inr ⟨pr', List.mem_cons_of_mem _ hpr', h⟩

/-- The reply in an input on which a node in state `s` will act. -/
def Node.readAck (s : Node M) (n : NodeId) : Input M → Option ReadAck
  | .message src (.readIndexReply rep) =>
    if s.role = .leader ∧ rep.term = s.currentTerm then some (src, n, rep) else none
  | _ => none

/-- The reads that `drain_pending_reads` answers. -/
theorem Node.drain_readDone (s : Node M) {ticket : Nat} {v : Option Str} :
    .readDone ticket true v ∈ s.drainPendingReads.out.drop s.out.length ↔
      ∃ pr ∈ s.pendingReads, s.quorum ≤ pr.acks ∧ pr.readIndex ≤ s.lastApplied ∧
        pr.ticket = ticket ∧ v = s.kv.get pr.key := by
  simp only [drainPendingReads, List.drop_left, List.mem_flatMap, List.mem_filter, List.mem_cons,
    List.not_mem_nil, or_false, decide_eq_true_eq, reduceCtorEq, false_or,
    Effect.readDone.injEq, true_and, and_assoc, ge_iff_le, eq_comm (a := ticket)]

/-- **Every move keeps the bound**, the reply of the step counted in, if it has not been given
before. -/
theorem Move.counted {n₀ s s' : Node M} {t : Nat} {inp : Input M} {g : List ReadAck} {n : NodeId}
    (h : Move n₀ t inp s s') (hrec : Recoverable n₀ inp) (h₀ : n₀.Counted g n)
    (hnew : ∀ a ∈ n₀.readAck n inp, a ∉ g)
    (hs : s.Counted (g ++ (n₀.readAck n inp).toList) n) :
    s'.Counted (g ++ (n₀.readAck n inp).toList) n := by
  cases h with
  | newTerm => exact hs.fresh rfl rfl (fun _ => rfl) rfl
  | follow l tm prs es hq hprs =>
    refine hs.fresh rfl rfl (fun _ => rfl) ?_
    rcases hprs with hprs | ⟨hprs, hrole⟩
    · exact hprs
    · exact hprs.trans (hs.idle fun hl => nomatch hrole.symm.trans hl)
  | stand tm es es' hq hq' hrun hrole =>
    exact hs.fresh rfl rfl (fun hdown => nomatch hrun.symm.trans hdown) (hs.idle hrole)
  | win tm es hq hrole =>
    exact hs.fresh rfl rfl (fun hdown => nomatch hrole.symm.trans (hs.down hdown))
      (hs.idle fun hl => nomatch hrole.symm.trans hl)
  | joinPeer e kv newId happ he hnew hid hrole ps nx mx hj =>
    have hself : n ∉ (s.joinPeer newId).peers := fun hmem =>
      (s.mem_joinPeer.mp hmem).elim hs.self fun heq => hid (heq.symm.trans hs.id.symm)
    rw [hj] at hself
    exact hs.frame rfl hself rfl rfl rfl fun _ h => h
  | leavePeer e kv remId =>
    exact hs.frame rfl (fun hmem => hs.self (List.mem_of_mem_filter hmem)) rfl rfl rfl
      fun _ h => h
  | drain =>
    exact hs.frame rfl hs.self rfl rfl rfl fun _ h => List.mem_of_mem_filter h
  | ackRead src rep hinp hs₀ hrole hterm =>
    subst hs₀ hinp
    have hack : s.readAck n (.message src (.readIndexReply rep)) = some (src, n, rep) :=
      if_pos ⟨hrole, hterm⟩
    rw [hack] at hnew hs ⊢
    refine ⟨hs.id, hs.self, hs.down, fun hl => absurd hrole hl, fun pr hpr => ?_⟩
    rcases Node.mem_ackRead hpr with hpr | ⟨pr', hpr', hround, rfl⟩
    · exact hs.acks pr hpr
    · -- the new responder pays for the new ack
      have hcard := responders_new (hnew _ rfl)
      rw [hterm, ← hround] at hcard
      change pr'.acks + 1 ≤ _ + 1
      rw [Option.toList_some, ← hcard]
      exact Nat.succ_le_succ (h₀.acks pr' hpr')
  | beginRead key hinp hs₀ hrun hrole =>
    refine ⟨hs.id, hs.self, hs.down, fun hl => absurd hrole hl, fun pr hpr => ?_⟩
    rcases List.mem_append.mp hpr with hpr | hpr
    · exact hs.acks pr hpr
    · rw [List.mem_singleton.mp hpr]
      exact Nat.le_add_left _ _
  | readTimeout round prs es hq hprs => exact hs.frame rfl hs.self rfl rfl rfl hprs
  | crash kv => exact hs.fresh rfl rfl (fun _ => rfl) rfl
  | crashFail err hinp hs₀ hne hdec => exact (hrec.not_crashFail hs₀ hne hdec).elim
  | boot _ hinp hs₀ hrun hboot =>
    obtain ⟨T, v, l, kv, i, t, d, c, a, rfl, -⟩ := Node.Reloads.of_boot hboot
    exact hs.fresh rfl rfl (fun h => nomatch h)
      (hs.idle fun hl => nomatch (hs.down hrun).symm.trans hl)
  | _ => exact hs.frame rfl hs.self rfl rfl rfl fun _ h => h

theorem Moves.counted {n₀ s : Node M} {t : Nat} {inp : Input M} {g : List ReadAck} {n : NodeId}
    (h : Moves n₀ t inp n₀ s) (hrec : Recoverable n₀ inp) (h₀ : n₀.Counted g n)
    (hnew : ∀ a ∈ n₀.readAck n inp, a ∉ g) : s.Counted (g ++ (n₀.readAck n inp).toList) n := by
  induction h with
  | refl => exact h₀.mono fun a ha => List.mem_append_left _ ha
  | tail _ hm ih => exact hm.counted hrec h₀ hnew ih

/-! ## The confirming nodes -/

/-- A node that answers a `ReadIndexRequest` is in the term of the request when it has. -/
theorem Node.handle_readIndexRequest {s : Node M} {t : Nat} {src : NodeId} {req : ReadIndexRequest}
    {x : Effect M} (h₀ : s.out = [])
    (hx : x ∈ (s.handle t (.message src (.readIndexRequest req))).out) :
    s.running = true ∧
      (s.handle t (.message src (.readIndexRequest req))).currentTerm = req.term := by
  have hnil : x ∉ s.out := by rw [h₀]; exact List.not_mem_nil
  simp only [handle, onMessage] at hx ⊢
  split at hx
  · exact absurd hx hnil
  · rename_i hrun
    rw [if_neg hrun]
    refine ⟨by simpa using hrun, ?_⟩
    simp only [dispatch, Res.state, handleReadIndexRequest] at hx ⊢
    split at hx
    · exact absurd hx hnil
    · rename_i hge
      rw [if_neg hge, s.stepDown_eq (some src) hge]
      exact (s.becomeFollower_spec (some src) (Nat.not_lt.mp hge)).term

namespace Cluster

variable {C : Cluster M}

/-- The replies on which leaders have acted along a run. -/
abbrev readAcks (C : Cluster M) : List Event → List ReadAck := C.collect (atStep Node.readAck)

/-- A reply on which a leader acts is delivered to it. -/
theorem mem_readAck {e : Event} {m n : NodeId} {rep : ReadIndexReply}
    (h : (m, n, rep) ∈ C.atStep Node.readAck e) :
    C.input e = some (n, .message m (.readIndexReply rep)) := by
  obtain ⟨n', inp, hinp, -, h⟩ := mem_atStep h
  rw [hinp]
  cases inp with
  | message src msg =>
    cases msg with
    | readIndexReply rep' =>
      obtain ⟨-, heq⟩ := Option.ite_none_right_eq_some.mp h
      cases heq
      rfl
    | _ => exact nomatch h
  | _ => exact nomatch h

/-- The node that at an event handles the `ReadIndexRequest` of term `T` and round `r` of leader
`n`, and is in term `T` when it has. -/
def confirms (n : NodeId) (T r : Nat) (C : Cluster M) (e : Event) : List NodeId :=
  match C.input e with
  | some (m, .message src (.readIndexRequest req)) =>
    if m ∈ C.members ∧ (C.node m).running = true ∧ src = n ∧ req = ⟨T, n, r⟩ ∧
      ((C.exec e).node m).currentTerm = T then [m] else []
  | _ => []

/-- The nodes that confirm along a run. -/
abbrev confirming (C : Cluster M) (n : NodeId) (T r : Nat) : List Event → List NodeId :=
  C.collect (confirms n T r)

theorem confirms_spec {n m : NodeId} {T r : Nat} {e : Event} (h : m ∈ C.confirms n T r e) :
    C.input e = some (m, .message n (.readIndexRequest ⟨T, n, r⟩)) ∧ m ∈ C.members ∧
      ((C.exec e).node m).currentTerm = T := by
  unfold confirms at h
  split at h
  · rename_i m' src req hinp
    split at h
    · rename_i hok
      obtain ⟨hm, -, rfl, rfl, hT⟩ := hok
      rw [List.mem_singleton.mp h]
      exact ⟨hinp, hm, hT⟩
    · exact absurd h List.not_mem_nil
  · exact absurd h List.not_mem_nil

theorem mem_confirms {n m : NodeId} {T r : Nat} {e : Event}
    (hinp : C.input e = some (m, .message n (.readIndexRequest ⟨T, n, r⟩)))
    (hm : m ∈ C.members) (hrun : (C.node m).running = true)
    (hT : ((C.exec e).node m).currentTerm = T) : m ∈ C.confirms n T r e := by
  unfold confirms
  rw [hinp]
  simp only
  rw [if_pos ⟨hm, hrun, trivial, trivial, hT⟩]
  exact List.mem_singleton_self m

/-- A `ReadIndexReply` in the network was sent on a request by a node that was then in its term. -/
theorem readIndexReply_origin (hC : C.Settled) (hnet : C.net = []) {es : List Event} {p : Packet M}
    {rep : ReadIndexReply} (hp : p ∈ (C.run es).net) (hmsg : p.msg = .readIndexReply rep) :
    ∃ es' e req, es' ++ [e] <+: es ∧ rep = ⟨req.term, req.round⟩ ∧
      (C.run es').input e = some (p.src, .message p.dst (.readIndexRequest req)) ∧
      p.src ∈ (C.run es').members ∧ ((C.run es').node p.src).running = true ∧
      (((C.run es').exec e).node p.src).currentTerm = req.term := by
  obtain ⟨es', e, k, hpre, hsent⟩ := exists_sentBy hnet hp
  have hC' := settled_run hC es'
  rcases hsent.emitted hC' with ⟨inp, s, s', hinp, hn, -, hem, hout, -⟩ | ⟨cr, hcr, -⟩
  · rw [hmsg] at hem
    cases hem with
    | readIndexReply src req hreq hterm =>
      subst hreq
      obtain ⟨hrun, hT⟩ := Node.handle_readIndexRequest (hC' p.src).1 hout
      refine ⟨es', e, req, hpre, by rw [hterm], hinp, hn, hrun, ?_⟩
      rw [exec_node hinp hn]
      exact hT
  · rw [hmsg] at hcr
    exact nomatch hcr

/-- A `ReadIndexRequest` in the network names its sender and went to a peer of it. -/
theorem readIndexRequest_origin (hC : C.Settled) (hnet : C.net = []) {es : List Event}
    {p : Packet M} {req : ReadIndexRequest} (hp : p ∈ (C.run es).net)
    (hmsg : p.msg = .readIndexRequest req) :
    ∃ es', es' <+: es ∧ p.src ∈ C.members ∧ req.leaderId = ((C.run es').node p.src).id ∧
      p.dst ∈ ((C.run es').node p.src).peers := by
  obtain ⟨es', e, k, hpre, hsent⟩ := exists_sentBy hnet hp
  have hC' := settled_run hC es'
  rcases hsent.emitted hC' with ⟨inp, s, s', hinp, hn, -, hem, -⟩ | ⟨cr, hcr, -⟩
  · rw [hmsg] at hem
    rw [run_members] at hn
    cases hem with
    | readIndexRequest d key hd hreq h₀ =>
      subst h₀
      exact ⟨es', (List.prefix_append _ _).trans hpre, hn, rfl, hd⟩
  · rw [hmsg] at hcr
    exact nomatch hcr

section Run

variable {es : List Event}

/-- **The bound holds in every run in which no leader is given a reply twice.** -/
theorem counted_run (hC : C.Settled) (hd : C.Durable)
    (h₀ : ∀ n ∈ C.members, (C.node n).Counted [] n)
    (hs : ∀ es', es' <+: es → (C.run es').Sized) (hack : (C.readAcks es).Nodup) :
    ∀ n ∈ C.members, ((C.run es).node n).Counted (C.readAcks es) n := by
  induction es using List.reverseRecOn with
  | nil => exact h₀
  | append_singleton es e ih =>
    have hs' : ∀ es', es' <+: es → (C.run es').Sized := fun es' h =>
      hs es' (h.trans (List.prefix_append _ _))
    rw [readAcks, collect_concat] at hack ⊢
    have ih := ih hs' (List.Nodup.of_append_left hack)
    have hC' := settled_run hC es
    have hd' := hd.run hC es hs'
    rw [run_append]
    change ∀ n ∈ C.members, Node.Counted _ n (((C.run es).exec e).node n)
    rw [← run_members C es]
    refine local_exec (K := fun n s => s.Counted _ n) hC' (fun n hn => ?_) ?_
      fun n s _ h => h.frame rfl h.self rfl rfl rfl fun _ h => h
    · exact (ih n (by rwa [run_members] at hn)).mono fun a ha => List.mem_append_left _ ha
    · intro n inp s s' hinp hn _ hm hcs
      rw [atStep_eq hinp hn] at hcs hack ⊢
      refine hm.counted (hd'.recoverable (hs' es List.prefix_rfl) hinp hn)
        (ih n (by rwa [run_members] at hn)) (fun a ha hmem => ?_) hcs
      exact (List.nodup_append.mp hack).2.2 a hmem a (Option.mem_toList.mpr ha) rfl

/-- The bound at every point of a step. -/
theorem counted_moves {e : Event} (hC : C.Settled) (hd : C.Durable)
    (h₀ : ∀ n ∈ C.members, (C.node n).Counted [] n)
    (hs : ∀ es', es' <+: es ++ [e] → (C.run es').Sized) (hack : (C.readAcks (es ++ [e])).Nodup)
    {n : NodeId} {inp : Input M} {s : Node M} (hinp : (C.run es).input e = some (n, inp))
    (hn : n ∈ C.members)
    (hms : Moves ((C.run es).node n) (C.run es).now inp ((C.run es).node n) s) :
    s.Counted (C.readAcks (es ++ [e])) n := by
  have hs' : ∀ es', es' <+: es → (C.run es').Sized := fun es' h =>
    hs es' (h.trans (List.prefix_append _ _))
  have hn' : n ∈ (C.run es).members := by rw [run_members]; exact hn
  rw [readAcks, collect_concat, atStep_eq hinp hn'] at hack ⊢
  refine Moves.counted hms ((hd.run hC es hs').recoverable (hs' es List.prefix_rfl) hinp hn')
    (counted_run hC hd h₀ hs' hack.of_append_left n hn) fun a ha hmem => ?_
  exact (List.nodup_append.mp hack).2.2 a hmem a (Option.mem_toList.mpr ha) rfl

/-- A reply that a leader has been given comes from another node, which has confirmed. -/
theorem confirming_of_readAck (hC : C.Settled) (hd : C.Durable) (hnet : C.net = [])
    (h₀ : ∀ n ∈ C.members, (C.node n).Counted [] n)
    (hs : ∀ es', es' <+: es → (C.run es').Sized) (hack : (C.readAcks es).Nodup) {m n : NodeId}
    {T rd : Nat} (h : (m, n, ⟨T, rd⟩) ∈ C.readAcks es) : m ≠ n ∧ m ∈ C.confirming n T rd es := by
  obtain ⟨es₁, e₁, hpre₁, hack₁⟩ := mem_collect.mp h
  obtain ⟨k₁, p₁, -, hk₁, rfl, rfl, hmsg₁⟩ := input_message (mem_readAck hack₁)
  obtain ⟨es₂, e₂, req, hpre₂, hrep, hinp₂, hn₂, hrun, hT⟩ :=
    readIndexReply_origin hC hnet (List.mem_of_getElem? hk₁) hmsg₁
  cases hrep
  have hpre₂ := hpre₂.trans ((List.prefix_append _ _).trans hpre₁)
  obtain ⟨k₂, p₂, -, hk₂, hsrc, hdst, hmsg₂⟩ := input_message hinp₂
  obtain ⟨es₃, hpre₃, hmem, hlead, hpeer⟩ :=
    readIndexRequest_origin hC hnet (List.mem_of_getElem? hk₂) hmsg₂
  have hpre₃ := hpre₃.trans ((List.prefix_append _ _).trans hpre₂)
  have hsub : (C.readAcks es₃).Sublist (C.readAcks es) := by
    obtain ⟨rest, rfl⟩ := hpre₃
    rw [readAcks, collect_append]
    exact List.sublist_append_left _ _
  have hcount := counted_run hC hd h₀ (fun es' h => hs es' (h.trans hpre₃)) (hack.sublist hsub) _
    hmem
  rw [hcount.id, hsrc] at hlead
  rw [hsrc, hdst] at hpeer
  rw [hsrc] at hcount
  refine ⟨fun heq => hcount.self (heq ▸ hpeer),
    mem_collect.mpr ⟨es₂, e₂, hpre₂, mem_confirms ?_ hn₂ hrun hT⟩⟩
  rw [hinp₂, ← hlead]

/-- A read with a quorum of acks is confirmed by a quorum of nodes. -/
theorem confirming_quorum {e : Event} (hC : C.Settled) (hd : C.Durable) (hnet : C.net = [])
    (h₀ : ∀ n ∈ C.members, (C.node n).Counted [] n)
    (hs : ∀ es', es' <+: es ++ [e] → (C.run es').Sized) (hack : (C.readAcks (es ++ [e])).Nodup)
    {n : NodeId} {inp : Input M} {s : Node M} (hinp : (C.run es).input e = some (n, inp))
    (hn : n ∈ C.members)
    (hms : Moves ((C.run es).node n) (C.run es).now inp ((C.run es).node n) s)
    {pr : PendingRead} (hpr : pr ∈ s.pendingReads) (hacks : s.quorum ≤ pr.acks) :
    s.quorum ≤ (insert n (C.confirming n s.currentTerm pr.round (es ++ [e])).toFinset).card := by
  have hcount := counted_moves hC hd h₀ hs hack hinp hn hms
  refine Nat.le_trans hacks (Nat.le_trans (hcount.acks pr hpr) ?_)
  have hresp : ∀ m ∈ responders (C.readAcks (es ++ [e])) n s.currentTerm pr.round,
      m ≠ n ∧ m ∈ C.confirming n s.currentTerm pr.round (es ++ [e]) := fun m hm =>
    confirming_of_readAck hC hd hnet h₀ hs hack (mem_responders.mp hm)
  rw [← Finset.card_insert_of_notMem fun hm => (hresp n hm).1 rfl]
  exact Finset.card_le_card (Finset.insert_subset_insert n fun m hm =>
    List.mem_toFinset.mpr (hresp m hm).2)

end Run

/-- A node that starts has no reads. -/
theorem counted_launch (M : Medium) (r : Roster) (cfg : NodeId → RaftConfig) :
    ∀ n ∈ (launch M r cfg).members, ((launch M r cfg).node n).Counted [] n := by
  intro n _
  rw [launch_node]
  exact ⟨rfl, fun hmem => r.not_self n ((List.perm_insertionSort _ _).mem_iff.mp hmem),
    fun _ => rfl, fun _ => rfl, fun pr hpr => absurd hpr List.not_mem_nil⟩

/-- **A read is confirmed by a quorum.**  In a run in which no leader acts twice on a reply of the
same node to the same round, whenever `drain_pending_reads` answers a read, the leader and the
nodes that have handled the request of its round in the leader's term are a quorum. -/
theorem read_confirmed (M : Medium) (r : Roster) (cfg : NodeId → RaftConfig) (es : List Event)
    (e : Event) (hs : ∀ es', es' <+: es ++ [e] → ((launch M r cfg).run es').Sized)
    (hack : ((launch M r cfg).readAcks (es ++ [e])).Nodup) :
    ∀ n inp s, ((launch M r cfg).run es).input e = some (n, inp) → n ∈ r.members →
      Moves (((launch M r cfg).run es).node n) ((launch M r cfg).run es).now inp
        (((launch M r cfg).run es).node n) s →
      ∀ ticket v, .readDone ticket true v ∈ s.drainPendingReads.out.drop s.out.length →
        ∃ pr ∈ s.pendingReads, pr.ticket = ticket ∧ v = s.kv.get pr.key ∧
          s.quorum ≤ (insert n ((launch M r cfg).confirming n s.currentTerm pr.round
            (es ++ [e])).toFinset).card := by
  intro n inp s hinp hn hms ticket v hv
  obtain ⟨pr, hpr, hacks, -, ht, hv⟩ := s.drain_readDone.mp hv
  exact ⟨pr, hpr, ht, hv, confirming_quorum (settled_launch M r cfg) (durable_launch M r cfg) rfl
    (counted_launch M r cfg) hs hack hinp hn hms hpr hacks⟩

/-- Node 1 leads, asks both peers about a read, and node 2 replies. -/
def readingRun : List Event :=
  [.electionTimer 1 1, .deliver 0, .deliver 2, .readIndex 1 (Str.lit "k"), .deliver 5]

theorem read_confirmed_three : 2 ≤ (insert 1 ((launched [1, 2, 3]).confirming 1 1 1
    (readingRun ++ [Event.deliver 7])).toFinset).card := by
  let s := ((launched [1, 2, 3]).run readingRun).node 1
  let s' : Node Medium.bytes := { s with pendingReads := Node.ackRead 1 s.pendingReads }
  have hreads : s'.pendingReads = [⟨1, 0, Str.lit "k", 3, 2⟩] := by decide +kernel
  obtain ⟨pr, hpr, -, -, h⟩ := read_confirmed Medium.bytes (.ofList [1, 2, 3]) (fun _ => {})
    readingRun (.deliver 7) (sized_of_fits (by decide +kernel)) (by decide +kernel) 1
    (.message 2 (.readIndexReply ⟨1, 1⟩)) s' rfl (by decide)
    (.single (.ackRead s 2 ⟨1, 1⟩ rfl rfl (by decide +kernel) (by decide +kernel))) 3 none
    (s'.drain_readDone.mpr ⟨_, hreads ▸ List.mem_singleton_self _, by decide +kernel⟩)
  rw [hreads, List.mem_singleton] at hpr
  subst hpr
  have hquorum : s'.quorum = 2 := by decide +kernel
  have hterm : s'.currentTerm = 1 := by decide +kernel
  rwa [hquorum, hterm] at h

/-- Node 1 leads a cluster of five, and the reply of node 2 arrives twice. -/
def duplicatedRun : List Event :=
  [.electionTimer 1 1, .deliver 0, .deliver 1, .deliver 4, .deliver 5, .readIndex 1 (Str.lit "k"),
    .deliver 10, .deliver 14, .deliver 14]

/-- The reads that a run has answered: who, which one, and what. -/
def readsDone (C : Cluster M) : List (NodeId × Nat × Option Str) :=
  C.trace.filterMap fun
    | (_, n, .readDone ticket true v) => some (n, ticket, v)
    | _ => none

/-- **One voter confirms a read.**  The read is answered, and of the quorum of three only node 1
itself and node 2 know of it. -/
theorem one_voter_confirms :
    ((launched [1, 2, 3, 4, 5]).run duplicatedRun).readsDone = [(1, 5, none)] ∧
    (((launched [1, 2, 3, 4, 5]).run duplicatedRun).node 1).quorum = 3 ∧
    (((launched [1, 2, 3, 4, 5]).run duplicatedRun).node 1).currentTerm = 1 ∧
    (launched [1, 2, 3, 4, 5]).confirming 1 1 1 duplicatedRun = [2] := by
  decide +kernel

end Cluster

end SimKV
