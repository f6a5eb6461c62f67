/-
# Where entries and replies come from

A log grows in two ways only: a leader places an entry for a client, and an
`AppendEntries` brings entries out of a log (`Move.logged`).  So whatever is in a log,
in flight or applied was placed by some leader (`applied_placed`), and a leader places
what a client asks for: no command is applied that nobody submitted
(`applied_was_asked`).

A reply to a client has two sources as well.  A node that does not lead refuses the
request it is handling; every other reply goes with a call of the callback of the
request, and carries the result of that call (`reply_cases`).
-/
import SimKV.Raft.Books
import SimKV.Raft.Clients

namespace SimKV

variable {M : Medium}

namespace Cluster

variable {C : Cluster M}

/-- Whatever has been seen in `g` has been seen in `g'`. -/
def Grown (g g' : NodeId → Effect M → Prop) : Prop :=
  ∀ n x, g n x → g' n x

/-- Some node has placed the entry. -/
def Placed (g : NodeId → Effect M → Prop) (e : LogEntry) : Prop := ∃ m cb, g m (.placed cb e)

/-- Every entry of a message was placed. -/
def BringsPlaced (g : NodeId → Effect M → Prop) : Msg M.Blob → Prop
  | .appendEntries ae => ∀ e ∈ ae.entries, Placed g e
  | _ => True

/-- An entry that is applied was placed. -/
def AppliesPlaced (g : NodeId → Effect M → Prop) : Effect M → Prop
  | .applied _ e _ => Placed g e
  | _ => True

section Mono

variable {g g' : NodeId → Effect M → Prop}

theorem Placed.mono (hle : Grown g g') {e : LogEntry} (h : Placed g e) : Placed g' e := by
  obtain ⟨m, cb, hm⟩ := h
  exact ⟨m, cb, hle m _ hm⟩

theorem BringsPlaced.mono (hle : Grown g g') {m : Msg M.Blob} (h : BringsPlaced g m) :
    BringsPlaced g' m := by
  cases m with
  | appendEntries ae => exact fun e he => (h e he).mono hle
  | _ => trivial

theorem AppliesPlaced.mono (hle : Grown g g') {x : Effect M} (h : AppliesPlaced g x) :
    AppliesPlaced g' x := by
  cases x with
  | applied i e kv => exact Placed.mono hle h
  | _ => trivial

end Mono

/-- Every entry, in a log or in flight, was placed; the abstract state is what has been seen. -/
def originInvariant (M : Medium) : Invariant M (NodeId → Effect M → Prop) where
  le := Grown
  node g _ s := ∀ e ∈ s.log.entries, Placed g e
  packet g p := BringsPlaced g p.msg
  effect g _ _ x := AppliesPlaced g x
  seen g n x := g n x
  le_refl _ _ _ h := h
  le_trans _ _ _ h h' n x hx := h' n x (h n x hx)
  packet_mono _ _ _ hle h := h.mono hle
  effect_mono _ _ _ _ _ hle h := h.mono hle
  node_settle _ _ _ h _ := h

theorem origin_exec {e : Event} {g : NodeId → Effect M → Prop} (hC : C.Settled) (hd : C.Durable)
    (hs : C.Sized) (h : (originInvariant M).Holds g C) :
    ∃ g', (originInvariant M).le g g' ∧ (originInvariant M).Holds g' (C.exec e) := by
  refine Invariant.exec (e := e) hC h ?_ fun _ _ _ _ => trivial
  intro n inp s s' g' hinp hn _ _ hm hh
  have hs₀ : ∀ e ∈ s.log.entries, Placed g' e := by
    have := hh.node n hn
    rwa [set_node_self] at this
  let g'' : NodeId → Effect M → Prop := fun m x => g' m x ∨ (m = n ∧ x ∈ s'.out)
  have hle : (originInvariant M).le g' g'' := fun m x hx => Or.inl hx
  have hlog : ∀ e ∈ s'.log.entries, Placed g'' e := by
    intro x hx
    rcases hm.logged (hd.recoverable hs hinp hn) hx with hx | ⟨src, ae, rfl, hx⟩ | ⟨cb, -, hx⟩
    · exact (hs₀ x hx).mono hle
    · obtain ⟨-, p, -, -, -, -, hpm, hp⟩ := hh.delivered hinp
      change BringsPlaced g' p.msg at hp
      rw [hpm] at hp
      exact (hp x hx).mono hle
    · exact ⟨n, cb, Or.inr ⟨rfl, hx⟩⟩
  refine ⟨g'', hle, hlog, fun m _ _ hm' e he => (hm' e he).mono hle, fun x hx => ?_,
    fun d m hsent => ?_, fun _ _ hx => hx⟩
  · cases hx with
    | applied e hlt he => exact (hs₀ e (RaftLog.mem_of_entryAt he)).mono hle
    | _ => trivial
  · cases hsent with
    | appendEntries => exact fun e he => hlog e (RaftLog.mem_of_mem_slice he)
    | _ => trivial

theorem origin_run (hC : C.Settled) (hd : C.Durable) (htrace : C.trace = []) (hnet : C.net = [])
    (hlog : ∀ n ∈ C.members, (C.node n).log = .empty) (es : List Event)
    (hs : ∀ es', es' <+: es → (C.run es').Sized) :
    ∃ g, (originInvariant M).Holds g (C.run es) := by
  refine (Invariant.run (I := originInvariant M) (g := fun _ _ => False) ?_ es ?_).imp
    fun _ h => h.2
  · refine ⟨fun n hn e he => ?_, fun p hp => ?_, fun t n x _ hx => ?_, fun _ _ h => h.elim⟩
    · rw [hlog n hn] at he
      exact absurd he List.not_mem_nil
    · rw [hC.inFlight_iff, hnet] at hp
      exact absurd hp List.not_mem_nil
    · rw [hC.traced_iff, htrace] at hx
      exact absurd hx List.not_mem_nil
  · intro es' e hpre g _ hg
    have hs' : ∀ es'', es'' <+: es' → (C.run es'').Sized := fun es'' h =>
      hs es'' (h.trans ((List.prefix_append _ _).trans hpre))
    exact origin_exec (settled_run hC es') (hd.run hC es' hs') (hs' es' List.prefix_rfl) hg

/-- **What is applied was placed.** -/
theorem applied_placed (hC : C.Settled) (hd : C.Durable) (htrace : C.trace = [])
    (hnet : C.net = []) (hlog : ∀ n ∈ C.members, (C.node n).log = .empty) {es : List Event}
    (hs : ∀ es', es' <+: es → (C.run es').Sized) {n : NodeId} {i : Nat} {e : LogEntry}
    (h : (n, i, e) ∈ (C.run es).applied) : ∃ m cb, (m, cb, e) ∈ (C.run es).placings := by
  have hC' := settled_run hC es
  obtain ⟨g, hg⟩ := origin_run hC hd htrace hnet hlog es hs
  obtain ⟨t, kv, ht⟩ := mem_applied.mp h
  obtain ⟨m, cb, hm⟩ := hg.effect t n _ rfl (hC'.traced_iff.mpr ht)
  obtain ⟨t', ht'⟩ := hg.seen m _ hm
  exact ⟨m, cb, mem_placings.mpr ⟨t', hC'.traced_iff.mp ht'⟩⟩

/-! ## Commands -/

/-- Only clients send requests. -/
theorem request_sent (hC : C.Settled) (hnet : C.net = []) {es : List Event} {p : Packet M}
    {cr : ClientRequest} (hp : p ∈ (C.run es).net) (hm : p.msg = .clientRequest cr) :
    ∃ es', es' ++ [.clientSend p.src p.dst cr] <+: es := by
  obtain ⟨es', e, k, hpre, hsent⟩ := exists_sentBy hnet hp
  rcases hsent.emitted (settled_run hC es') with ⟨inp, s, s', -, -, -, hem, -⟩ | ⟨cr', hcr, rfl⟩
  · rw [hm] at hem
    cases hem
  · rw [hm] at hcr
    cases hcr
    exact ⟨es', hpre⟩

/-- **Whoever places an entry was asked to**, by a call of `submit` or by a request that has
reached it. -/
theorem placed_asked (hC : C.Settled) (htrace : C.trace = []) {es : List Event} {m : NodeId}
    {cb : Callback} {e : LogEntry} (h : (m, cb, e) ∈ (C.run es).placings) :
    ∃ es' ev, es' ++ [ev] <+: es ∧ ((∃ cid rid, ev = .submit m cid rid e.cmd ∧ cb.origin = none) ∨
      ∃ k p cr, ev = .deliver k ∧ (C.run es').net[k]? = some p ∧ p.msg = .clientRequest cr ∧
        cr.cmd = e.cmd ∧ cb.origin = some (p.src, cr)) := by
  obtain ⟨t, ht⟩ := mem_placings.mp h
  obtain ⟨es', ev, inp, s, s', hpre, -, hinp, -, -, -, -, hem, -⟩ :=
    exists_emitted hC htrace rfl ht
  refine ⟨es', ev, hpre, ?_⟩
  cases hem with
  | placed cmd _ h₀ hasks =>
    rcases hasks with ⟨cid, rid, rfl, rfl⟩ | ⟨src, cr, rfl, rfl, rfl⟩
    · left
      cases ev with
      | submit n cid' rid' cmd' =>
        cases hinp
        exact ⟨cid, rid, rfl, rfl⟩
      | deliver k =>
        obtain ⟨p, -, hq⟩ := Option.map_eq_some_iff.mp hinp
        cases hq
      | _ => cases hinp
    · right
      obtain ⟨k, p, rfl, hp, rfl, -, hm⟩ := input_message hinp
      exact ⟨k, p, cr, rfl, hp, hm, rfl, rfl⟩

/-- **No command is made up.**  In every run of any servers, through crashes, restarts, changes of
leader and of the membership, a command that some node applies is one that a client has submitted
at a node or sent in a request. -/
theorem applied_was_asked (M : Medium) (r : Roster) (cfg : NodeId → RaftConfig) (es : List Event)
    (hs : ∀ es', es' <+: es → ((launch M r cfg).run es').Sized) (n : NodeId) (i : Nat)
    (e : LogEntry) (h : (n, i, e) ∈ ((launch M r cfg).run es).applied) :
    (∃ m cid rid, .submit m cid rid e.cmd ∈ es) ∨
      ∃ src dst cid rid, .clientSend src dst ⟨cid, rid, e.cmd⟩ ∈ es := by
  have hC := settled_launch M r cfg
  obtain ⟨m, cb, hpl⟩ := applied_placed hC (durable_launch M r cfg) rfl rfl
    (fun n _ => by rw [launch_node]; rfl) hs h
  obtain ⟨es', ev, hpre, hasked⟩ := placed_asked hC rfl hpl
  have hmem : ∀ {es'' : List Event} {ev : Event}, es'' ++ [ev] <+: es → ev ∈ es :=
    fun hpre => hpre.subset (List.mem_append_right _ (List.mem_singleton_self _))
  rcases hasked with ⟨cid, rid, rfl, -⟩ | ⟨k, p, cr, rfl, hp, hm, hcmd, -⟩
  · exact Or.inl ⟨m, cid, rid, hmem hpre⟩
  · obtain ⟨es'', hsent⟩ := request_sent hC rfl (List.mem_of_getElem? hp) hm
    have hle : es' <+: es := (List.prefix_append _ _).trans hpre
    refine Or.inr ⟨p.src, p.dst, cr.clientId, cr.requestId, ?_⟩
    rw [← hcmd]
    exact hmem (hsent.trans hle)

theorem applied_was_asked_three :
    (∃ m cid rid, .submit m cid rid (.put (Str.lit "k") (Str.lit "a")) ∈ answeringRun) ∨
      ∃ src dst cid rid,
        .clientSend src dst ⟨cid, rid, .put (Str.lit "k") (Str.lit "a")⟩ ∈ answeringRun :=
  applied_was_asked Medium.bytes (.ofList [1, 2, 3]) (fun _ => {}) answeringRun
    (sized_of_fits (by decide +kernel)) 1 1 ⟨1, 1, .put (Str.lit "k") (Str.lit "a")⟩
    (by decide +kernel)

end Cluster

/-! ## Replies -/

/-- Where a reply `r` to `d` comes from, among the effects `es` of a node that handles `inp`: it
refuses a request, or it goes with the call of a callback. -/
def Replied (inp : Input M) (es : List (Effect M)) (d : NodeId) (r : ClientReply) : Prop :=
  (∃ cr, inp = .message d (.clientRequest cr) ∧ r.success = false ∧ r.clientId = cr.clientId ∧
    r.requestId = cr.requestId) ∨
  ∃ cb cr, .clientDone cb r.result ∈ es ∧ cb.origin = some (d, cr) ∧ r.success = true ∧
    r.clientId = cr.clientId ∧ r.requestId = cr.requestId

/-- Every reply among the effects has its source. -/
def RepliesAsked (inp : Input M) (es : List (Effect M)) : Prop :=
  ∀ d r, .send d (.clientReply r) ∈ es → Replied inp es d r

namespace RepliesAsked

variable {inp : Input M} {es es' : List (Effect M)}

theorem append (h : RepliesAsked inp es) (h' : RepliesAsked inp es') :
    RepliesAsked inp (es ++ es') := by
  intro d r hr
  rcases List.mem_append.mp hr with hr | hr
  · exact (h d r hr).imp_right fun ⟨cb, cr, hcb, hrest⟩ =>
      ⟨cb, cr, List.mem_append_left _ hcb, hrest⟩
  · exact (h' d r hr).imp_right fun ⟨cb, cr, hcb, hrest⟩ =>
      ⟨cb, cr, List.mem_append_right _ hcb, hrest⟩

theorem of_none (h : ∀ d r, .send d (.clientReply r) ∉ es) : RepliesAsked inp es :=
  fun d r hr => absurd hr (h d r)

theorem of_quiet (h : Quiet es) : RepliesAsked inp es :=
  of_none fun _ _ hr => Bool.false_ne_true (h _ hr)

theorem nil : RepliesAsked inp ([] : List (Effect M)) := of_none fun _ _ => List.not_mem_nil

/-- One effect that is no reply. -/
theorem one {x : Effect M} (h : ∀ d r, x ≠ .send d (.clientReply r)) : RepliesAsked inp [x] :=
  of_none fun d r hr => h d r (List.mem_singleton.mp hr).symm

end RepliesAsked

namespace Node

variable (inp : Input M)

/-- A callback that is called replies to its request, if it has one. -/
theorem invoke_answers (s : Node M) (cb : Callback) (res : CmdResult) :
    ∃ es, (s.invoke cb res).out = s.out ++ es ∧ RepliesAsked inp es := by
  unfold invoke
  cases ho : cb.origin with
  | none => exact ⟨[_], rfl, .one (by simp)⟩
  | some q =>
    obtain ⟨src, cr⟩ := q
    refine ⟨[.clientDone cb res, .send src (.clientReply ⟨cr.clientId, cr.requestId, true, res,
      s.id⟩)], by simp [emit, send], fun d r hr => ?_⟩
    simp only [List.mem_cons, List.not_mem_nil, or_false, reduceCtorEq, false_or,
      Effect.send.injEq, Msg.clientReply.injEq] at hr
    obtain ⟨rfl, rfl⟩ := hr
    exact Or.inr ⟨cb, cr, List.mem_cons_self, ho, rfl, rfl, rfl⟩

theorem invokeAll_answers (ps : List (Nat × Callback)) (res : CmdResult) (s : Node M) :
    ∃ es, (ps.foldl (fun s p => s.invoke p.2 res) s).out = s.out ++ es ∧ RepliesAsked inp es := by
  induction ps generalizing s with
  | nil => exact ⟨[], (List.append_nil _).symm, .nil⟩
  | cons p ps ih =>
    obtain ⟨es, hes, ha⟩ := s.invoke_answers inp p.2 res
    obtain ⟨es', hes', ha'⟩ := ih (s.invoke p.2 res)
    refine ⟨es ++ es', ?_, ha.append ha'⟩
    rw [List.foldl_cons, hes', hes, List.append_assoc]

theorem answer_answers (s : Node M) (res : CmdResult) :
    ∃ es, (s.answer res).out = s.out ++ es ∧ RepliesAsked inp es := by
  unfold answer
  split
  · exact ⟨[], (List.append_nil _).symm, .nil⟩
  · exact s.invoke_answers inp _ res

theorem dropClients_answers (s : Node M) :
    ∃ es, s.dropClients.out = s.out ++ es ∧ RepliesAsked inp es := by
  obtain ⟨es, hes, ha⟩ := invokeAll_answers inp s.pendingClients.toList nodeCrashed s
  unfold dropClients
  simp only [hes]
  refine ⟨es ++ _, List.append_assoc _ _ _, ha.append (.of_none fun d r hr => ?_)⟩
  obtain ⟨pr, -, hpr⟩ := List.mem_map.mp hr
  cases hpr

end Node

section Replies

variable {n₀ s s' : Node M} {t : Nat} {inp : Input M}

/-- **What a move adds to the effects, and where the replies among it come from.** -/
theorem Move.repliesAsked (h : Move n₀ t inp s s') :
    ∃ es, s'.out = s.out ++ es ∧ RepliesAsked inp es := by
  have same : s'.out = s.out → ∃ es, s'.out = s.out ++ es ∧ RepliesAsked inp es :=
    fun h => ⟨[], by rw [h, List.append_nil], .nil⟩
  cases h with
  | quiet tm es hq => exact ⟨es, rfl, .of_quiet hq⟩
  | newTerm T l tm es hq => exact ⟨es, rfl, .of_quiet hq⟩
  | follow l tm prs es hq => exact ⟨es, rfl, .of_quiet hq⟩
  | grant src rv tm es hq => exact ⟨es, rfl, .of_quiet hq⟩
  | win tm es hq => exact ⟨es, rfl, .of_quiet hq⟩
  | snapshot k es hq => exact ⟨es, rfl, .of_quiet hq⟩
  | install src is kv es hq => exact ⟨es, rfl, .of_quiet hq⟩
  | replyVote => exact ⟨_, rfl, .one (by simp)⟩
  | sendSnapshot => exact ⟨_, rfl, .one (by simp)⟩
  | sendAppend => exact ⟨_, rfl, .one (by simp)⟩
  | replyAppend => exact ⟨_, rfl, .one (by simp)⟩
  | rejectStale => exact ⟨_, rfl, .one (by simp)⟩
  | rejectConflict => exact ⟨_, rfl, .one (by simp)⟩
  | replySnapshot => exact ⟨_, rfl, .one (by simp)⟩
  | replyRead => exact ⟨_, rfl, .one (by simp)⟩
  | applyKv => exact ⟨_, rfl, .one (by simp)⟩
  | stand tm es es' hq hq' =>
    refine ⟨_, rfl, ((RepliesAsked.of_quiet hq).append (.of_none fun d r hr => ?_)).append
      (.of_quiet hq')⟩
    obtain ⟨p, -, hp⟩ := List.mem_map.mp hr
    cases hp
  | accept src ae es hq =>
    exact ⟨es ++ [.accepted ae], by exact List.append_assoc s.out es _,
      (RepliesAsked.of_quiet hq).append (.one (by simp))⟩
  | place cmd cb cp es hq =>
    exact ⟨es ++ [.placed cb _], by exact List.append_assoc s.out es _,
      (RepliesAsked.of_quiet hq).append (.one (by simp))⟩
  | answer e kv happ hdone hpend pc es ha => exact ha ▸ s.answer_answers inp _
  | drain =>
    refine ⟨_, rfl, .of_none fun d r hr => ?_⟩
    obtain ⟨pr, -, hpr⟩ := List.mem_flatMap.mp hr
    simp at hpr
  | refuse src cr hinp =>
    refine ⟨[_], rfl, fun d r hr => ?_⟩
    cases List.mem_singleton.mp hr
    exact Or.inl ⟨cr, hinp, rfl, rfl, rfl⟩
  | beginRead key =>
    refine ⟨[.readBegun t s.commitIndex, .timer (.scheduleRead s.nextReadRound)] ++
      s.peers.map fun d => .send d (.readIndexRequest ⟨s.currentTerm, s.id, s.nextReadRound⟩),
      by simp [Node.beginRead, Node.emit, Node.sendAll], .of_none fun d r hr => ?_⟩
    simp at hr
  | readNow key =>
    exact ⟨[.readBegun t s.commitIndex, .readDone t true (s.kv.get key)],
      by simp [Node.readNow, Node.emit], .of_none fun d r hr => by simp at hr⟩
  | readTimeout round prs es hq => exact ⟨es, rfl, .of_quiet hq⟩
  | crash kv hinp h₀ hkv es hd =>
    have ha := ({ s.stop with kv := kv } : Node M).dropClients_answers inp
    rwa [hd] at ha
  | boot _ hinp h₀ hrun hboot =>
    have hf := s.reboot_out
    rw [hboot] at hf
    exact same hf
  | _ => exact same rfl

theorem Moves.repliesAsked (h : Moves n₀ t inp s s') (hs : RepliesAsked inp s.out) :
    RepliesAsked inp s'.out := by
  induction h with
  | refl => exact hs
  | tail _ hm ih =>
    obtain ⟨es, hes, ha⟩ := hm.repliesAsked
    rw [hes]
    exact ih.append ha

end Replies

/-- A command is never answered as a crash answers it. -/
theorem KvStore.apply_ne_nodeCrashed (kv : KvStore) (cmd : Command) :
    (kv.apply cmd).2 ≠ Node.nodeCrashed := by
  have hne : ∀ {ok : Bool} {v e : Str}, e ≠ Str.lit "node_crashed" →
      (⟨ok, v, e⟩ : CmdResult) ≠ Node.nodeCrashed :=
    fun he h => he (congrArg CmdResult.error h)
  cases cmd with
  | cas key expected value =>
    unfold apply
    simp only
    split
    · exact hne (by decide)
    · exact hne (by decide)
  | _ => exact hne (by decide)

namespace Cluster

variable {C : Cluster M}

/-- **A reply refuses a request, or carries what the callback of a request was called with.** -/
theorem reply_cases (hC : C.Settled) (hnet : C.net = []) {es : List Event} {p : Packet M}
    {r : ClientReply} (hp : p ∈ (C.run es).net) (hm : p.msg = .clientReply r) :
    r.success = false ∨ ∃ cb cr, (p.src, cb, r.result) ∈ (C.run es).answers ∧
      cb.origin = some (p.dst, cr) ∧ r.clientId = cr.clientId ∧ r.requestId = cr.requestId := by
  obtain ⟨es', e, k, hpre, hsent⟩ := exists_sentBy hnet hp
  have hC' := settled_run hC es'
  rcases hsent.cases with ⟨inp, hinp, hn, hsend⟩ | ⟨cr, hcr, -⟩
  · have hmoves := (Node.handle_moves _ (C.run es').now inp (hC' p.src).2).1
    rw [hm] at hsend
    have hstart : RepliesAsked inp ((C.run es').node p.src).out := by
      rw [(hC' p.src).1]
      exact .nil
    rcases hmoves.repliesAsked hstart _ _ hsend with ⟨cr, -, hs, -⟩ | ⟨cb, cr, hcb, ho, -, hrest⟩
    · exact Or.inl hs
    · refine Or.inr ⟨cb, cr, mem_answers.mpr ⟨(C.run es').now, ?_⟩, ho, hrest⟩
      refine run_trace_mono hpre ?_
      rw [run_append]
      change _ ∈ ((C.run es').exec e).trace
      rw [exec_eq hinp hn]
      exact List.mem_append_right _ (List.mem_map.mpr ⟨_, hcb, rfl⟩)
  · rw [hm] at hcr
    cases hcr

/-- **Whoever is answered had an entry placed**, and is given the result of that entry, unless the
node crashed while it was waiting. -/
theorem answer_cases (hC : C.Settled) (hd : C.Durable) (htrace : C.trace = [])
    (hnone : ∀ n ∈ C.members, (C.node n).pendingClients = .empty) {es : List Event}
    (hs : ∀ es', es' <+: es → (C.run es').Sized) (hkeep : C.Along PendingKept es) {n : NodeId}
    {cb : Callback} {r : CmdResult} (h : (n, cb, r) ∈ (C.run es).answers) :
    ∃ e, (n, cb, e) ∈ (C.run es).placings ∧
      ((∃ t kv, (t, n, .applied e.index e kv) ∈ (C.run es).trace ∧ r = (kv.apply e.cmd).2) ∨
        (r = Node.nodeCrashed ∧ ∃ es' i, es' ++ [.crash n] <+: es ∧
          ((C.run es').node n).pendingClients.find? i = some cb)) := by
  obtain ⟨t, ht⟩ := mem_answers.mp h
  obtain ⟨es', ev, inp, s, s', hpre, -, hinp, hn, -, -, -, hem, -⟩ :=
    exists_emitted hC htrace rfl ht
  have hle : es' <+: es := (List.prefix_append _ _).trans hpre
  cases hem with
  | answered _ e₀ kv₀ happ hcb =>
    obtain ⟨g, hg⟩ := client_run hC hd htrace hnone es hs hkeep
    have hC' := settled_run hC es
    rcases hg.effect t n _ rfl (hC'.traced_iff.mpr ht) with hr | ⟨e, kv, hpl, ha, hr⟩
    · exact absurd hr (KvStore.apply_ne_nodeCrashed _ _)
    · obtain ⟨t₁, hpl⟩ := hg.seen n _ hpl
      obtain ⟨t₂, ha⟩ := hg.seen n _ ha
      exact ⟨e, mem_placings.mpr ⟨t₁, hC'.traced_iff.mp hpl⟩,
        Or.inl ⟨t₂, kv, hC'.traced_iff.mp ha, hr⟩⟩
  | dropped _ i hcrash h₀ hcb =>
    -- it was waiting for its entry when the node crashed
    subst h₀ hcrash
    obtain ⟨g, hg⟩ := client_run hC hd htrace hnone es' (fun es'' h => hs es'' (h.trans hle))
      (hkeep.isPre hle)
    obtain ⟨e, -, hpl, -⟩ := hg.node n hn i cb hcb
    obtain ⟨t₁, hpl⟩ := hg.seen n _ hpl
    have hpl := (settled_run hC es').traced_iff.mp hpl
    refine ⟨e, mem_placings.mpr ⟨t₁, run_trace_mono hle hpl⟩, Or.inr ⟨rfl, es', i, ?_, hcb⟩⟩
    cases ev with
    | crash m =>
      cases hinp
      exact hpre
    | deliver k =>
      obtain ⟨p, -, hq⟩ := Option.map_eq_some_iff.mp hinp
      cases hq
    | _ => cases hinp

end Cluster

end SimKV
