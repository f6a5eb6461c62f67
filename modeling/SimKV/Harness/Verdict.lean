/-
# The verdict on a run

The checker looks only at the operations with a definite answer, and at Puts that a
crash has cut off.  A history in which nothing is in doubt it judges right, provided
that the operations it leaves out had no effect: those that were refused.  A node that
refuses a request does nothing with it (`Node.refused_places_nothing`), and as long as
the network brings no second copy of it (`RequestsOnce`) nobody else does
(`Harness.refused_unserved`).  A Get whose value happens to read like a refusal is left
out as well; it changes nothing.

So a run in which no client gave up and no crash was reported passes the check
(`Harness.checker_accepts`).
-/
import SimKV.Harness.Linearizable

namespace SimKV

open Schedule

variable {M : Medium}

/-! ## Refusals -/

/-- A node that refuses a request places no entry in that step. -/
theorem Node.refused_places_nothing {s : Node M} (hi : s.Rested) (hout : s.out = []) {t : Nat}
    {inp : Input M} {d : NodeId} {r : ClientReply}
    (h : .send d (.clientReply r) ∈ (s.handle t inp).out) (hr : r.success = false) (cb : Callback)
    (e : LogEntry) : .placed cb e ∉ (s.handle t inp).out := by
  intro hpl
  obtain ⟨cmd, -, -, -, -, hrest⟩ := handle_placed hi hout hpl
  -- what follows the placing does not depend on the input, so it answers nobody's message
  have hplaced : RepliesAsked (.crash : Input M) (s.placeEntry cmd cb).out := by
    obtain ⟨es, hq, -, heq⟩ := s.placeEntry_eq cmd cb
    have hes : (s.placeEntry cmd cb).out =
        es ++ [.placed cb ⟨s.currentTerm, s.log.lastIndex + 1, cmd⟩] := by
      rw [heq]
      exact congrArg (· ++ es ++ _) hout
    rw [hes]
    exact (RepliesAsked.of_quiet hq).append (.one (by simp))
  rcases (hrest .crash).repliesAsked hplaced d r h with ⟨cr, hinp, -⟩ | ⟨cb', cr, -, -, hs, -⟩
  · cases hinp
  · rw [hr] at hs
    cases hs

def Msg.isRequest {B : Type} : Msg B → Bool
  | .clientRequest _ => true
  | _ => false

/-- In two places of a list that has it once. -/
theorem eq_of_count_le_one {α : Type} [DecidableEq α] {l l₁ l₂ : List α} {a : α}
    (h₁ : l₁ ++ [a] <+: l) (h₂ : l₂ ++ [a] <+: l) (hc : l.count a ≤ 1) : l₁ = l₂ := by
  have hlt : ∀ {l₁ l₂ : List α}, l₁ ++ [a] <+: l → l₂ ++ [a] <+: l → ¬ l₁.length < l₂.length := by
    intro l₁ l₂ h₁ h₂ hlen
    have hpre : l₁ ++ [a] <+: l₂ := List.prefix_of_prefix_length_le h₁
      ((List.prefix_append _ _).trans h₂) (by rw [List.length_append]; exact hlen)
    have hin : 1 ≤ l₂.count a := List.one_le_count_iff.mpr (hpre.subset (by simp))
    have hle := h₂.sublist.count_le a
    simp only [List.count_append, List.count_singleton_self] at hle
    omega
  have hlen : l₁.length = l₂.length :=
    Nat.le_antisymm (Nat.not_lt.mp (hlt h₂ h₁)) (Nat.not_lt.mp (hlt h₁ h₂))
  exact (List.append_inj ((List.prefix_of_prefix_length_le h₁ h₂ (by simp [hlen])).eq_of_length
    (by simp [hlen])) hlen).1

namespace Cluster

variable {C : Cluster M} {es : List Event}

/-- The network delivers every request at most once. -/
def RequestsOnce (C : Cluster M) (es : List Event) : Prop :=
  ∀ k ∈ List.range (C.run es).net.length,
    ((C.run es).net[k]?.any fun p => p.msg.isRequest) = true → es.count (.deliver k) ≤ 1

instance (C : Cluster M) (es : List Event) : Decidable (C.RequestsOnce es) := by
  unfold RequestsOnce
  infer_instance

/-- A request delivered twice is delivered in one step. -/
theorem RequestsOnce.eq (h : C.RequestsOnce es) {es₁ es₂ : List Event} {k : Nat} {p : Packet M}
    {cr : ClientRequest} (h₁ : es₁ ++ [.deliver k] <+: es) (h₂ : es₂ ++ [.deliver k] <+: es)
    (hp : (C.run es₁).net[k]? = some p) (hm : p.msg = .clientRequest cr) : es₁ = es₂ := by
  have hp' : (C.run es).net[k]? = some p := by
    obtain ⟨rest, rfl⟩ := (List.prefix_append _ _).trans h₁
    rw [run_append]
    exact run_net_getElem? rest hp
  refine eq_of_count_le_one h₁ h₂ (h k ?_ ?_)
  · exact List.mem_range.mpr (List.getElem?_eq_some_iff.mp hp').1
  · rw [hp', Option.any_some, hm]
    rfl

/-- A request in the network was there before, or is the one just sent. -/
theorem exec_request (hC : C.Settled) {ev : Event} {k : Nat} {p : Packet M} {cr : ClientRequest}
    (hp : (C.exec ev).net[k]? = some p) (hm : p.msg = .clientRequest cr) :
    C.net[k]? = some p ∨ (k = C.net.length ∧ ev = .clientSend p.src p.dst cr) := by
  rcases Nat.lt_or_ge k C.net.length with hk | hk
  · obtain ⟨ps, hps⟩ := C.exec_net ev
    rw [hps, List.getElem?_append_left hk] at hp
    exact Or.inl hp
  · rcases SentBy.emitted hC ⟨hk, hp⟩ with ⟨inp, s, s', -, -, -, hem, -⟩ | ⟨cr', hcr, hev⟩
    · rw [hm] at hem
      cases hem
    · rw [hm] at hcr
      cases hcr
      have hlt : k < (C.exec ev).net.length := (List.getElem?_eq_some_iff.mp hp).1
      rw [hev] at hlt
      change k < (C.net ++ [_]).length at hlt
      rw [List.length_append, List.length_singleton] at hlt
      exact Or.inr ⟨Nat.le_antisymm (Nat.lt_succ_iff.mp hlt) hk, hev⟩

/-- Who was refused had sent the request, and the node placed nothing when it arrived. -/
theorem refusal_cases (hC : C.Settled) (hnet : C.net = []) {p : Packet M} {r : ClientReply}
    (hp : p ∈ (C.run es).net) (hm : p.msg = .clientReply r) (hr : r.success = false) :
    ∃ es' k q cr, es' ++ [.deliver k] <+: es ∧ (C.run es').net[k]? = some q ∧
      q.msg = .clientRequest cr ∧ q.src = p.dst ∧ cr.clientId = r.clientId ∧
      cr.requestId = r.requestId ∧ ∀ cb e, .placed cb e ∉
        (((C.run es').node q.dst).handle (C.run es').now (.message q.src q.msg)).out := by
  obtain ⟨es', e, k, hpre, hsent⟩ := exists_sentBy hnet hp
  have hC' := settled_run hC es'
  rcases hsent.cases with ⟨inp, hinp, -, hsend⟩ | ⟨cr, hcr, -⟩
  · rw [hm] at hsend
    have hmoves := (Node.handle_moves _ (C.run es').now inp (hC' p.src).2).1
    have hstart : RepliesAsked inp ((C.run es').node p.src).out := by
      rw [(hC' p.src).1]
      exact .nil
    have hnone := Node.refused_places_nothing (hC' p.src).2 (hC' p.src).1 hsend hr
    rcases hmoves.repliesAsked hstart _ _ hsend with
      ⟨cr, rfl, -, hcid, hrid⟩ | ⟨cb, cr, -, -, hs, -⟩
    · obtain ⟨k, q, rfl, hq, hsrc, hdst, hqm⟩ := input_message hinp
      rw [← hsrc, ← hqm, ← hdst] at hnone
      exact ⟨es', k, q, cr, hpre, hq, hqm, hsrc, hcid.symm, hrid.symm, hnone⟩
    · rw [hr] at hs
      cases hs
  · rw [hm] at hcr
    cases hcr

/-- Who is asked to place an entry places it when the request arrives. -/
theorem placing_step (hC : C.Settled) (htrace : C.trace = []) {m : NodeId} {cb : Callback}
    {e : LogEntry} (h : (m, cb, e) ∈ (C.run es).placings) {src : NodeId} {cr : ClientRequest}
    (ho : cb.origin = some (src, cr)) :
    ∃ es' k q, es' ++ [.deliver k] <+: es ∧ (C.run es').net[k]? = some q ∧
      q.msg = .clientRequest cr ∧ q.src = src ∧ .placed cb e ∈
        (((C.run es').node q.dst).handle (C.run es').now (.message q.src q.msg)).out := by
  obtain ⟨t, ht⟩ := mem_placings.mp h
  obtain ⟨es', ev, inp, hpre, rfl, hinp, -, hout⟩ := exists_effect htrace ht
  have hC' := settled_run hC es'
  obtain ⟨cmd, -, hasks, -⟩ := Node.handle_placed (hC' m).2 (hC' m).1 hout
  rcases hasks with ⟨cid, rid, -, rfl⟩ | ⟨src', cr', rfl, -, rfl⟩
  · cases ho
  · cases ho
    obtain ⟨k, q, rfl, hq, rfl, rfl, hqm⟩ := input_message hinp
    rw [← hqm] at hout
    exact ⟨es', k, q, hpre, hq, hqm, rfl, hout⟩

end Cluster

/-- What a command fails with is no refusal. -/
theorem KvStore.apply_error_ne (kv : KvStore) (cmd : Command) :
    (kv.apply cmd).2.error ≠ Str.lit "not_leader" := by
  have hne : Str.lit "" ≠ Str.lit "not_leader" := by decide
  cases cmd with
  | cas key expected value =>
    unfold apply
    simp only
    split
    · exact (by decide : Str.lit "cas_mismatch" ≠ Str.lit "not_leader")
    · exact hne
  | _ => exact hne

/-! ## Every request is sent once -/

namespace Harness

/-- The request of a new operation has a new number. -/
theorem issue_number {H : Harness M} {e : HarnessEvent} (he : e.ownClients = true)
    {src dst : NodeId} {cr : ClientRequest}
    (h : H.clusterEvent e = some (.clientSend src dst cr)) :
    ∃ ci, src = kClientIdBase + ci ∧ cr.requestId = (H.workload.clients ci).nextRequestId := by
  cases e with
  | cluster e =>
    cases h
    cases he
  | issue ci kind key value expected =>
    rw [clusterEvent] at h
    split at h
    · obtain ⟨⟨d, cr'⟩, hq, hsend⟩ := Option.map_eq_some_iff.mp h
      cases hsend
      refine ⟨ci, rfl, ?_⟩
      unfold Workload.issueOp at hq
      split at hq
      · cases hq
      · split at hq
        · cases hq
        · cases hq
          rfl
    · cases h
  | _ => cases h

section Once

variable {mem : Membership} {cfg : NodeId → RaftConfig} {wcfg : WorkloadConfig}
  {nodes : List NodeId} {es : List HarnessEvent}

/-- **No two packets carry requests of the same ids.** -/
theorem requests_apart (hown : ∀ e ∈ es, e.ownClients = true) {k₁ k₂ : Nat} {p₁ p₂ : Packet M}
    {cr₁ cr₂ : ClientRequest}
    (h₁ : ((init M mem cfg wcfg nodes).run es).cluster.net[k₁]? = some p₁)
    (hm₁ : p₁.msg = .clientRequest cr₁)
    (h₂ : ((init M mem cfg wcfg nodes).run es).cluster.net[k₂]? = some p₂)
    (hm₂ : p₂.msg = .clientRequest cr₂) (hsrc : p₁.src = p₂.src)
    (hreq : cr₁.requestId = cr₂.requestId) : k₁ = k₂ := by
  induction es using List.reverseRecOn with
  | nil => exact absurd h₁ (by simp [run, init, Cluster.init])
  | append_singleton es e ih =>
    have hown' : ∀ e ∈ es, e.ownClients = true := fun e he => hown e (by simp [he])
    rw [run_append] at h₁ h₂
    change (((init M mem cfg wcfg nodes).run es).exec e).cluster.net[k₁]? = some p₁ at h₁
    change (((init M mem cfg wcfg nodes).run es).exec e).cluster.net[k₂]? = some p₂ at h₂
    rw [exec_cluster] at h₁ h₂
    cases hev : ((init M mem cfg wcfg nodes).run es).clusterEvent e with
    | none =>
      rw [hev] at h₁ h₂
      exact ih hown' h₁ h₂
    | some ev =>
      rw [hev] at h₁ h₂
      have hC : ((init M mem cfg wcfg nodes).run es).cluster.Settled := by
        rw [run_cluster]
        exact Cluster.settled_run (Cluster.settled_init M mem cfg) _
      -- the number of a new request is above those of its client in the network
      have hfresh : ∀ {k : Nat} {p p' : Packet M} {cr cr' : ClientRequest},
          ((init M mem cfg wcfg nodes).run es).cluster.net[k]? = some p →
          p.msg = .clientRequest cr → ev = .clientSend p'.src p'.dst cr' → p.src = p'.src →
          cr.requestId ≠ cr'.requestId := by
        intro k p p' cr cr' hp hm hnew hs
        rw [hnew] at hev
        obtain ⟨ci, hci, hnum⟩ := issue_number (hown e (by simp)) hev
        obtain ⟨i, x, hx, hid, hxr⟩ := requested_run hown' (List.mem_of_getElem? hp) hm
        obtain ⟨cj, hcj, hlt⟩ :=
          ((kept_init M mem cfg wcfg nodes).run es).1.numbered.below i x hx
        have hj : cj = ci :=
          Nat.add_left_cancel (hcj.symm.trans (hid.trans (hs.trans hci)))
        have hxid : x.requestId = cr.requestId := congrArg ClientRequest.requestId hxr
        rw [hnum, ← hxid, ← hj]
        exact Nat.ne_of_lt hlt
      rcases Cluster.exec_request hC h₁ hm₁ with h₁ | ⟨hk₁, he₁⟩
      · rcases Cluster.exec_request hC h₂ hm₂ with h₂ | ⟨-, he₂⟩
        · exact ih hown' h₁ h₂
        · exact absurd hreq (hfresh h₁ hm₁ he₂ hsrc)
      · rcases Cluster.exec_request hC h₂ hm₂ with h₂ | ⟨hk₂, -⟩
        · exact absurd hreq.symm (hfresh h₂ hm₂ he₁ hsrc.symm)
        · rw [hk₁, hk₂]

/-- A client's requests carry its own id. -/
theorem request_src (hown : ∀ e ∈ es, e.ownClients = true) {p : Packet M} {cr : ClientRequest}
    (hp : p ∈ ((init M mem cfg wcfg nodes).run es).cluster.net) (hm : p.msg = .clientRequest cr) :
    p.src = cr.clientId := by
  obtain ⟨i, x, -, hid, hxr⟩ := requested_run hown hp hm
  rw [← hid, ← hxr]
  rfl

/-- What a cluster has in its network it keeps. -/
theorem net_of_isPre {c : List Event} {k : Nat} {p : Packet M}
    (hc : c <+: (init M mem cfg wcfg nodes).clusterEvents es)
    (hp : ((Cluster.init M mem cfg).run c).net[k]? = some p) :
    ((init M mem cfg wcfg nodes).run es).cluster.net[k]? = some p := by
  obtain ⟨rest, hrest⟩ := hc
  rw [run_cluster, ← hrest]
  change ((Cluster.init M mem cfg).run (c ++ rest)).net[k]? = some p
  rw [Cluster.run_append]
  exact Cluster.run_net_getElem? rest hp

/-- Two deliveries of requests of the same ids are one. -/
theorem delivered_once (hown : ∀ e ∈ es, e.ownClients = true)
    (honce : (Cluster.init M mem cfg).RequestsOnce ((init M mem cfg wcfg nodes).clusterEvents es))
    {c₁ c₂ : List Event} {k₁ k₂ : Nat} {p₁ p₂ : Packet M} {cr₁ cr₂ : ClientRequest}
    (hc₁ : c₁ ++ [.deliver k₁] <+: (init M mem cfg wcfg nodes).clusterEvents es)
    (h₁ : ((Cluster.init M mem cfg).run c₁).net[k₁]? = some p₁)
    (hm₁ : p₁.msg = .clientRequest cr₁)
    (hc₂ : c₂ ++ [.deliver k₂] <+: (init M mem cfg wcfg nodes).clusterEvents es)
    (h₂ : ((Cluster.init M mem cfg).run c₂).net[k₂]? = some p₂)
    (hm₂ : p₂.msg = .clientRequest cr₂) (hcid : cr₁.clientId = cr₂.clientId)
    (hrid : cr₁.requestId = cr₂.requestId) : c₁ = c₂ ∧ k₁ = k₂ := by
  have h₁' := net_of_isPre ((List.prefix_append _ _).trans hc₁) h₁
  have h₂' := net_of_isPre ((List.prefix_append _ _).trans hc₂) h₂
  have hsrc : p₁.src = p₂.src := by
    rw [request_src hown (List.mem_of_getElem? h₁') hm₁,
      request_src hown (List.mem_of_getElem? h₂') hm₂, hcid]
  have hk : k₁ = k₂ := requests_apart hown h₁' hm₁ h₂' hm₂ hsrc hrid
  subst hk
  exact ⟨honce.eq hc₁ hc₂ h₁ hm₁, rfl⟩

variable (hown : ∀ e ∈ es, e.ownClients = true)
  (honce : (Cluster.init M mem cfg).RequestsOnce ((init M mem cfg wcfg nodes).clusterEvents es))

include hown honce in
/-- No request that is delivered once is accepted twice. -/
theorem copiesFresh_of_once : (Cluster.init M mem cfg).Along Cluster.CopiesFresh
    ((init M mem cfg wcfg nodes).clusterEvents es) := by
  refine Cluster.along_of_at fun c ev hpre => ?_
  unfold Cluster.CopiesFresh
  split
  · rename_i n src cr hinp
    rintro - ⟨m, cb, e⟩ hpl hid
    exfalso
    obtain ⟨k, q, rfl, hq, -, -, hqm⟩ := Cluster.input_message hinp
    obtain ⟨⟨src', cr'⟩, ho, hids⟩ := Option.map_eq_some_iff.mp hid
    obtain ⟨c', k', q', hpre', hq', hqm', -, -⟩ :=
      Cluster.placing_step (Cluster.settled_init M mem cfg) rfl hpl ho
    obtain ⟨hcid, hrid⟩ := Prod.mk.inj hids
    have hle : c <+: (init M mem cfg wcfg nodes).clusterEvents es :=
      (List.prefix_append _ _).trans hpre
    obtain ⟨rfl, -⟩ := delivered_once hown honce hpre hq hqm (hpre'.trans hle) hq' hqm' hcid.symm
      hrid.symm
    have := hpre'.length_le
    rw [List.length_append, List.length_singleton] at this
    omega
  · trivial

/-- What is recorded of a command that was executed is no refusal, a value that was read apart. -/
theorem responseOf_ne {kind : OpKind} {r : CmdResult} (hk : kind ≠ .get)
    (hr : r.error ≠ Str.lit "not_leader") :
    Workload.responseOf kind r ≠ Str.lit "not_leader" := by
  unfold Workload.responseOf
  cases kind with
  | get => exact absurd rfl hk
  | put =>
    simp only
    split
    · decide
    · exact hr
  | cas =>
    simp only
    split <;> decide

include hown honce in
/-- **A refused operation has no effect.** -/
theorem refused_unserved
    (hs : ∀ c, c <+: (init M mem cfg wcfg nodes).clusterEvents es →
      ((Cluster.init M mem cfg).run c).Sized)
    (hkeep : (Cluster.init M mem cfg).Along Cluster.PendingKept
      ((init M mem cfg wcfg nodes).clusterEvents es)) {y : HistoryEntry} (hp : y.pending = false)
    (hresp : y.response = Str.lit "not_leader") (hk : y.kind ≠ .get) (e : LogEntry) :
    ¬ ((init M mem cfg wcfg nodes).run es).Serves e y := by
  intro hserve
  have hkept := kept_init M mem cfg wcfg nodes
  have hC := Cluster.settled_init M mem cfg
  obtain ⟨i, hy⟩ := List.getElem?_of_mem hserve.mem
  obtain ⟨es', ev, hpre, ci, x, ok, response, hw, rfl, hx, rfl, hends⟩ :=
    exists_answered hkept rfl hy hp
  have hle : es' <+: es := (List.prefix_append _ _).trans hpre
  have hcle := (init M mem cfg wcfg nodes).clusterEvents_isPre hle
  cases hends with
  | timeout => exact absurd hresp (by simp only [HistoryEntry.answered]; decide)
  | refused k p reply hrp hm hs' hid =>
    obtain ⟨hpin, hdst⟩ := replyTo_eq_some hrp
    rw [run_cluster] at hpin
    obtain ⟨c, k', q, cr, hc, hq, hqm, hqs, -, hrid, hnone⟩ :=
      Cluster.refusal_cases hC rfl hpin hm hs'
    obtain ⟨m, cb, hpl, ho⟩ := hserve.placed
    rw [run_cluster] at hpl
    obtain ⟨c', k'', q', hc', hq', hqm', -, hout⟩ := Cluster.placing_step hC rfl hpl ho
    -- the request that was refused is that of the operation
    have hkept' := (hkept.run es').1
    have hcid : cr.clientId = x.clientId := by
      rw [← request_src hown (List.mem_of_getElem? (net_of_isPre
        (((List.prefix_append _ _).trans hc).trans hcle) hq)) hqm, hqs, hdst]
      exact (hkept'.books.owner ci x hw hx).symm
    have hxr : cr.requestId = x.requestId := by
      rw [hrid, hid]
      change pred64 (((init M mem cfg wcfg nodes).run es').session.workload.clients
        ci).nextRequestId = _
      rw [← hkept'.numbered.last ci x hw hx]
      rfl
    obtain ⟨rfl, rfl⟩ := delivered_once hown honce (hc.trans hcle) hq hqm hc' hq' hqm' hcid hxr
    cases hq.symm.trans hq'
    exact hnone cb e hout
  | answered k p reply hrp hm hs' hid =>
    obtain ⟨hpin, -⟩ := replyTo_eq_some hrp
    rw [run_cluster] at hpin
    obtain hno | ⟨cb, cr, hans, -⟩ := Cluster.reply_cases hC rfl hpin hm
    · rw [hs'] at hno
      cases hno
    · obtain ⟨e, -, hres⟩ := Cluster.answer_cases hC (Cluster.durable_init M mem cfg) rfl
        (fun n _ => by rw [Cluster.init_node]; rfl) (fun c h => hs c (h.trans hcle))
        (hkeep.isPre hcle) hans
      refine responseOf_ne hk ?_ hresp
      rcases hres with ⟨t, kv, -, hr⟩ | ⟨hr, -⟩
      · rw [hr]
        exact kv.apply_error_ne e.cmd
      · rw [hr]
        decide

end Once

end Harness

/-! ## The verdict -/

/-- The checker is content with an order of the operations with a definite answer. -/
theorem checkLinearizable_of_schedulable {h : History}
    (hint : ∀ x ∈ h.entries.filter (fun x => x.keyOp.certain), x.invoke ≤ x.ret)
    (hs : Schedulable (Precedes HistoryEntry.invoke HistoryEntry.ret) KvStore.answer .empty
      (h.entries.filter fun x => x.keyOp.certain)) : (checkLinearizable h).ok = true := by
  rw [checkLinearizable_ok]
  intro k
  have hk := (parted_answer.schedulable_iff hint).mp hs k
  have hops : ((part HistoryEntry.key k h.completed).map HistoryEntry.keyOp).filter KeyOp.certain =
      (part HistoryEntry.key k (h.entries.filter fun x => x.keyOp.certain)).map
        HistoryEntry.keyOp := by
    rw [List.filter_map]
    congr 1
    unfold part History.completed
    simp only [List.filter_filter]
    refine List.filter_congr fun x _ => ?_
    cases hc : x.keyOp.certain with
    | false => simp [hc]
    | true =>
      have hp : x.pending = false := certain_pending hc
      simp [hc, hp]
  rw [checkKeyLinearizable_iff]
  refine ⟨[], List.nil_sublist _, Or.inr (Or.inl rfl), ?_⟩
  rw [List.map_nil, List.append_nil, hops, schedulable_map]
  exact hk.mono fun a _ b _ hab => hab.2

namespace Harness

/-- The checker finds the order of the committed entries. -/
theorem accepted {mem : Membership} {cfg : NodeId → RaftConfig} {wcfg : WorkloadConfig}
    {nodes : List NodeId} {es : List HarnessEvent} (hown : ∀ e ∈ es, e.ownClients = true)
    (hcfg : ∀ n ∈ mem.members, ConfigOk .snapshots (cfg n))
    (hb : (Cluster.init M mem cfg).Benign ((init M mem cfg wcfg nodes).clusterEvents es))
    (honce : (Cluster.init M mem cfg).RequestsOnce ((init M mem cfg wcfg nodes).clusterEvents es))
    (hdone : ∀ x ∈ ((init M mem cfg wcfg nodes).run es).workload.history.entries,
      x.pending = false ∧ x.response ≠ Str.lit "timeout" ∧ x.response ≠ Str.lit "node_crashed") :
    (checkLinearizable ((init M mem cfg wcfg nodes).run es).workload.history).ok = true := by
  have hcopies := copiesFresh_of_once hown honce
  obtain ⟨cs, hcs, hrep⟩ := exists_replays hown hcfg hb
  obtain ⟨l, hl⟩ := exists_order hown hb hcs
  have hmem : ∀ x ∈ l, ∃ e, ((init M mem cfg wcfg nodes).run es).Serves e x := by
    intro x hx
    obtain ⟨k, hk⟩ := List.getElem?_of_mem hx
    obtain ⟨e, -, hserve⟩ := hl.serves k x hk
    exact ⟨e, hserve⟩
  -- what the checker leaves out of the order are Gets
  have hidle : ∀ x ∈ l, x.keyOp.certain = false → x.kind = .get := by
    intro x hx hc
    obtain ⟨e, hserve⟩ := hmem x hx
    obtain ⟨hp, ht, hn⟩ := hdone x hserve.mem
    by_contra hk
    have hresp : x.response = Str.lit "not_leader" := by
      simpa [KeyOp.certain, HistoryEntry.keyOp, hp, ht, hn] using hc
    exact refused_unserved hown honce hb.sized hb.pending hp hresp hk e hserve
  have hsched : Schedulable (fun a b => a.keyOp.certain = true ∧ a.ret < b.invoke) KvStore.observe
      .empty (l.filter fun x => x.keyOp.certain) := by
    have hl' : Schedulable _ KvStore.observe .empty l := ⟨l, List.Perm.refl l,
      Order.inOrder hown hcfg hb hcopies hl, Order.accepts hown hcfg hb hcopies hl hrep⟩
    refine hl'.filter fun x hx hc s s' hstep => ?_
    unfold KvStore.observe at hstep
    rw [hc, if_neg Bool.false_ne_true] at hstep
    rw [← Option.some.inj hstep]
    unfold HistoryEntry.command
    rw [hidle x hx hc]
    rfl
  have hperm : (l.filter fun x => x.keyOp.certain).Perm
      (((init M mem cfg wcfg nodes).run es).workload.history.entries.filter
        fun x => x.keyOp.certain) := by
    refine (List.perm_ext_iff_of_nodup ((Order.nodup hown hcfg hb hcopies hl).filter _)
      (entries_nodup.filter _)).mpr fun x => ?_
    simp only [List.mem_filter]
    constructor
    · rintro ⟨hx, hc⟩
      obtain ⟨e, hserve⟩ := hmem x hx
      exact ⟨hserve.mem, hc⟩
    · rintro ⟨hx, hc⟩
      exact ⟨Order.answered hown hcfg hb hl hx hc, hc⟩
  have hcert : ∀ x ∈ ((init M mem cfg wcfg nodes).run es).workload.history.entries.filter
      (fun x => x.keyOp.certain), x.keyOp.certain = true := fun x hx => (List.mem_filter.mp hx).2
  refine checkLinearizable_of_schedulable (fun x hx => ?_) (((hsched.perm hperm).imp_step
    fun x hx s s' hstep => ?_).mono fun a ha b _ hab => ⟨hcert a ha, hab⟩)
  · have hx' := (List.mem_filter.mp hx).1
    exact ((((kept_init M mem cfg wcfg nodes).run es).1.books.times x hx').2
      (certain_pending (hcert x hx))).1
  · unfold KvStore.observe at hstep
    rwa [hcert x hx, if_pos rfl] at hstep

end Harness

end SimKV
