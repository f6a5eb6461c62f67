/-
# A simulated run is a run of clients and cluster

The model of the clients and the cluster (`Harness`) knows no queue: a packet arrives at
any time or never, timers go off at any time, nodes crash and restart at any time.  The
simulator makes one such run out of a seed.  So everything that was shown of all runs of
the harness holds of what `run_once` does.

The link is `Refines`: a list of events leads the harness to the same nodes, the same
clients and the same time, and each closure in the queue stands for something that the
harness knows, a delivery for a packet in its network (`Accounted`).  The events of an
action can be read off the states before and after it (`Action.events`), but for one
thing: of packets that are equal, the simulator does not say which one arrives
(`Tagging`).

If nothing is duplicated, the deliveries of a request that are queued or were made are one
at most (`Once`).
-/
import SimKV.Harness.RunnerFaults
import SimKV.Harness.Verdict

namespace SimKV.Runner

open Sim

variable {M : Medium} {cfg : RunConfig} {s s' : Sim M} {ph : Phase} {es : List HarnessEvent}

/-- The harness of a configuration. -/
abbrev RunConfig.harness (cfg : RunConfig) (M : Medium) : Harness M :=
  .init M cfg.members cfg.raft cfg.workload cfg.ids

/-! ## What stands for what -/

/-- Under `id`, the network calls who has this id. -/
def Fits (cfg : RunConfig) (id : NodeId) : Handler → Prop
  | .node n => n = id ∧ id ∈ cfg.ids
  | .client ci => id = kClientIdBase + ci ∧ ci < cfg.workload.numClients

def Accounted (cfg : RunConfig) (H : Harness M) : Action M → Prop
  | .deliver fn src dst m => Fits cfg dst fn ∧
      ∃ p ∈ H.cluster.net, p.src = src ∧ p.dst = dst ∧ p.msg = m
  | .electionTimer n _ => n ∈ cfg.ids
  | .heartbeatTimer n => n ∈ cfg.ids
  | .readTimer n _ => n ∈ cfg.ids
  | .issueOp ci => ci < cfg.workload.numClients
  | .opTimeout ci => ci < cfg.workload.numClients
  | .restart n => n ∈ cfg.ids
  | _ => True

/-- The network only grows. -/
theorem Accounted.mono {H H' : Harness M} (hnet : ∀ p ∈ H.cluster.net, p ∈ H'.cluster.net)
    {a : Action M} (h : Accounted cfg H a) : Accounted cfg H' a := by
  cases a with
  | deliver fn src dst m =>
    obtain ⟨hfn, p, hp, hrest⟩ := h
    exact ⟨hfn, p, hnet p hp, hrest⟩
  | _ => exact h

/-- Which packet of the network a delivery is one of.  Equal packets may be told apart in any
way. -/
structure Tagging (M : Medium) where
  packet : List (Packet M) → NodeId → NodeId → Msg M.Blob → Nat
  packet_spec : ∀ net : List (Packet M), ∀ p ∈ net, ∃ q,
    net[packet net p.src p.dst p.msg]? = some q ∧ q.src = p.src ∧ q.dst = p.dst ∧ q.msg = p.msg

/-- The last of the packets. -/
def Tagging.last (M : Medium) [DecidableEq M.Blob] : Tagging M where
  packet net src dst m := net.length - 1 -
    net.reverse.findIdx fun q => decide (q.src = src ∧ q.dst = dst ∧ q.msg = m)
  packet_spec net p hp := by
    have hlt := List.findIdx_lt_length_of_exists
      (p := fun q => decide (q.src = p.src ∧ q.dst = p.dst ∧ q.msg = p.msg))
      ⟨p, List.mem_reverse.mpr hp, by simp⟩
    rw [← List.getElem?_reverse (List.length_reverse ▸ hlt)]
    exact ⟨_, List.getElem?_eq_getElem hlt, of_decide_eq_true (List.findIdx_getElem (w := hlt))⟩

/-- There is a way. -/
theorem Tagging.exists (M : Medium) : Nonempty (Tagging M) := by
  classical exact ⟨.last M⟩

/-- The nodes that stopped. -/
def World.stopped (ids : List NodeId) (w w' : World M) : List NodeId :=
  ids.filter fun n => (w.node n).running && !(w'.node n).running

/-- The operation that was issued. -/
def World.issued (w w' : World M) : Option HistoryEntry :=
  if w'.workload.opsIssued = w.workload.opsIssued then none
  else w'.workload.history.entries.getLast?

/-- The events that an action is for the harness, if it leads from `w` to `w'`. -/
def Action.events (T : Tagging M) (ids : List NodeId) (net : List (Packet M)) (w w' : World M) :
    Action M → List HarnessEvent
  | .deliver (.node _) src dst m => [.cluster (.deliver (T.packet net src dst m))]
  | .deliver (.client ci) src dst m => [.reply ci (T.packet net src dst m)]
  | .electionTimer n gen => [.cluster (.electionTimer n gen)]
  | .heartbeatTimer n => [.cluster (.heartbeatTimer n)]
  | .readTimer n round => [.cluster (.readTimer n round)]
  | .issueOp ci =>
    ((w.issued w').map fun x => .issue ci x.kind x.key x.value x.expected).toList
  | .opTimeout ci => [.timeout ci]
  | .tick => (w.stopped ids w').map fun n => .cluster (.crash n)
  | .restart n => [.cluster (.restart n)]
  | .heal => []
  | .restore _ _ => []

structure Refines (cfg : RunConfig) (ph : Phase) (es : List HarnessEvent) (s : Sim M) : Prop where
  own : ∀ e ∈ es, e.ownClients = true
  nodes : ∀ n ∈ cfg.ids, ph.started n = true →
    ((cfg.harness M).run es).cluster.node n = s.world.node n
  workload : ((cfg.harness M).run es).workload = s.world.workload
  wcfg : s.world.workload.cfg = cfg.workload
  steps : ((cfg.harness M).run es).cluster.now = s.world.steps
  clock : ((cfg.harness M).run es).now = s.clock
  handlers : ∀ id fn, s.world.net.handlers.find? id = some fn → Fits cfg id fn
  queue : ∀ e ∈ s.queue.heap, Accounted cfg ((cfg.harness M).run es) e.action

theorem run_concat (H : Harness M) (es : List HarnessEvent) (e : HarnessEvent) :
    H.run (es ++ [e]) = (H.run es).exec e := by
  rw [Harness.run_append]
  rfl

theorem mem_net_exec (H : Harness M) (e : HarnessEvent) :
    ∀ p ∈ H.cluster.net, p ∈ (H.exec e).cluster.net := by
  intro p hp
  obtain ⟨k, hk⟩ := List.getElem?_of_mem hp
  rw [Harness.exec_cluster]
  exact List.mem_of_getElem? (Cluster.run_net_getElem? _ hk)

namespace Refines

theorem own_concat (h : Refines cfg ph es s) {e : HarnessEvent} (he : e.ownClients = true) :
    ∀ e' ∈ es ++ [e], e'.ownClients = true := by
  intro e' he'
  rcases List.mem_append.mp he' with he' | he'
  · exact h.own e' he'
  · rw [List.mem_singleton.mp he']
    exact he

/-- Changes to the rest of the world. -/
theorem put (h : Refines cfg ph es s) {w : World M} (hnode : w.node = s.world.node)
    (hwl : w.workload = s.world.workload) (hsteps : w.steps = s.world.steps)
    (hh : ∀ id fn, w.net.handlers.find? id = some fn → Fits cfg id fn) :
    Refines cfg ph es (put w s) where
  own := h.own
  nodes n hn hst := (h.nodes n hn hst).trans (congrFun hnode n).symm
  workload := h.workload.trans hwl.symm
  wcfg := (congrArg Workload.cfg hwl).trans h.wcfg
  steps := h.steps.trans hsteps.symm
  clock := h.clock
  handlers := hh
  queue := h.queue

theorem call (h : Refines cfg ph es s) (c : Call M)
    (hc : ∀ delay a, c = .schedule delay a → Accounted cfg ((cfg.harness M).run es) a) :
    Refines cfg ph es (call s c) := by
  cases c with
  | draw g => exact ⟨h.own, h.nodes, h.workload, h.wcfg, h.steps, h.clock, h.handlers, h.queue⟩
  | cancel x => exact ⟨h.own, h.nodes, h.workload, h.wcfg, h.steps, h.clock, h.handlers, h.queue⟩
  | schedule delay a =>
    refine ⟨h.own, h.nodes, h.workload, h.wcfg, h.steps, h.clock, h.handlers, fun e he => ?_⟩
    rcases mem_call_schedule.mp he with rfl | he
    · exact hc delay a rfl
    · exact h.queue e he

theorem calls {P : Call M → Prop} (h : Refines cfg ph es s) (hcalls : Calls P s s')
    (hP : ∀ delay a, P (.schedule delay a) → Accounted cfg ((cfg.harness M).run es) a) :
    Refines cfg ph es s' :=
  hcalls.keeps (I := Refines cfg ph es) (fun _ c hc ht => ht.call c fun delay a ha =>
    hP delay a (ha ▸ hc)) h

/-- Time goes on, and the queue loses events. -/
theorem tick (h : Refines cfg ph es s) {t : Sim M} (hw : t.world = s.world)
    (hclock : s.clock ≤ t.clock) (hheap : ∀ e ∈ t.queue.heap, e ∈ s.queue.heap) :
    Refines cfg ph (es ++ [.tick (t.clock - s.clock)]) t := by
  have hrun := run_concat (cfg.harness M) es (.tick (t.clock - s.clock))
  refine ⟨h.own_concat rfl, fun n hn hst => ?_, ?_, hw ▸ h.wcfg, ?_, ?_, hw ▸ h.handlers, ?_⟩
  · rw [hrun, hw]
    exact h.nodes n hn hst
  · rw [hrun, hw]
    exact h.workload
  · rw [hrun, hw]
    exact h.steps
  · rw [hrun]
    change ((cfg.harness M).run es).now + (t.clock - s.clock) = t.clock
    rw [h.clock]
    exact Nat.add_sub_cancel' hclock
  · intro e he
    rw [hrun]
    exact h.queue e (hheap e he)

/-- A client changes its own state only. -/
theorem client (h : Refines cfg ph es s) {e : HarnessEvent} (he : e.ownClients = true)
    {wl : Workload} (hexec : ((cfg.harness M).run es).exec e =
      { (cfg.harness M).run es with workload := wl }) (hcfg : wl.cfg = cfg.workload) :
    Refines cfg ph (es ++ [e]) (Runner.put { s.world with workload := wl } s) := by
  have hrun := (run_concat (cfg.harness M) es e).trans hexec
  refine ⟨h.own_concat he, fun n hn hst => ?_, ?_, hcfg, ?_, ?_, h.handlers, fun e' he' => ?_⟩
  · rw [hrun]
    exact h.nodes n hn hst
  · rw [hrun]
    rfl
  · rw [hrun]
    exact h.steps
  · rw [hrun]
    exact h.clock
  · rw [hrun]
    exact h.queue e' he'

end Refines

/-- Handlers that are set fit if the new one does. -/
theorem fits_setHandler {net : Network Handler}
    (h : ∀ id fn, net.handlers.find? id = some fn → Fits cfg id fn) {id : NodeId} {fn : Handler}
    (hfn : Fits cfg id fn) :
    ∀ id' fn', (net.setHandler id fn).handlers.find? id' = some fn' → Fits cfg id' fn' := by
  intro id' fn' hfind
  by_cases hid : id' = id
  · subst hid
    have hself : (net.setHandler id' fn).handlers.find? id' = some fn :=
      OrdMap.find?_insert_self _ _ _
    rw [hself] at hfind
    cases hfind
    exact hfn
  · exact h id' fn' ((OrdMap.find?_insert_of_ne _ _ hid).symm.trans hfind)

/-! ## Nodes -/

theorem run_members (es : List HarnessEvent) :
    ((cfg.harness M).run es).cluster.members = cfg.ids.toFinset := by
  rw [Harness.run_cluster, Cluster.run_members]
  rfl

theorem run_settled (es : List HarnessEvent) : ((cfg.harness M).run es).cluster.Settled := by
  rw [Harness.run_cluster]
  exact Cluster.settled_run (Cluster.settled_init M cfg.members cfg.raft) _

/-- What a node sends while it handles an input stands in the network after it. -/
theorem sent_mem_net {C : Cluster M} {ev : Event} {n : NodeId} {inp : Input M}
    (hev : C.input ev = some (n, inp)) (hn : n ∈ C.members) {dst : NodeId} {m : Msg M.Blob}
    (h : .send dst m ∈ ((C.node n).handle C.now inp).out) :
    ∃ p ∈ (C.exec ev).net, p.src = n ∧ p.dst = dst ∧ p.msg = m := by
  refine ⟨⟨n, dst, m, inp.msg?⟩, ?_, rfl, rfl, rfl⟩
  rw [Cluster.exec_eq hev hn]
  exact List.mem_append_right _ (List.mem_filterMap.mpr ⟨_, h, rfl⟩)

theorem Emission.accounted {H : Harness M} {net : Network Handler} {n : NodeId}
    {out : List (Effect M)} (hn : n ∈ cfg.ids)
    (hnet : ∀ id fn, net.handlers.find? id = some fn → Fits cfg id fn)
    (hsent : ∀ dst m, .send dst m ∈ out →
      ∃ p ∈ H.cluster.net, p.src = n ∧ p.dst = dst ∧ p.msg = m)
    {delay : Nat} {a : Action M} (h : Emission cfg net n out (.schedule delay a)) :
    Accounted cfg H a := by
  cases h with
  | send hmem hc =>
    cases hc with
    | copy fn g _ hfn => exact ⟨hnet _ fn hfn, hsent _ _ hmem⟩
  | timer _ hc => cases hc <;> exact hn

/-- Node `n` handles an input, with the network as in `net`. -/
theorem Refines.step (h : Refines cfg ph es s) {n : NodeId} {inp : Input M} {ev : Event}
    (hn : n ∈ cfg.ids) (hst : ph.started n = true)
    (hev : ((cfg.harness M).run es).cluster.input ev = some (n, inp))
    (hown : (HarnessEvent.cluster ev).ownClients = true) {net : Network Handler}
    (hnet : ∀ id fn, net.handlers.find? id = some fn → Fits cfg id fn) {st : Node M}
    {x : Option String} (hstate : st = (s.world.node n).handle s.world.steps inp)
    (hcalls : Calls (Emission cfg net n st.out)
      (Runner.put ({ s.world with net := net }.settle n st x) s) s') :
    Refines cfg ph (es ++ [.cluster ev]) s' := by
  let H := (cfg.harness M).run es
  have hmem : n ∈ H.cluster.members := by
    rw [run_members]
    exact List.mem_toFinset.mpr hn
  have hrun : (cfg.harness M).run (es ++ [.cluster ev]) =
      { H with cluster := H.cluster.exec ev } := run_concat _ es _
  have hhandle : (H.cluster.node n).handle H.cluster.now inp = st := by
    rw [hstate, h.nodes n hn hst, h.steps]
  have hexec : H.cluster.exec ev = H.cluster.settle n inp.msg? st := by
    rw [Cluster.exec_eq hev hmem, hhandle]
  refine Refines.calls (P := Emission cfg net n st.out) ?_ hcalls fun delay a ha => ?_
  · refine ⟨h.own_concat hown, fun m hm hst' => ?_, ?_, h.wcfg, ?_, ?_, hnet, fun e he => ?_⟩
    · rw [hrun]
      change (H.cluster.exec ev).node m = Function.update s.world.node n _ m
      rw [hexec]
      by_cases hmn : m = n
      · rw [hmn, Cluster.settle_node_self, Function.update_self]
      · rw [Cluster.settle_node_of_ne _ _ _ hmn, Function.update_of_ne hmn]
        exact h.nodes m hm hst'
    · rw [hrun]
      exact h.workload
    · rw [hrun]
      change (H.cluster.exec ev).now = s.world.steps + 1
      rw [hexec]
      exact congrArg (· + 1) h.steps
    · rw [hrun]
      exact h.clock
    · rw [hrun]
      exact (h.queue e he).mono (mem_net_exec H (.cluster ev))
  · rw [hrun]
    refine ha.accounted hn hnet fun dst m hsend => ?_
    rw [← hhandle] at hsend
    exact sent_mem_net hev hmem hsend

/-! ## Deliveries of a request -/

/-- The action delivers the request of this number from `src`. -/
def Action.brings (src : NodeId) (id : Nat) : Action M → Bool
  | .deliver _ src' _ (.clientRequest cr) => src' == src && cr.requestId == id
  | _ => false

/-- Of every request, the deliveries that were made, that are about to be made (`l`) and that are
queued are one at most. -/
structure Once (cfg : RunConfig) (es : List HarnessEvent) (l : List (Action M)) (s : Sim M) :
    Prop where
  past : ∀ k, .deliver k ∈ (cfg.harness M).clusterEvents es →
    k < ((cfg.harness M).run es).cluster.net.length
  once : ∀ k p cr, ((cfg.harness M).run es).cluster.net[k]? = some p →
    p.msg = .clientRequest cr → ((cfg.harness M).clusterEvents es).count (.deliver k) +
      (l.countP (Action.brings p.src cr.requestId) + count (Action.brings p.src cr.requestId) s) ≤ 1

theorem clusterEvents_concat (H : Harness M) (es : List HarnessEvent) (e : HarnessEvent) :
    H.clusterEvents (es ++ [e]) = H.clusterEvents es ++ ((H.run es).clusterEvent e).toList := by
  rw [Harness.clusterEvents_append]
  exact congrArg _ (List.append_nil _)

/-- A node sends no requests. -/
theorem no_request_sent {C : Cluster M} (hC : C.Settled) {ev : Event} {n : NodeId} {inp : Input M}
    (hev : C.input ev = some (n, inp)) (hn : n ∈ C.members) {dst : NodeId} {cr : ClientRequest} :
    .send dst (.clientRequest cr) ∉ ((C.node n).handle C.now inp).out := by
  intro h
  have hp : (⟨n, dst, .clientRequest cr, inp.msg?⟩ : Packet M) ∈
      Cluster.packets n inp.msg? ((C.node n).handle C.now inp).out :=
    List.mem_filterMap.mpr ⟨_, h, rfl⟩
  obtain ⟨i, hi⟩ := List.getElem?_of_mem hp
  have hnet : (C.exec ev).net[C.net.length + i]? =
      some ⟨n, dst, .clientRequest cr, inp.msg?⟩ := by
    rw [Cluster.exec_eq hev hn]
    change (C.net ++ _)[_]? = _
    rw [List.getElem?_append_right (Nat.le_add_right _ _), Nat.add_sub_cancel_left]
    exact hi
  rcases Cluster.exec_request hC hnet rfl with hold | ⟨-, rfl⟩
  · exact absurd (List.getElem?_eq_some_iff.mp hold).1 (Nat.not_lt.mpr (Nat.le_add_right _ _))
  · cases hev

/-- Each event that calls add to a kind has an id of its own. -/
theorem Calls.count_le {P : Call M → Prop} (h : Calls P s s') (f : Action M → Bool) :
    count f s' + s.nextSeq ≤ count f s + s'.nextSeq := by
  refine h.keeps (I := fun t => count f t + s.nextSeq ≤ count f s + t.nextSeq)
    (fun t c _ ht => ?_) (Nat.le_refl _)
  cases c with
  | schedule delay a =>
    have hone := Bool.toNat_le (f a)
    rw [count_schedule]
    change _ ≤ _ + (t.nextSeq + 1)
    omega
  | _ => exact ht

namespace Once

variable {l l' : List (Action M)} {a : Action M}

theorem weaken (h : Once cfg es l s) (hcount : ∀ src id,
    l'.countP (Action.brings src id) + count (Action.brings src id) s' ≤
      l.countP (Action.brings src id) + count (Action.brings src id) s) : Once cfg es l' s' :=
  ⟨h.past, fun k p cr hp hm =>
    Nat.le_trans (Nat.add_le_add_left (hcount _ _) _) (h.once k p cr hp hm)⟩

/-- An event of the harness that the cluster does not see. -/
theorem quiet (h : Once cfg es l s) {e : HarnessEvent}
    (he : ((cfg.harness M).run es).clusterEvent e = none) : Once cfg (es ++ [e]) l s := by
  have hevents : (cfg.harness M).clusterEvents (es ++ [e]) = (cfg.harness M).clusterEvents es := by
    rw [clusterEvents_concat, he]
    exact List.append_nil _
  have hcluster : ((cfg.harness M).run (es ++ [e])).cluster =
      ((cfg.harness M).run es).cluster := by
    rw [run_concat, Harness.exec_cluster, he]
    rfl
  refine ⟨?_, ?_⟩
  · rw [hevents, hcluster]
    exact h.past
  · rw [hevents, hcluster]
    exact h.once

/-- A node handles an input; if it is a delivery, it is the one in hand. -/
theorem step (h : Once cfg es [a] s) {ev : Event} {n : NodeId} {inp : Input M}
    (hev : ((cfg.harness M).run es).cluster.input ev = some (n, inp))
    (hhand : ∀ k, ev = .deliver k → ∀ p cr, ((cfg.harness M).run es).cluster.net[k]? = some p →
      p.msg = .clientRequest cr → a.brings p.src cr.requestId = true) :
    Once cfg (es ++ [.cluster ev]) [] s := by
  let C := ((cfg.harness M).run es).cluster
  have hevents : (cfg.harness M).clusterEvents (es ++ [.cluster ev]) =
      (cfg.harness M).clusterEvents es ++ [ev] := clusterEvents_concat _ es _
  have hcluster : ((cfg.harness M).run (es ++ [.cluster ev])).cluster = C.exec ev := by
    rw [run_concat]
    rfl
  have hgrows : C.net.length ≤ (C.exec ev).net.length := by
    obtain ⟨ps, hps⟩ := C.exec_net ev
    rw [hps, List.length_append]
    exact Nat.le_add_right _ _
  refine ⟨fun k hk => ?_, fun k p cr hp hm => ?_⟩
  · rw [hcluster]
    refine Nat.lt_of_lt_of_le ?_ hgrows
    rw [hevents] at hk
    rcases List.mem_append.mp hk with hk | hk
    · exact h.past k hk
    · rw [← List.mem_singleton.mp hk] at hev
      obtain ⟨p, hp, -⟩ := Option.map_eq_some_iff.mp hev
      exact (List.getElem?_eq_some_iff.mp hp).1
  · rw [hcluster] at hp
    have hold : C.net[k]? = some p := by
      refine (Cluster.exec_request (run_settled es) hp hm).resolve_right fun hnew => ?_
      rw [hnew.2] at hev
      cases hev
    have hle := h.once k p cr hold hm
    rw [hevents, List.count_append]
    rw [List.countP_cons, List.countP_nil] at hle
    by_cases hk : ev = .deliver k
    · rw [if_pos (hhand k hk p cr hold hm)] at hle
      rw [hk, List.count_singleton_self, List.countP_nil]
      omega
    · rw [List.count_singleton, if_neg (by simpa using hk), List.countP_nil]
      omega

/-- A client sends a new request, and one copy of it is queued at most. -/
theorem issue (h : Once cfg es [a] s) (hr : Refines cfg ph es s) {e : HarnessEvent}
    (he : e.ownClients = true) {src dst : NodeId} {cr : ClientRequest}
    (hev : ((cfg.harness M).run es).clusterEvent e = some (.clientSend src dst cr))
    (hcalls : ∀ src' id, src' ≠ src ∨ id ≠ cr.requestId →
      count (Action.brings src' id) s' = count (Action.brings src' id) s)
    (hnew : count (Action.brings src cr.requestId) s' ≤
      count (Action.brings src cr.requestId) s + 1) :
    Once cfg (es ++ [e]) [] s' := by
  let C := ((cfg.harness M).run es).cluster
  have hevents : (cfg.harness M).clusterEvents (es ++ [e]) =
      (cfg.harness M).clusterEvents es ++ [.clientSend src dst cr] := by
    rw [clusterEvents_concat, hev]
    rfl
  have hnet : ((cfg.harness M).run (es ++ [e])).cluster.net =
      C.net ++ [⟨src, dst, .clientRequest cr, none⟩] := by
    rw [run_concat, Harness.exec_cluster, hev]
    rfl
  have hown := hr.own_concat he
  -- the new packet, and the only one with its number
  have hlast : ((cfg.harness M).run (es ++ [e])).cluster.net[C.net.length]? =
      some ⟨src, dst, .clientRequest cr, none⟩ := by
    rw [hnet, List.getElem?_append_right (Nat.le_refl _), Nat.sub_self]
    rfl
  have honly : ∀ {k p cr'}, ((cfg.harness M).run (es ++ [e])).cluster.net[k]? = some p →
      p.msg = .clientRequest cr' → p.src = src → cr'.requestId = cr.requestId →
      k = C.net.length :=
    fun hp hm hsrc hid => Harness.requests_apart hown hp hm hlast rfl hsrc hid
  have hqueued : count (Action.brings src cr.requestId) s = 0 := by
    refine List.countP_eq_zero.mpr fun e' he' hb => ?_
    have hacc := hr.queue e' he'
    cases ha : e'.action with
    | deliver fn src' dst' m =>
      rw [ha] at hb hacc
      obtain ⟨-, p, hp, hsrc, -, hm⟩ := hacc
      cases m with
      | clientRequest cr' =>
        obtain ⟨hb₁, hb₂⟩ := Bool.and_eq_true_iff.mp hb
        obtain ⟨k, hk⟩ := List.getElem?_of_mem hp
        have hlt : k < C.net.length := (List.getElem?_eq_some_iff.mp hk).1
        have hk' : ((cfg.harness M).run (es ++ [e])).cluster.net[k]? = some p := by
          rw [hnet, List.getElem?_append_left hlt]
          exact hk
        exact Nat.ne_of_lt hlt
          (honly hk' hm (hsrc.trans (eq_of_beq hb₁)) (eq_of_beq hb₂))
      | _ => cases hb
    | _ => rw [ha] at hb; cases hb
  refine ⟨fun k hk => ?_, fun k p cr' hp hm => ?_⟩
  · rw [hnet, List.length_append]
    rw [hevents] at hk
    rcases List.mem_append.mp hk with hk | hk
    · exact Nat.lt_of_lt_of_le (h.past k hk) (Nat.le_add_right _ _)
    · cases List.mem_singleton.mp hk
  · rw [hevents, List.count_append, List.count_singleton, if_neg (by simp), List.countP_nil]
    by_cases hlt : k < C.net.length
    · have hold : C.net[k]? = some p := by
        rw [hnet, List.getElem?_append_left hlt] at hp
        exact hp
      have hle := h.once k p cr' hold hm
      rw [hcalls p.src cr'.requestId ?_]
      · omega
      · by_contra hboth
        rw [not_or, not_not, not_not] at hboth
        exact Nat.ne_of_lt hlt (honly hp hm hboth.1 hboth.2)
    · have hk : k = C.net.length := by
        have hlt' := (List.getElem?_eq_some_iff.mp hp).1
        rw [hnet, List.length_append, List.length_singleton] at hlt'
        exact Nat.le_antisymm (Nat.lt_succ_iff.mp hlt') (Nat.not_lt.mp hlt)
      subst hk
      rw [hlast] at hp
      cases hp
      cases hm
      have hfresh : ((cfg.harness M).clusterEvents es).count (.deliver C.net.length) = 0 :=
        List.count_eq_zero.mpr fun hin => Nat.lt_irrefl _ (h.past _ hin)
      rw [hfresh]
      change 0 + 0 + (0 + count (Action.brings src cr.requestId) s') ≤ 1
      omega

end Once

/-! ## Actions as events of the harness -/

theorem Phase.started_of_runs (hph : ph.runs = true) (n : NodeId) : ph.started n = true := by
  cases ph <;> first | rfl | cases hph

theorem Action.brings_of_routine {a : Action M} {src : NodeId} {id : Nat}
    (h : ∀ fn src dst cr, a ≠ .deliver fn src dst (.clientRequest cr)) :
    a.brings src id = false := by
  cases a with
  | deliver fn src' dst m =>
    cases m with
    | clientRequest cr => exact absurd rfl (h fn src' dst cr)
    | _ => rfl
  | _ => rfl

/-- Calls for anything but the delivery of a request. -/
theorem Once.calls {P : Call M → Prop} {l : List (Action M)} (h : Once cfg es l s)
    (hcalls : Calls P s s')
    (hP : ∀ delay a, P (.schedule delay a) →
      ∀ fn src dst cr, a ≠ .deliver fn src dst (.clientRequest cr)) : Once cfg es l s' :=
  h.weaken fun src id => by
    rw [hcalls.count_eq fun delay a ha => Action.brings_of_routine (hP delay a ha)]

theorem Once.put {l : List (Action M)} (h : Once cfg es l s) (w : World M) :
    Once cfg es l (put w s) :=
  ⟨h.past, h.once⟩

theorem Once.call {l : List (Action M)} (h : Once cfg es l s) (c : Call M)
    (hc : ∀ delay a, c = .schedule delay a →
      ∀ fn src dst cr, a ≠ .deliver fn src dst (.clientRequest cr)) : Once cfg es l (call s c) :=
  h.calls (P := (· = c)) (.one rfl) fun delay a ha => hc delay a ha.symm

/-- Both invariants, over the step of a node. -/
theorem Refines.step_once (hph : ph.runs = true) (h : Refines cfg ph es s) {n : NodeId}
    {inp : Input M} {ev : Event} (hn : n ∈ cfg.ids)
    (hev : ((cfg.harness M).run es).cluster.input ev = some (n, inp))
    (hown : (HarnessEvent.cluster ev).ownClients = true) {net : Network Handler}
    (hnet : ∀ id fn, net.handlers.find? id = some fn → Fits cfg id fn) {st : Node M}
    {x : Option String} (hstate : st = (s.world.node n).handle s.world.steps inp)
    (hcalls : Calls (Emission cfg net n st.out)
      (Runner.put ({ s.world with net := net }.settle n st x) s) s') {a : Action M}
    (hhand : ∀ k, ev = .deliver k → ∀ p cr, ((cfg.harness M).run es).cluster.net[k]? = some p →
      p.msg = .clientRequest cr → a.brings p.src cr.requestId = true) :
    Refines cfg ph (es ++ [.cluster ev]) s' ∧
      (Once cfg es [a] s → Once cfg (es ++ [.cluster ev]) [] s') := by
  refine ⟨h.step hn (Phase.started_of_runs hph n) hev hown hnet hstate hcalls, fun honce => ?_⟩
  have hstep := honce.step hev hhand
  refine (hstep.put ({ s.world with net := net }.settle n st x)).calls hcalls
    fun delay a' ha fn src dst cr heq => ?_
  subst heq
  cases ha with
  | send hsend hc =>
    cases hc with
    | copy _ _ _ _ =>
      have hmem : n ∈ ((cfg.harness M).run es).cluster.members := by
        rw [run_members]
        exact List.mem_toFinset.mpr hn
      rw [hstate, ← h.nodes n hn (Phase.started_of_runs hph n), ← h.steps] at hsend
      exact no_request_sent (run_settled es) hev hmem hsend
  | timer _ hc => cases hc

/-- Nothing but time has passed for the harness. -/
theorem Once.done {a : Action M} (h : Once cfg es [a] s) : Once cfg es [] s :=
  h.weaken fun _ _ => Nat.add_le_add_right (Nat.zero_le _) _

theorem acceptReply_cfg (now ci : Nat) (reply : ClientReply) (w : Workload) :
    (w.acceptReply now ci reply).cfg = w.cfg := by
  unfold Workload.acceptReply
  dsimp only
  split
  · rfl
  · split
    · rfl
    · rfl

theorem onTimeout_cfg (now ci : Nat) (w : Workload) : (w.onTimeout now ci).cfg = w.cfg := by
  unfold Workload.onTimeout
  dsimp only
  split
  · rfl
  · rfl

theorem issueOp_cfg (now ci : Nat) (kind : OpKind) (key value expected : Str) (w : Workload) :
    (w.issueOp now ci kind key value expected).1.cfg = w.cfg := by
  unfold Workload.issueOp
  split
  · rfl
  · split
    · rfl
    · rfl

theorem World.stopped_nil {ids : List NodeId} {w w' : World M} (h : w'.node = w.node) :
    w.stopped ids w' = [] := by
  refine List.filter_eq_nil_iff.mpr fun n _ => ?_
  rw [h]
  cases (w.node n).running <;> simp

/-- One node stopped. -/
theorem World.stopped_singleton {ids : List NodeId} {w v : World M} {n : NodeId} {st : Node M}
    (hids : ids.Nodup) (hn : n ∈ ids) (h : v.node = Function.update w.node n st)
    (hrun : (w.node n).running = true) (hstop : st.running = false) :
    w.stopped ids v = [n] := by
  have hpred : ∀ m ∈ ids, ((w.node m).running && !(v.node m).running) = (m == n) := by
    intro m _
    rw [h]
    by_cases hmn : m = n
    · subst hmn
      rw [Function.update_self, hrun, hstop]
      simp
    · rw [Function.update_of_ne hmn, beq_eq_false_iff_ne.mpr hmn]
      cases (w.node m).running <;> rfl
  rw [World.stopped, List.filter_congr hpred, List.filter_beq, List.count_eq_one_of_mem hids hn]
  rfl

theorem RunConfig.ids_nodup (cfg : RunConfig) : cfg.ids.Nodup :=
  List.nodup_range.map fun _ _ h => Nat.succ.inj h

/-- The events that a tick of the fault injector is for the harness: one crash, or none. -/
theorem Injected.refines (hph : ph.runs = true) (h : Injected cfg s s')
    (hr : Refines cfg ph es s) :
    Refines cfg ph
        (es ++ (s.world.stopped cfg.ids s'.world).map fun n => .cluster (.crash n)) s' ∧
      (Once cfg es [.tick] s → Once cfg
        (es ++ (s.world.stopped cfg.ids s'.world).map fun n => .cluster (.crash n)) [] s') := by
  have spared : ∀ {t : Sim M}, t.world.node = s.world.node → Refines cfg ph es t →
      (Once cfg es [.tick] s → Once cfg es [] t) →
      Refines cfg ph (es ++ (s.world.stopped cfg.ids t.world).map fun n => .cluster (.crash n)) t ∧
        (Once cfg es [.tick] s → Once cfg
          (es ++ (s.world.stopped cfg.ids t.world).map fun n => .cluster (.crash n)) [] t) := by
    intro t ht hr' ho'
    rw [World.stopped_nil ht, List.map_nil, List.append_nil]
    exact ⟨hr', ho'⟩
  have hdraw : ∀ g, Refines cfg ph es (call s (.draw g)) :=
    fun g => hr.call _ fun _ _ h => by cases h
  cases h with
  | nothing g => exact spared rfl (hdraw g) fun ho => ho.done.call _ fun _ _ h => by cases h
  | partition ids split g g' g'' _ _ _ =>
    refine spared rfl (Refines.call ?_ _ fun delay a h => ?_) fun ho => ?_
    · exact (hdraw g').put rfl rfl rfl hr.handlers
    · cases h
      trivial
    · refine Once.call ?_ _ fun _ _ h => by cases h; simp
      exact (ho.done.call (.draw g') fun _ _ h => by cases h).put _
  | crash n g g' g'' t hn hrun hcalls =>
    have hnet : ∀ id fn, (s.world.net.removeHandler n).handlers.find? id = some fn →
        Fits cfg id fn := by
      intro id fn hfn
      by_cases hid : id = n
      · subst hid
        rw [show (s.world.net.removeHandler id).handlers.find? id = none from
          OrdMap.find?_erase_self _ _] at hfn
        cases hfn
      · exact hr.handlers id fn ((OrdMap.find?_erase_of_ne _ hid).symm.trans hfn)
    have hev : ((cfg.harness M).run es).cluster.input (.crash n) = some (n, .crash) := rfl
    obtain ⟨hr', ho'⟩ := (hdraw g).step_once hph hn hev rfl hnet rfl hcalls (a := .tick)
      fun k h => by cases h
    have hstop := World.stopped_singleton (w := s.world) (v := t.world) cfg.ids_nodup hn
      (congrArg World.node hcalls.frame.1) hrun
      ((s.world.node n).handle_crash_running s.world.steps hrun)
    change Refines cfg ph (es ++ (s.world.stopped cfg.ids t.world).map _) _ ∧
      (_ → Once cfg (es ++ (s.world.stopped cfg.ids t.world).map _) [] _)
    rw [hstop, List.map_singleton]
    refine ⟨?_, fun ho => ?_⟩
    · exact (hr'.call (.draw g'') fun _ _ h => by cases h).call _ fun _ _ h => by
        cases h
        exact hn
    · have hbegin : Once cfg es [.tick] (call s (.draw g)) := ho.call _ fun _ _ h => by cases h
      exact ((ho' hbegin).call (.draw g'') fun _ _ h => by cases h).call _ fun _ _ h => by
        cases h
        simp
  | spike k p g g' _ =>
    refine spared rfl (Refines.call ?_ _ fun delay a h => ?_) fun ho => ?_
    · exact (hdraw g').put rfl rfl rfl hr.handlers
    · cases h
      trivial
    · refine Once.call ?_ _ fun _ _ h => by cases h; simp
      exact (ho.done.call (.draw g') fun _ _ h => by cases h).put _

/-- An action for a node is an event of the cluster. -/
theorem Accounted.event (T : Tagging M) {a : Action M} {n : NodeId} {inp : Input M}
    {H : Harness M} {w v : World M} (ha : a.input? = some (n, inp)) (hacc : Accounted cfg H a) :
    n ∈ cfg.ids ∧ ∃ ev, a.events T cfg.ids H.cluster.net w v = [.cluster ev] ∧
      H.cluster.input ev = some (n, inp) ∧
      (HarnessEvent.cluster ev).ownClients = true ∧
      ∀ k, ev = .deliver k → ∀ p cr, H.cluster.net[k]? = some p → p.msg = .clientRequest cr →
        a.brings p.src cr.requestId = true := by
  cases a with
  | deliver fn src dst m =>
    cases fn with
    | client ci => cases ha
    | node n' =>
      cases ha
      obtain ⟨⟨rfl, hn⟩, p, hp, rfl, rfl, rfl⟩ := hacc
      obtain ⟨q, hq, hsrc, hdst, hmsg⟩ := T.packet_spec _ p hp
      refine ⟨hn, .deliver (T.packet H.cluster.net p.src p.dst p.msg), rfl, ?_, rfl,
        fun k' hk' p' cr hp' hm => ?_⟩
      · rw [Cluster.input, hq, ← hsrc, ← hdst, ← hmsg]
        rfl
      · cases hk'
        rw [hq] at hp'
        cases hp'
        rw [← hmsg, hm, ← hsrc]
        simp [Action.brings]
  | electionTimer m gen =>
    cases ha
    exact ⟨hacc, .electionTimer n gen, rfl, rfl, rfl, fun k h => by cases h⟩
  | heartbeatTimer m =>
    cases ha
    exact ⟨hacc, .heartbeatTimer n, rfl, rfl, rfl, fun k h => by cases h⟩
  | readTimer m round =>
    cases ha
    exact ⟨hacc, .readTimer n round, rfl, rfl, rfl, fun k h => by cases h⟩
  | _ => cases ha

/-- What was issued stands at the end of the history. -/
theorem World.issued_eq {w v : World M} {now ci : Nat} {kind : OpKind}
    {key value expected : Str} {wl : Workload} {req : NodeId × ClientRequest}
    (hissue : w.workload.issueOp now ci kind key value expected = (wl, some req))
    (hw : v.workload = wl) :
    ∃ x, w.issued v = some x ∧
      w.workload.issueOp now ci x.kind x.key x.value x.expected = (wl, some req) := by
  rw [World.issued, hw]
  unfold Workload.issueOp at hissue ⊢
  split at hissue
  · cases hissue
  · rename_i hops
    split at hissue
    · cases hissue
    · rename_i hwait
      cases hissue
      refine ⟨_, (if_neg (Nat.succ_ne_self _)).trans List.getLast?_concat, ?_⟩
      rw [if_neg hops, if_neg hwait]
      cases kind <;> rfl

/-- A client issues an operation. -/
theorem Refines.issued (hr : Refines cfg ph es s) {ci : Nat} (hci : ci < cfg.workload.numClients)
    {kind : OpKind} {key value expected : Str} {g : Prng} {wl : Workload} {dst : NodeId}
    {cr : ClientRequest} {t : Sim M}
    (hissue : s.world.workload.issueOp s.clock ci kind key value expected = (wl, some (dst, cr)))
    (hcalls : Calls (Sending cfg s.world.net (kClientIdBase + ci) dst (.clientRequest cr))
      (Runner.put { s.world with workload := wl, steps := s.world.steps + 1 }
        (Runner.call s (.draw g))) t)
    (honce : s.world.net.probs.dupProb ≤ 0 → t.nextSeq ≤ s.nextSeq + 1) :
    Refines cfg ph (es ++ [.issue ci kind key value expected])
        (Runner.call t (.schedule kOpTimeout (.opTimeout ci))) ∧
      (s.world.net.probs.dupProb ≤ 0 → Once cfg es [.issueOp ci] s →
        Once cfg (es ++ [.issue ci kind key value expected]) []
          (Runner.call t (.schedule kOpTimeout (.opTimeout ci)))) := by
  let H := (cfg.harness M).run es
  let e : HarnessEvent := .issue ci kind key value expected
  have hlt : ci < H.workload.cfg.numClients := by
    rw [hr.workload, hr.wcfg]
    exact hci
  have hop : H.workload.issueOp H.now ci kind key value expected = (wl, some (dst, cr)) := by
    rw [hr.workload, hr.clock]
    exact hissue
  have hev : H.clusterEvent e = some (.clientSend (kClientIdBase + ci) dst cr) := by
    rw [Harness.clusterEvent, if_pos hlt, hop]
    rfl
  have hexec : H.exec e = { H with
      workload := wl, cluster := H.cluster.exec (.clientSend (kClientIdBase + ci) dst cr) } := by
    rw [Harness.exec, if_pos hlt, hop]
  have hrun : (cfg.harness M).run (es ++ [e]) = _ := (run_concat _ es e).trans hexec
  have hnext : Refines cfg ph (es ++ [e]) (Runner.put
      { s.world with workload := wl, steps := s.world.steps + 1 } (Runner.call s (.draw g))) := by
    refine ⟨hr.own_concat rfl, fun n hn hst => ?_, ?_, ?_, ?_, ?_, hr.handlers, fun e' he' => ?_⟩
    · rw [hrun]
      exact hr.nodes n hn hst
    · rw [hrun]
      rfl
    · have hcfg := issueOp_cfg s.clock ci kind key value expected s.world.workload
      rw [hissue] at hcfg
      exact hcfg.trans hr.wcfg
    · rw [hrun]
      exact congrArg (· + 1) hr.steps
    · rw [hrun]
      exact hr.clock
    · rw [run_concat]
      exact (hr.queue e' he').mono (mem_net_exec H e)
  refine ⟨(hnext.calls hcalls fun delay a ha => ?_).call _ fun _ _ h => ?_, fun hdup ho => ?_⟩
  · cases ha with
    | copy fn g _ hfn =>
      refine ⟨hr.handlers dst fn hfn, ⟨kClientIdBase + ci, dst, .clientRequest cr, none⟩, ?_,
        rfl, rfl, rfl⟩
      rw [hrun]
      exact List.mem_append_right _ (List.mem_singleton.mpr rfl)
  · cases h
    exact hci
  · refine Once.call ?_ _ fun _ _ h => by cases h; simp
    refine ho.issue hr rfl hev (fun src id hne => ?_) ?_
    · refine (hcalls.count_eq fun delay a ha => ?_).trans rfl
      cases ha with
      | copy fn g _ _ =>
        rw [Action.brings, Bool.and_eq_false_iff, beq_eq_false_iff_ne, beq_eq_false_iff_ne]
        exact hne.imp Ne.symm Ne.symm
    · have hle : count _ t + s.nextSeq ≤ count _ s + t.nextSeq :=
        hcalls.count_le (Action.brings (kClientIdBase + ci) cr.requestId)
      have hone := honce hdup
      omega

/-- A packet arrives at a client, which may have no use for it. -/
theorem Refines.reply (T : Tagging M) (hr : Refines cfg ph es s) {ci : Nat} {src dst : NodeId}
    {m : Msg M.Blob}
    (hacc : Accounted cfg ((cfg.harness M).run es) (.deliver (.client ci) src dst m)) :
    ((cfg.harness M).run es).exec
        (.reply ci (T.packet ((cfg.harness M).run es).cluster.net src dst m)) =
      { (cfg.harness M).run es with
        workload := s.world.workload.onReply s.clock ci m } := by
  obtain ⟨⟨rfl, hci⟩, p, hp, rfl, hdst, rfl⟩ := hacc
  obtain ⟨q, hq, hsrc, hdst', hmsg⟩ := T.packet_spec _ p hp
  have hto : ((cfg.harness M).run es).replyTo ci
      (T.packet ((cfg.harness M).run es).cluster.net p.src (kClientIdBase + ci) p.msg) =
        some q := by
    rw [← hdst, Harness.replyTo, hq]
    exact Option.filter_some_pos (by simpa using hdst'.trans hdst)
  rw [Harness.exec, hto, ← hr.workload, ← hr.clock, ← hmsg]
  exact if_pos (by rw [hr.workload, hr.wcfg]; exact hci)

/-- The operation of a client takes too long, or is over. -/
theorem Refines.timeout (hr : Refines cfg ph es s) {ci : Nat}
    (hci : ci < cfg.workload.numClients) :
    ((cfg.harness M).run es).exec (.timeout ci) =
      { (cfg.harness M).run es with workload := s.world.workload.onTimeout s.clock ci } := by
  rw [Harness.exec, ← hr.workload, ← hr.clock]
  exact if_pos (by rw [hr.workload, hr.wcfg]; exact hci)

/-- A client does not change. -/
theorem Refines.unchanged (hr : Refines cfg ph es s) {e : HarnessEvent}
    (he : e.ownClients = true) (hexec : ((cfg.harness M).run es).exec e =
      { (cfg.harness M).run es with workload := s.world.workload }) :
    Refines cfg ph (es ++ [e]) s :=
  hr.client he hexec hr.wcfg

/-- **What an action is for the harness**: events that lead to the same state. -/
theorem Outcome.refines (T : Tagging M) (hph : ph.runs = true) {a : Action M}
    (h : Outcome cfg s a s') (hr : Refines cfg ph es s)
    (hacc : Accounted cfg ((cfg.harness M).run es) a)
    (hdown : ∀ n, a = .restart n → (s.world.node n).running = false) :
    Refines cfg ph (es ++ a.events T cfg.ids ((cfg.harness M).run es).cluster.net s.world s'.world)
        s' ∧
      (s.world.net.probs.dupProb ≤ 0 → Once cfg es [a] s → Once cfg
        (es ++ a.events T cfg.ids ((cfg.harness M).run es).cluster.net s.world s'.world) []
          s') := by
  cases h with
  | node ha hcalls =>
    obtain ⟨hn, ev, hevents, hev, hown, hhand⟩ := hacc.event T ha
    obtain ⟨hr', ho'⟩ := hr.step_once hph hn hev hown hr.handlers rfl hcalls hhand
    rw [hevents]
    exact ⟨hr', fun _ => ho'⟩
  | @restart n _ hcalls =>
    have hstate : (s.world.node n).restart.state =
        (s.world.node n).handle s.world.steps .restart := by
      rw [Node.handle, hdown n rfl]
      rfl
    have hev : ((cfg.harness M).run es).cluster.input (.restart n) = some (n, .restart) := rfl
    have hfits : Fits cfg n (.node n) := ⟨rfl, hacc⟩
    obtain ⟨hr', ho'⟩ := hr.step_once hph hacc hev rfl (fits_setHandler hr.handlers hfits) hstate
      hcalls (a := .restart n) fun k h => by cases h
    exact ⟨hr', fun _ => ho'⟩
  | @issued ci t kind key value expected g wl dst cr hissue hcalls honce =>
    obtain ⟨x, hx, hissue'⟩ := World.issued_eq (v := t.world) hissue
      (congrArg World.workload hcalls.frame.1)
    have hevents : (Action.issueOp ci).events T cfg.ids ((cfg.harness M).run es).cluster.net
        s.world (call t (.schedule kOpTimeout (.opTimeout ci))).world =
          [.issue ci x.kind x.key x.value x.expected] := by
      change ((s.world.issued t.world).map _).toList = _
      rw [hx]
      rfl
    rw [hevents]
    exact hr.issued hacc hissue' hcalls honce
  | @notIssued ci _ =>
    have hevents : (Action.issueOp ci).events T cfg.ids ((cfg.harness M).run es).cluster.net
        s.world s.world = [] := by
      rw [Action.events, World.issued, if_pos rfl]
      rfl
    rw [hevents, List.append_nil]
    exact ⟨hr, fun _ ho => ho.done⟩
  | @answered ci src dst reply hwait hid =>
    have hreply : s.world.workload.onReply s.clock ci (.clientReply reply : Msg M.Blob) =
        s.world.workload.acceptReply s.clock ci reply := by
      unfold Workload.onReply
      simp [hwait, hid]
    have hexec := hr.reply T hacc
    rw [hreply] at hexec
    obtain ⟨⟨rfl, hci⟩, -⟩ := hacc
    refine ⟨Refines.call ?_ _ fun _ _ h => ?_, fun _ ho => ?_⟩
    · have hcancel : Refines cfg ph es (call s (.cancel (.timeout ci))) :=
        hr.call _ fun _ _ h => by cases h
      exact hcancel.client rfl hexec ((acceptReply_cfg _ _ _ _).trans hr.wcfg)
    · cases h
      exact hci
    · refine Once.call ?_ _ fun _ _ h => by cases h; simp
      have hcancel := ho.done.call (.cancel (.timeout ci)) fun _ _ h => by cases h
      exact (hcancel.quiet (e := .reply ci _) rfl).put _
  | @ignored ci src dst m hno =>
    have hreply : s.world.workload.onReply s.clock ci m = s.world.workload := by
      unfold Workload.onReply
      rcases hno with hno | hno
      · simp [hno]
      · cases m with
        | clientReply reply => simp [hno reply rfl]
        | _ => simp
    have hexec := hr.reply T hacc
    rw [hreply] at hexec
    exact ⟨hr.unchanged rfl hexec, fun _ ho => ho.done.quiet (e := .reply ci _) rfl⟩
  | @gaveUp ci hwait =>
    refine ⟨Refines.call ?_ _ fun _ _ h => ?_, fun _ ho => ?_⟩
    · exact hr.client rfl (hr.timeout hacc) ((onTimeout_cfg _ _ _).trans hr.wcfg)
    · cases h
      exact hacc
    · refine Once.call ?_ _ fun _ _ h => by cases h; simp
      exact (ho.done.quiet (e := .timeout ci) rfl).put _
  | @late ci hwait =>
    have htimeout : s.world.workload.onTimeout s.clock ci = s.world.workload := by
      unfold Workload.onTimeout
      simp [hwait]
    have hexec := hr.timeout hacc
    rw [htimeout] at hexec
    exact ⟨hr.unchanged rfl hexec, fun _ ho => ho.done.quiet (e := .timeout ci) rfl⟩
  | tick _ h =>
    obtain ⟨hr', ho'⟩ := h.refines hph hr
    exact ⟨hr'.call _ fun _ _ h => by cases h; trivial, fun _ ho =>
      (ho' ho).call _ fun _ _ h => by cases h; simp⟩
  | noTick _ =>
    rw [Action.events, World.stopped_nil rfl, List.map_nil, List.append_nil]
    exact ⟨hr, fun _ ho => ho.done⟩
  | heal =>
    rw [Action.events, List.append_nil]
    exact ⟨hr.put rfl rfl rfl hr.handlers, fun _ ho => ho.done.put _⟩
  | restore =>
    rw [Action.events, List.append_nil]
    exact ⟨hr.put rfl rfl rfl hr.handlers, fun _ ho => ho.done.put _⟩

/-! ## Networks that do not duplicate -/

/-- Nothing is duplicated, and no spike of duplication is injected. -/
def RunConfig.Single (cfg : RunConfig) : Prop :=
  cfg.netCfg.dupProb ≤ 0 ∧ cfg.fault.dupRaiseProb ≤ 0

/-- No duplication, and no spike of it that is to end. -/
def Unspiked (s : Sim M) : Prop :=
  s.world.net.probs.dupProb ≤ 0 ∧ ∀ e ∈ s.queue.heap, ∀ old, e.action ≠ .restore .dup old

namespace Unspiked

theorem put (h : Unspiked s) {w : World M} (hw : w.net.probs.dupProb = s.world.net.probs.dupProb) :
    Unspiked (put w s) :=
  ⟨Eq.trans_le hw h.1, h.2⟩

theorem call (h : Unspiked s) (c : Call M)
    (hc : ∀ delay a, c = .schedule delay a → ∀ old, a ≠ .restore .dup old) :
    Unspiked (call s c) := by
  cases c with
  | draw g => exact ⟨h.1, h.2⟩
  | cancel x => exact ⟨h.1, h.2⟩
  | schedule delay a =>
    refine ⟨h.1, fun e he => ?_⟩
    rcases mem_call_schedule.mp he with rfl | he
    · exact hc delay a rfl
    · exact h.2 e he

theorem calls {P : Call M → Prop} (h : Unspiked s) (hcalls : Calls P s s')
    (hP : ∀ delay a, P (.schedule delay a) → a.routine = true) : Unspiked s' :=
  hcalls.keeps (fun _ c hc ht => ht.call c fun delay a ha old heq => by
    have hroutine := hP delay a (ha ▸ hc)
    rw [heq] at hroutine
    cases hroutine) h

end Unspiked

theorem Injected.unspiked (hsingle : cfg.Single) (h : Injected cfg s s') (hu : Unspiked s) :
    Unspiked s' := by
  have hdraw : ∀ g, Unspiked (call s (.draw g)) := fun g => hu.call _ fun _ _ h => by cases h
  cases h with
  | nothing g => exact hdraw g
  | partition ids split g g' g'' _ _ _ =>
    refine Unspiked.call ?_ _ fun _ _ h => by cases h; simp
    exact (hdraw g').put rfl
  | crash n g g' g'' t _ _ hcalls =>
    refine Unspiked.call (Unspiked.call (Unspiked.calls ?_ hcalls fun _ _ => Emission.routine)
      (.draw g'') fun _ _ h => by cases h) _ fun _ _ h => by cases h; simp
    exact (hdraw g).put rfl
  | spike k p g g' hk =>
    cases k with
    | drop =>
      refine Unspiked.call ?_ _ fun _ _ h => by cases h; simp
      exact (hdraw g').put rfl
    | dup => exact absurd (hk rfl) (not_lt.mpr hsingle.2)

theorem Outcome.unspiked (hsingle : cfg.Single) {a : Action M} (h : Outcome cfg s a s')
    (ha : ∀ old, a ≠ .restore .dup old) (hu : Unspiked s) : Unspiked s' := by
  have hpost : ∀ {s : Sim M} {delay : Nat} {a : Action M}, (∀ old, a ≠ .restore .dup old) →
      Unspiked s → Unspiked (call s (.schedule delay a)) :=
    fun ha h => h.call _ fun _ _ heq => by cases heq; exact ha
  cases h with
  | node _ hcalls =>
    refine Unspiked.calls ?_ hcalls fun _ _ => Emission.routine
    exact hu.put rfl
  | restart hcalls =>
    refine Unspiked.calls ?_ hcalls fun _ _ => Emission.routine
    exact hu.put rfl
  | issued _ _ _ _ g _ hcalls _ =>
    refine hpost (by simp) (Unspiked.calls ?_ hcalls fun _ _ => Sending.routine)
    exact (hu.call (.draw g) fun _ _ h => by cases h).put rfl
  | notIssued _ => exact hu
  | @answered ci _ _ _ _ _ =>
    refine hpost (by simp) ?_
    exact (hu.call (.cancel (.timeout ci)) fun _ _ h => by cases h).put rfl
  | ignored _ => exact hu
  | gaveUp _ =>
    refine hpost (by simp) ?_
    exact hu.put rfl
  | late _ => exact hu
  | tick _ h => exact hpost (by simp) (h.unspiked hsingle hu)
  | noTick _ => exact hu
  | heal => exact hu.put rfl
  | @restore k old =>
    cases k with
    | drop => exact hu.put rfl
    | dup => exact absurd rfl (ha old)

theorem Moment.unspiked (hsingle : cfg.Single) (h : Moment cfg ph s) : Unspiked s := by
  induction h with
  | init => exact ⟨hsingle.1, fun e he => absurd he List.not_mem_nil⟩
  | startNode h _ ih =>
    obtain ⟨g, heq⟩ := h.startNode_eq
    rw [heq]
    refine Unspiked.call (Unspiked.call ?_ _ fun _ _ h => by cases h) _ fun _ _ h => by
      cases h
      simp
    exact ih.put rfl
  | booted _ ih => exact ih
  | @event _ s _ _ _ hdue _ ih =>
    obtain ⟨e, rest, ordered, C, hq, -, hcases⟩ := event_cases cfg hdue
    have hheap : s.queue.heap = e :: rest := by rw [hq]
    have hrest : ∀ e' ∈ rest, ∀ old, e'.action ≠ .restore .dup old :=
      fun e' he' => ih.2 e' (hheap ▸ List.mem_cons_of_mem _ he')
    rcases hcases with ⟨-, heq⟩ | ⟨-, hout⟩
    · rw [heq]
      exact ⟨ih.1, hrest⟩
    · exact hout.unspiked hsingle (ih.2 e (hheap ▸ List.mem_cons_self)) ⟨ih.1, hrest⟩
  | pass _ _ _ _ _ ih => exact ⟨ih.1, ih.2⟩
  | opened _ _ ih => exact ih
  | startClient _ _ ih =>
    rw [startClient_eq]
    refine Unspiked.call ?_ _ fun _ _ h => by cases h; simp
    exact ih.put rfl
  | startFaults _ ih =>
    rw [startFaults_eq]
    refine Unspiked.call ?_ _ fun _ _ h => by cases h; simp
    exact ih.put rfl

/-! ## Runs -/

/-- The events that the next entry of the queue is for the harness: time goes on to it, and unless
it was cancelled, its action is taken. -/
def nextEvents (T : Tagging M) (ids : List NodeId) (net : List (Packet M)) (s s' : Sim M) :
    List HarnessEvent :=
  match s.queue.popMin with
  | none => []
  | some (e, cancelled, _) => .tick (e.time - s.clock) ::
      if cancelled then [] else e.action.events T ids net s.world s'.world

/-- A restart is for a node that is down. -/
theorem Moment.restart_down (hs : cfg.Sane) (hm : Moment cfg ph s) (hph : ph.runs = true)
    {e : Sim.Event (Action M)} (he : e ∈ s.queue.heap) {n : NodeId} (hn : e.action = .restart n) :
    (s.world.node n).running = false := by
  have ht := hm.tended hs
  have htotal := ht.total n (ht.due e he n hn).1
  have hpos : 0 < count (Action.isRestart n) s := by
    refine List.countP_pos_iff.mpr ⟨e, he, ?_⟩
    rw [hn]
    exact beq_self_eq_true n
  rw [Phase.started_of_runs hph n] at htotal
  cases hrun : (s.world.node n).running with
  | false => rfl
  | true =>
    rw [hrun] at htotal
    simp only [Bool.toNat_true] at htotal
    omega

/-- An event of the queue comes up. -/
theorem refines_processOne (T : Tagging M) (hs : cfg.Sane) {D : Nat} (hm : Moment cfg ph s)
    (hph : ph.runs = true) (hdue : s.Due D) (hr : Refines cfg ph es s) {es' : List HarnessEvent}
    (hes' : es' = nextEvents T cfg.ids ((cfg.harness M).run es).cluster.net s
      (s.processOne (act cfg))) :
    Refines cfg ph (es ++ es') (s.processOne (act cfg)) ∧
      (s.world.net.probs.dupProb ≤ 0 → Once cfg es [] s →
        Once cfg (es ++ es') [] (s.processOne (act cfg))) := by
  obtain ⟨e, rest, ordered, C, hq, -, hcases⟩ := event_cases cfg hdue
  have hheap : s.queue.heap = e :: rest := by rw [hq]
  have hmem : e ∈ s.queue.heap := hheap ▸ List.mem_cons_self
  have hclock : s.clock ≤ e.time := (hm.sound hs).1.1.due e hmem
  have hrest : ∀ e' ∈ rest, e' ∈ s.queue.heap := fun e' he' => hheap ▸ List.mem_cons_of_mem _ he'
  -- what was queued is in hand
  have hhand : ∀ {t : Sim M}, t.queue.heap = rest → Once cfg es [] s →
      Once cfg (es ++ [.tick (e.time - s.clock)]) [e.action] t := by
    intro t ht ho
    refine Once.quiet (ho.weaken fun src id => ?_) rfl
    unfold count
    rw [ht, hheap, List.countP_cons, List.countP_cons, List.countP_nil]
    omega
  rw [nextEvents, hq, EventQueue.popMin] at hes'
  dsimp only at hes'
  rcases hcases with ⟨hc, heq⟩ | ⟨hc, hout⟩
  · rw [decide_eq_true hc, if_pos rfl] at hes'
    rw [hes', heq]
    exact ⟨hr.tick (t := { s with
      queue := ⟨rest, ordered.of_cons, C.erase e.seq⟩, clock := e.time }) rfl hclock hrest,
      fun _ ho => (hhand rfl ho).done⟩
  · have hbegun := hr.tick (t := s.begin e ⟨rest, ordered.of_cons, C.erase e.seq⟩) rfl hclock hrest
    have hrun := run_concat (cfg.harness M) es (.tick (e.time - s.clock))
    have hacc : Accounted cfg ((cfg.harness M).run (es ++ [.tick (e.time - s.clock)]))
        e.action := by
      rw [hrun]
      exact hr.queue e hmem
    obtain ⟨hr', ho'⟩ := hout.refines T hph hbegun hacc fun n hn => hm.restart_down hs hph hmem hn
    have hnet : ((cfg.harness M).run es).cluster.net =
        ((cfg.harness M).run (es ++ [.tick (e.time - s.clock)])).cluster.net := by
      rw [hrun]
      rfl
    rw [decide_eq_false hc, if_neg Bool.false_ne_true, hnet] at hes'
    rw [hes', List.append_cons]
    exact ⟨hr', fun hdup ho => ho' hdup (hhand rfl ho)⟩

/-- Node `k + 1` is started. -/
theorem Refines.booted {k : Nat} (h : Refines cfg (.booting k) [] s) (hk : k < cfg.numNodes) :
    Refines cfg (.booting (k + 1)) [] (Runner.put (s.world.booted cfg (k + 1)) s) where
  own := h.own
  nodes m hm hst := by
    change _ = Function.update s.world.node (k + 1) (started M cfg (k + 1)) m
    by_cases hmk : m = k + 1
    · subst hmk
      rw [Function.update_self]
      exact Cluster.init_node M cfg.members cfg.raft (k + 1)
    · rw [Function.update_of_ne hmk]
      have hle : m ≤ k + 1 := of_decide_eq_true hst
      exact h.nodes m hm (decide_eq_true (Nat.le_of_lt_succ (Nat.lt_of_le_of_ne hle hmk)))
  workload := h.workload
  wcfg := h.wcfg
  steps := h.steps
  clock := h.clock
  handlers := fits_setHandler h.handlers ⟨rfl, RunConfig.mem_ids.mpr ⟨Nat.succ_pos k, hk⟩⟩
  queue := h.queue

/-- The next phase, in which no more nodes are started. -/
theorem Refines.phase (h : Refines cfg ph es s) {ph' : Phase}
    (hst : ∀ n ∈ cfg.ids, ph'.started n = true → ph.started n = true) : Refines cfg ph' es s :=
  ⟨h.own, fun n hn hn' => h.nodes n hn (hst n hn hn'), h.workload, h.wcfg, h.steps, h.clock,
    h.handlers, h.queue⟩

/-- A client is started. -/
theorem Refines.startClient {k : Nat} (h : Refines cfg (.starting k) es s)
    (hk : k < cfg.workload.numClients) :
    Refines cfg (.starting (k + 1)) es (s.exec (Runner.startClient cfg k)) := by
  rw [startClient_eq]
  refine Refines.call ?_ _ fun _ _ h => ?_
  · exact (h.phase fun _ _ _ => rfl).put rfl rfl rfl (fits_setHandler h.handlers ⟨rfl, hk⟩)
  · cases h
    exact hk

/-- The fault injector is started. -/
theorem Refines.startFaults {k : Nat} (h : Refines cfg (.starting k) es s) :
    Refines cfg .working es (s.exec (Runner.startFaults cfg)) := by
  rw [startFaults_eq]
  refine Refines.call ?_ _ fun _ _ h => ?_
  · exact (h.phase fun _ _ _ => rfl).put rfl rfl rfl h.handlers
  · cases h
    trivial

theorem Once.startClient (h : Once cfg es [] s) (k : Nat) :
    Once cfg es [] (s.exec (Runner.startClient cfg k)) := by
  rw [startClient_eq]
  exact (h.put _).call _ fun _ _ h => by cases h; simp

theorem Once.startFaults (h : Once cfg es [] s) :
    Once cfg es [] (s.exec (Runner.startFaults cfg)) := by
  rw [startFaults_eq]
  exact (h.put _).call _ fun _ _ h => by cases h; simp

theorem Once.tick (h : Once cfg es [] s) (d t : Nat) :
    Once cfg (es ++ [.tick d]) [] (s.atTime t) :=
  ⟨(h.quiet (e := .tick d) rfl).past, (h.quiet (e := .tick d) rfl).once⟩

/-- Every request is delivered once at most. -/
theorem Once.requestsOnce (h : Once cfg es [] s) :
    (Cluster.init M cfg.members cfg.raft).RequestsOnce ((cfg.harness M).clusterEvents es) := by
  intro k _ hk
  have hrun : (Cluster.init M cfg.members cfg.raft).run ((cfg.harness M).clusterEvents es) =
      ((cfg.harness M).run es).cluster := (Harness.run_cluster (cfg.harness M) es).symm
  rw [hrun] at hk
  obtain ⟨p, hp, hreq⟩ := (Option.any_eq_true _ _).mp hk
  cases hmsg : p.msg with
  | clientRequest cr =>
    exact Nat.le_trans (Nat.le_add_right _ _) (h.once k p cr hp hmsg)
  | _ => rw [hmsg] at hreq; cases hreq

theorem Moment.refines (hs : cfg.Sane) (h : Moment cfg ph s) :
    ∃ es, Refines cfg ph es s ∧ (cfg.Single → Once cfg es [] s) ∧
      ∀ k, ph = .booting k → es = [] := by
  induction h with
  | init =>
    refine ⟨[], ⟨fun e he => absurd he List.not_mem_nil, fun n hn hst => ?_, rfl, rfl, rfl, rfl,
      fun id fn hfn => ?_, fun e he => absurd he List.not_mem_nil⟩, fun _ =>
      ⟨fun k hk => absurd hk List.not_mem_nil, fun k p cr hp => ?_⟩, fun _ _ => rfl⟩
    · exact absurd (of_decide_eq_true hst) (Nat.not_le.mpr (RunConfig.mem_ids.mp hn).1)
    · cases hfn
    · cases hp
  | @startNode k s h hk ih =>
    obtain ⟨es, hr, ho, hnil⟩ := ih
    obtain rfl := hnil k rfl
    obtain ⟨g, heq⟩ := h.startNode_eq
    rw [heq]
    refine ⟨[], ((hr.booted hk).call (.draw g) fun _ _ h => by cases h).call _ fun _ _ h => ?_,
      fun hsingle => ?_, fun _ _ => rfl⟩
    · cases h
      exact RunConfig.mem_ids.mpr ⟨Nat.succ_pos k, hk⟩
    · exact (((ho hsingle).put _).call (.draw g) fun _ _ h => by cases h).call _ fun _ _ h => by
        cases h
        simp
  | booted _ ih =>
    obtain ⟨es, hr, ho, -⟩ := ih
    exact ⟨es, hr.phase fun n hn _ => decide_eq_true (RunConfig.mem_ids.mp hn).2, ho,
      fun _ h => by cases h⟩
  | event h hph hdue _ ih =>
    obtain ⟨es, hr, ho, -⟩ := ih
    obtain ⟨T⟩ := Tagging.exists M
    obtain ⟨hr', ho'⟩ := refines_processOne T hs h hph hdue hr rfl
    exact ⟨_, hr', fun hsingle => ho' (h.unspiked hsingle).1 (ho hsingle), fun k h => by
      subst h
      cases hph⟩
  | pass _ hph _ hle _ ih =>
    obtain ⟨es, hr, ho, -⟩ := ih
    exact ⟨_, hr.tick (t := Simulator.atTime _ _) rfl hle fun _ he => he,
      fun hsingle => (ho hsingle).tick _ _, fun k h => by
      subst h
      cases hph⟩
  | opened _ _ ih =>
    obtain ⟨es, hr, ho, -⟩ := ih
    exact ⟨es, hr.phase fun _ _ _ => rfl, ho, fun _ h => by cases h⟩
  | startClient _ hk ih =>
    obtain ⟨es, hr, ho, -⟩ := ih
    exact ⟨es, hr.startClient hk, fun hsingle => (ho hsingle).startClient _, fun _ h => by
      cases h⟩
  | startFaults _ ih =>
    obtain ⟨es, hr, ho, -⟩ := ih
    exact ⟨es, hr.startFaults, fun hsingle => (ho hsingle).startFaults, fun _ h => by cases h⟩

/-- **A simulated run is a run of clients and cluster.**  At every moment of the run that
`run_once` makes of its seed, some events lead the harness from its first state to the same nodes,
the same clients with the same history, and the same time.  What is on its way is a packet of that
harness.  None of the events is one that only tests and servers cause. -/
theorem simulated_run_refines (M : Medium) (cfg : RunConfig) (hs : cfg.Sane) (ph : Phase)
    (s : Sim M) (h : Moment cfg ph s) (hph : ph.runs = true) :
    ∃ es : List HarnessEvent, (∀ e ∈ es, e.ownClients = true) ∧
      (∀ n ∈ cfg.ids, ((cfg.harness M).run es).cluster.node n = s.world.node n) ∧
      ((cfg.harness M).run es).workload = s.world.workload ∧
      ((cfg.harness M).run es).now = s.clock ∧
      ∀ e ∈ s.queue.heap, ∀ fn src dst m, e.action = .deliver fn src dst m →
        ∃ p ∈ ((cfg.harness M).run es).cluster.net, p.src = src ∧ p.dst = dst ∧ p.msg = m := by
  obtain ⟨es, hr, -, -⟩ := h.refines hs
  refine ⟨es, hr.own, fun n hn => hr.nodes n hn (Phase.started_of_runs hph n), hr.workload,
    hr.clock, fun e he fn src dst m ha => ?_⟩
  have hacc := hr.queue e he
  rw [ha] at hacc
  exact hacc.2

theorem simulated_run_refines_two : ∃ s : Sim Medium.bytes, s.clock = kSec + 200 * kMsec ∧
    s.world.workload.history.entries.length = 4 ∧ (s.world.node 1).currentTerm = 8 ∧
    ∃ es : List HarnessEvent,
      (((twoNodes true).harness Medium.bytes).run es).cluster.node 1 = s.world.node 1 ∧
      (((twoNodes true).harness Medium.bytes).run es).workload = s.world.workload ∧
      (((twoNodes true).harness Medium.bytes).run es).now = s.clock ∧
      ∀ e ∈ s.queue.heap, ∀ fn src dst m, e.action = .deliver fn src dst m →
        ∃ p ∈ (((twoNodes true).harness Medium.bytes).run es).cluster.net,
          p.src = src ∧ p.dst = dst ∧ p.msg = m := by
  have hrun : ((runUpTo Medium.bytes (twoNodes true) (200 * kMsec) 100).map fun s =>
      (s.clock, s.world.workload.history.entries.length, (s.world.node 1).currentTerm)) =
        some (kSec + 200 * kMsec, 4, 8) := by decide +kernel
  obtain ⟨s, hs, hstate⟩ := Option.map_eq_some_iff.mp hrun
  obtain ⟨hclock, hrest⟩ := Prod.mk.inj hstate
  obtain ⟨hlen, hterm⟩ := Prod.mk.inj hrest
  obtain ⟨es, -, hnodes, hw, hnow, hnet⟩ := simulated_run_refines Medium.bytes (twoNodes true)
    (twoNodes_sane true) .working s (runUpTo_moment (by decide) hs) rfl
  exact ⟨s, hclock, hlen, hterm, es, hnodes 1 (by decide), hw, hnow, hnet⟩

end SimKV.Runner
