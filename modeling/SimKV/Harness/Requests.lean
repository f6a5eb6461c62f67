/-
# What the clients ask of the cluster

A harness drives its cluster with the events it is given and with the requests its
clients send (`clusterEvents`); everything that is known of the runs of a cluster
holds of it.  Beside the books of `SimKV.Harness.Sessions` the clients keep numbers: a
request has the id of its client and a number of its own, so each entry of the history
belongs to one request (`Session.Numbered`), and the requests in the network are those
of the history (`Harness.requested_run`).

So the entry that a leader places for a request is the command of one recorded
operation (`placed_recorded`), and the answer that is recorded for an operation is the
one given to its own request (`answer_recorded`).
-/
import SimKV.Checker.Exact
import SimKV.Harness.Sessions
import SimKV.Raft.Origins

namespace SimKV

/-- The request that an operation sends. -/
def HistoryEntry.request (x : HistoryEntry) : ClientRequest :=
  ⟨x.clientId, x.requestId, x.command⟩

/-! ## Numbers -/

namespace Session

/-- Every operation has the number its client gave it, and no other has that number. -/
structure Numbered (s : Session) : Prop where
  below : ∀ (i : Nat) (x : HistoryEntry), s.workload.history.entries[i]? = some x →
    ∃ ci, x.clientId = kClientIdBase + ci ∧ x.requestId < (s.workload.clients ci).nextRequestId
  unique : ∀ (i j : Nat) (x y : HistoryEntry), s.workload.history.entries[i]? = some x →
    s.workload.history.entries[j]? = some y → x.clientId = y.clientId →
    x.requestId = y.requestId → i = j
  last : ∀ (ci : Nat) (x : HistoryEntry), (s.workload.clients ci).waiting = true →
    s.workload.history.entries[(s.workload.clients ci).historyHandle]? = some x →
    x.requestId + 1 = (s.workload.clients ci).nextRequestId

/-- `s'` has the operations of `s`, as they were invoked, and keeps what was recorded of them. -/
def Grows (s s' : Session) : Prop :=
  s.now ≤ s'.now ∧ ∀ (i : Nat) (x : HistoryEntry), s.workload.history.entries[i]? = some x →
    ∃ y, s'.workload.history.entries[i]? = some y ∧ y.request = x.request ∧ y.kind = x.kind ∧
      y.invoke = x.invoke ∧ (x.pending = false → y = x)

theorem Grows.refl (s : Session) : s.Grows s :=
  ⟨Nat.le_refl _, fun _ x hx => ⟨x, hx, rfl, rfl, rfl, fun _ => rfl⟩⟩

theorem Grows.trans {s s' s'' : Session} (h : s.Grows s') (h' : s'.Grows s'') : s.Grows s'' := by
  refine ⟨Nat.le_trans h.1 h'.1, fun i x hx => ?_⟩
  obtain ⟨y, hy, h1, h2, h3, h4⟩ := h.2 i x hx
  obtain ⟨z, hz, h1', h2', h3', h4'⟩ := h'.2 i y hy
  refine ⟨z, hz, h1'.trans h1, h2'.trans h2, h3'.trans h3, fun hp => ?_⟩
  have hyx := h4 hp
  rw [hyx] at h4'
  exact h4' hp

variable {s s' : Session}

theorem numbered_init (cfg : WorkloadConfig) (nodes : List NodeId) :
    (init cfg nodes).Numbered where
  below i x h := by simp [init, Workload.init, History.empty] at h
  unique i j x y h := by simp [init, Workload.init, History.empty] at h
  last ci x h := absurd h (by simp [init, Workload.init])

/-- The entries after `record_invoke`: the old ones, and one at the end. -/
theorem register_entry {ci : Nat} {kind : OpKind} {key val exp : Str} {i : Nat} {x : HistoryEntry}
    (h : (s.workload.register s.now ci kind key val exp).history.entries[i]? = some x) :
    s.workload.history.entries[i]? = some x ∨
      (i = s.workload.history.entries.length ∧
        x = ⟨kClientIdBase + ci, (s.workload.clients ci).nextRequestId, kind, key, val, exp, s.now,
          0, Str.lit "", false, true⟩) := by
  rcases Nat.lt_or_ge i s.workload.history.entries.length with hi | hi
  · exact Or.inl ((List.getElem?_append_left hi).symm.trans h)
  · have h' := (List.getElem?_append_right hi).symm.trans h
    rw [List.getElem?_singleton] at h'
    split at h'
    · exact Or.inr ⟨by omega, (Option.some.inj h').symm⟩
    · cases h'

theorem Numbered.register (h : s.Numbered) (ht : s.workload.Tracked) (ci : Nat) (kind : OpKind)
    (key val exp : Str) :
    ({ s with workload := s.workload.register s.now ci kind key val exp } : Session).Numbered := by
  have hnext : ∀ cj, (s.workload.clients cj).nextRequestId ≤
      ((s.workload.register s.now ci kind key val exp).clients cj).nextRequestId := by
    intro cj
    by_cases hj : cj = ci
    · subst hj
      simp [Workload.register]
    · rw [Workload.register_client_of_ne hj]
  -- the new number is above those in use
  have hfresh : ∀ {i : Nat} {x : HistoryEntry}, s.workload.history.entries[i]? = some x →
      x.clientId = kClientIdBase + ci → x.requestId < (s.workload.clients ci).nextRequestId := by
    intro i x hx hid
    obtain ⟨cj, hcj, hlt⟩ := h.below i x hx
    have hj : cj = ci := by omega
    rwa [hj] at hlt
  refine ⟨fun i x hx => ?_, fun i j x y hx hy hc hr => ?_, fun cj x hw hx => ?_⟩
  · rcases register_entry hx with hx | ⟨-, rfl⟩
    · obtain ⟨cj, hcj, hlt⟩ := h.below i x hx
      exact ⟨cj, hcj, Nat.lt_of_lt_of_le hlt (hnext cj)⟩
    · exact ⟨ci, rfl, by simp [Workload.register]⟩
  · rcases register_entry hx with hx | ⟨hi, rfl⟩
    · rcases register_entry hy with hy | ⟨-, rfl⟩
      · exact h.unique i j x y hx hy hc hr
      · exact absurd hr (Nat.ne_of_lt (hfresh hx hc))
    · rcases register_entry hy with hy | ⟨hj, -⟩
      · exact absurd hr.symm (Nat.ne_of_lt (hfresh hy hc.symm))
      · rw [hi, hj]
  · by_cases hj : cj = ci
    · subst hj
      simp only [Workload.register_handle] at hx
      rcases register_entry hx with hx | ⟨-, rfl⟩
      · exact absurd (List.getElem?_eq_some_iff.mp hx).1 (Nat.lt_irrefl _)
      · simp [Workload.register]
    · simp only [Workload.register_client_of_ne hj] at hw hx ⊢
      obtain ⟨y, hy, -⟩ := ht.pending cj hw
      rcases register_entry hx with hx | ⟨hi, -⟩
      · exact h.last cj x hw hx
      · have := (List.getElem?_eq_some_iff.mp hy).1
        omega

/-- The entries after `record_return`: one of them is answered. -/
theorem complete_entry {ci : Nat} {ok : Bool} {r : Str} {leader : NodeId} {i : Nat}
    {x : HistoryEntry}
    (h : (s.workload.complete s.now ci ok r leader).history.entries[i]? = some x) :
    (s.workload.history.entries[i]? = some x ∧ i ≠ (s.workload.clients ci).historyHandle) ∨
      (i = (s.workload.clients ci).historyHandle ∧
        ∃ y, s.workload.history.entries[i]? = some y ∧ x = y.answered s.now ok r) := by
  by_cases hi : i = (s.workload.clients ci).historyHandle
  · subst hi
    refine Or.inr ⟨rfl, ?_⟩
    have h' : (s.workload.history.entries.modify (s.workload.clients ci).historyHandle
        (HistoryEntry.answered s.now ok r))[(s.workload.clients ci).historyHandle]? = some x := h
    rw [List.getElem?_modify_eq] at h'
    obtain ⟨y, hy, hyx⟩ := Option.map_eq_some_iff.mp h'
    exact ⟨y, hy, hyx.symm⟩
  · refine Or.inl ⟨?_, hi⟩
    exact (History.recordReturn_of_ne s.now ok r (Ne.symm hi)).symm.trans h

theorem Numbered.complete (h : s.Numbered) (ci : Nat) (ok : Bool) (r : Str) (leader : NodeId) :
    ({ s with workload := s.workload.complete s.now ci ok r leader } : Session).Numbered := by
  have hnext : ∀ cj, ((s.workload.complete s.now ci ok r leader).clients cj).nextRequestId =
      (s.workload.clients cj).nextRequestId := by
    intro cj
    by_cases hj : cj = ci
    · subst hj
      simp [Workload.complete]
    · rw [Workload.complete_client_of_ne hj]
  -- every entry has the ids of one that was there before
  have hold : ∀ {i : Nat} {x : HistoryEntry},
      (s.workload.complete s.now ci ok r leader).history.entries[i]? = some x →
      ∃ y, s.workload.history.entries[i]? = some y ∧ y.clientId = x.clientId ∧
        y.requestId = x.requestId := by
    intro i x hx
    rcases complete_entry hx with ⟨hx, -⟩ | ⟨-, y, hy, rfl⟩
    · exact ⟨x, hx, rfl, rfl⟩
    · exact ⟨y, hy, rfl, rfl⟩
  refine ⟨fun i x hx => ?_, fun i j x y hx hy hc hr => ?_, fun cj x hw hx => ?_⟩
  · obtain ⟨y, hy, hc, hr⟩ := hold hx
    rw [← hc, ← hr]
    simp only [hnext]
    exact h.below i y hy
  · obtain ⟨x', hx', hcx, hrx⟩ := hold hx
    obtain ⟨y', hy', hcy, hry⟩ := hold hy
    exact h.unique i j x' y' hx' hy' (by rw [hcx, hcy]; exact hc) (by rw [hrx, hry]; exact hr)
  · have hj : cj ≠ ci := by
      rintro rfl
      rw [Workload.complete_idle] at hw
      cases hw
    obtain ⟨y, hy, -, hr⟩ := hold hx
    simp only [Workload.complete_client_of_ne hj] at hw hy ⊢
    rw [← hr]
    exact h.last cj y hw hy

theorem Numbered.stepped {c : Option Nat} (h : s.Numbered) (ht : s.workload.Tracked)
    (hs : s.Stepped c s') : s'.Numbered := by
  cases hs with
  | still d => exact ⟨h.below, h.unique, h.last⟩
  | invoked ci kind key val exp => exact h.register ht ci kind key val exp
  | returned ci ok response leader => exact h.complete ci ok response leader

theorem Stepped.grows {c : Option Nat} (ht : s.workload.Tracked) (hs : s.Stepped c s') :
    s.Grows s' := by
  cases hs with
  | still d => exact ⟨Nat.le_add_right _ _, (Grows.refl s).2⟩
  | invoked ci kind key val exp =>
    refine ⟨Nat.le_refl _, fun i x hx => ⟨x, ?_, rfl, rfl, rfl, fun _ => rfl⟩⟩
    exact (List.getElem?_append_left (List.getElem?_eq_some_iff.mp hx).1).trans hx
  | returned ci ok response leader hci hw =>
    refine ⟨Nat.le_refl _, fun i x hx => ?_⟩
    by_cases hi : (s.workload.clients ci).historyHandle = i
    · subst hi
      refine ⟨_, History.recordReturn_self s.now ok response hx, rfl, rfl, rfl, fun hp => ?_⟩
      -- the entry of a client that waits is pending
      obtain ⟨y, hy, hyp⟩ := ht.pending ci hw
      cases hx.symm.trans hy
      rw [hp] at hyp
      cases hyp
    · exact ⟨x, (History.recordReturn_of_ne s.now ok response hi).trans hx, rfl, rfl, rfl,
        fun _ => rfl⟩

end Session

/-! ## The cluster of a harness -/

/-- The event is none in which somebody else submits a command or sends a request. -/
def HarnessEvent.ownClients : HarnessEvent → Bool
  | .cluster (.submit _ _ _ _) | .cluster (.clientSend _ _ _) => false
  | _ => true

def Command.isPut : Command → Bool
  | .put _ _ => true
  | _ => false

/-- Of the requests that wait at a node that crashes, all are Puts. -/
def Cluster.CrashSpares {M : Medium} (C : Cluster M) : Event → Prop
  | .crash n => ∀ q ∈ (C.node n).pendingClients.toList,
      (q.2.origin.all fun o => o.2.cmd.isPut) = true
  | _ => True

instance {M : Medium} (C : Cluster M) (e : Event) : Decidable (C.CrashSpares e) := by
  unfold Cluster.CrashSpares
  induction e using Event.casesOn <;> infer_instance

namespace Harness

variable {M : Medium} {H : Harness M}

/-- What an event of the harness is to its cluster. -/
def clusterEvent (H : Harness M) : HarnessEvent → Option Event
  | .cluster e => some e
  | .issue ci kind key value expected =>
    if ci < H.workload.cfg.numClients then
      (H.workload.issueOp H.now ci kind key value expected).2.map fun q =>
        .clientSend (kClientIdBase + ci) q.1 q.2
    else none
  | _ => none

/-- What a run of the harness is to its cluster. -/
def clusterEvents (H : Harness M) : List HarnessEvent → List Event
  | [] => []
  | e :: es => (H.clusterEvent e).toList ++ (H.exec e).clusterEvents es

theorem exec_cluster (H : Harness M) (e : HarnessEvent) :
    (H.exec e).cluster = H.cluster.run (H.clusterEvent e).toList := by
  cases e with
  | cluster e => rfl
  | issue ci kind key value expected =>
    rw [exec, clusterEvent]
    split
    · split
      · rename_i w dst cr heq
        rw [heq]
        rfl
      · rename_i w heq
        rw [heq]
        rfl
    · rfl
  | reply ci k =>
    unfold exec
    simp only
    split
    · split <;> rfl
    · rfl
  | timeout ci =>
    unfold exec
    simp only
    split <;> rfl
  | tick d => rfl

theorem run_cluster (H : Harness M) (es : List HarnessEvent) :
    (H.run es).cluster = H.cluster.run (H.clusterEvents es) := by
  induction es generalizing H with
  | nil => rfl
  | cons e es ih =>
    rw [clusterEvents, Cluster.run_append, ← exec_cluster]
    exact ih (H.exec e)

theorem run_append (H : Harness M) (es es' : List HarnessEvent) :
    H.run (es ++ es') = (H.run es).run es' := List.foldl_append

theorem clusterEvents_append (H : Harness M) (es es' : List HarnessEvent) :
    H.clusterEvents (es ++ es') = H.clusterEvents es ++ (H.run es).clusterEvents es' := by
  induction es generalizing H with
  | nil => rfl
  | cons e es ih =>
    rw [List.cons_append, clusterEvents, clusterEvents, ih, List.append_assoc]
    rfl

theorem clusterEvents_isPre (H : Harness M) {es es' : List HarnessEvent} (h : es' <+: es) :
    H.clusterEvents es' <+: H.clusterEvents es := by
  obtain ⟨rest, rfl⟩ := h
  rw [clusterEvents_append]
  exact List.prefix_append _ _

/-! ## Runs -/

/-- The clients' books and numbers are in order. -/
structure Kept (H : Harness M) : Prop where
  books : H.session.Books
  numbered : H.session.Numbered

theorem kept_init (M : Medium) (mem : Membership) (cfg : NodeId → RaftConfig)
    (wcfg : WorkloadConfig) (nodes : List NodeId) : (init M mem cfg wcfg nodes).Kept :=
  ⟨Session.books_init wcfg nodes, Session.numbered_init wcfg nodes⟩

theorem Kept.exec (h : H.Kept) (e : HarnessEvent) :
    (H.exec e).Kept ∧ H.session.Grows (H.exec e).session := by
  have hs := Session.exec_stepped h.books.tracked (H.sessionEvent e)
  rw [← exec_session] at hs
  exact ⟨⟨h.books.stepped hs, h.numbered.stepped h.books.tracked hs⟩, hs.grows h.books.tracked⟩

theorem Kept.run (h : H.Kept) (es : List HarnessEvent) :
    (H.run es).Kept ∧ H.session.Grows (H.run es).session := by
  induction es generalizing H with
  | nil => exact ⟨h, .refl _⟩
  | cons e es ih =>
    obtain ⟨h₁, hg₁⟩ := h.exec e
    obtain ⟨h₂, hg₂⟩ := ih h₁
    exact ⟨h₂, hg₁.trans hg₂⟩

/-- What reaches the cluster reaches it at some moment of the run. -/
theorem exists_moment {es : List HarnessEvent} {c : List Event} {ev : Event}
    (h : c ++ [ev] <+: H.clusterEvents es) :
    ∃ es' e, es' ++ [e] <+: es ∧ H.clusterEvents es' = c ∧
      (H.run es').clusterEvent e = some ev := by
  induction es using List.reverseRecOn with
  | nil => exact absurd (List.prefix_nil.mp h) (by simp)
  | append_singleton es e ih =>
    rcases Nat.lt_or_ge (H.clusterEvents es).length (c ++ [ev]).length with hlt | hle
    · -- it is what the last event brings
      refine ⟨es, e, List.prefix_rfl, ?_⟩
      rw [clusterEvents_append] at h
      change _ <+: _ ++ (((H.run es).clusterEvent e).toList ++ []) at h
      rw [List.append_nil] at h
      cases hev : (H.run es).clusterEvent e with
      | none =>
        rw [hev, Option.toList_none, List.append_nil] at h
        exact absurd h.length_le (Nat.not_le.mpr hlt)
      | some ev' =>
        rw [hev, Option.toList_some] at h
        have hlen : c.length = (H.clusterEvents es).length := by
          have := h.length_le
          simp only [List.length_append, List.length_singleton] at this hlt
          omega
        have heq := h.eq_of_length (by simp [hlen])
        obtain ⟨rfl, hev'⟩ := List.append_inj heq hlen
        cases hev'
        exact ⟨rfl, rfl⟩
    · obtain ⟨es', e', hpre, h'⟩ := ih (List.prefix_of_prefix_length_le h
        (H.clusterEvents_isPre (List.prefix_append es [e])) hle)
      exact ⟨es', e', hpre.trans (List.prefix_append _ _), h'⟩

/-- The command that is sent is that of the recorded operation. -/
theorem issue_recorded {ci : Nat} {kind : OpKind} {key value expected : Str} {src dst : NodeId}
    {cr : ClientRequest}
    (h : H.clusterEvent (.issue ci kind key value expected) = some (.clientSend src dst cr)) :
    ∃ (i : Nat) (x : HistoryEntry),
      (H.exec (.issue ci kind key value expected)).workload.history.entries[i]? = some x ∧
      x.clientId = src ∧ x.request = cr := by
  rw [clusterEvent] at h
  split at h
  · rename_i hci
    obtain ⟨⟨d, cr'⟩, hq, hsend⟩ := Option.map_eq_some_iff.mp h
    cases hsend
    rw [exec, if_pos hci]
    unfold Workload.issueOp at hq ⊢
    split at hq
    · cases hq
    · split at hq
      · cases hq
      · rename_i hroom hidle
        rw [if_neg hroom, if_neg hidle]
        cases hq
        refine ⟨_, _, List.getElem?_concat_length, rfl, ?_⟩
        cases kind <;> rfl
  · cases h

/-! ## Requests and operations -/

section Requests

variable {mem : Membership} {cfg : NodeId → RaftConfig} {wcfg : WorkloadConfig}
  {nodes : List NodeId} {es : List HarnessEvent}

/-- Only the clients of the harness ask for anything. -/
theorem asked_by_issue (hown : ∀ e ∈ es, e.ownClients = true) {c : List Event} {ev : Event}
    (h : c ++ [ev] <+: H.clusterEvents es) :
    (∀ n cid rid cmd, ev ≠ .submit n cid rid cmd) ∧ ∀ src dst cr, ev = .clientSend src dst cr →
      ∃ es' e, es' ++ [e] <+: es ∧ ∃ (i : Nat) (x : HistoryEntry),
        ((H.run es').exec e).workload.history.entries[i]? = some x ∧ x.clientId = src ∧
        x.request = cr := by
  obtain ⟨es', e, hpre, -, hev⟩ := exists_moment h
  have howned := hown e (hpre.subset (List.mem_append_right _ (List.mem_singleton_self e)))
  cases e with
  | cluster e =>
    cases hev
    refine ⟨fun n cid rid cmd he => ?_, fun src dst cr he => ?_⟩
    · rw [he] at howned
      cases howned
    · rw [he] at howned
      cases howned
  | issue ci kind key value expected =>
    refine ⟨fun n cid rid cmd he => ?_, fun src dst cr he => ?_⟩
    · subst he
      rw [clusterEvent] at hev
      split at hev
      · obtain ⟨q, -, hq⟩ := Option.map_eq_some_iff.mp hev
        cases hq
      · cases hev
    · subst he
      exact ⟨es', _, hpre, issue_recorded hev⟩
  | _ => cases hev

/-- **Every request in the network is that of a recorded operation.** -/
theorem requested_run (hown : ∀ e ∈ es, e.ownClients = true) {p : Packet M} {cr : ClientRequest}
    (hp : p ∈ ((init M mem cfg wcfg nodes).run es).cluster.net) (hm : p.msg = .clientRequest cr) :
    ∃ (i : Nat) (x : HistoryEntry),
      ((init M mem cfg wcfg nodes).run es).workload.history.entries[i]? = some x ∧
      x.clientId = p.src ∧ x.request = cr := by
  rw [run_cluster] at hp
  obtain ⟨c, hsent⟩ := Cluster.request_sent (Cluster.settled_init M mem cfg) rfl hp hm
  obtain ⟨es', e, hpre, i, x, hx, hid, hreq⟩ := (asked_by_issue hown hsent).2 _ _ _ rfl
  obtain ⟨rest, rfl⟩ := hpre
  have hkept := ((kept_init M mem cfg wcfg nodes).run (es' ++ [e])).1
  have hx' : ((init M mem cfg wcfg nodes).run (es' ++ [e])).session.workload.history.entries[i]? =
      some x := by
    rw [run_append]
    exact hx
  obtain ⟨y, hy, hyr, -⟩ := (hkept.run rest).2.2 i x hx'
  rw [run_append]
  exact ⟨i, y, hy, (congrArg ClientRequest.clientId hyr).trans hid, hyr.trans hreq⟩

/-- **Every entry that is placed is the command of a recorded operation.** -/
theorem placed_recorded (hown : ∀ e ∈ es, e.ownClients = true) {m : NodeId} {cb : Callback}
    {e : LogEntry} (h : (m, cb, e) ∈ ((init M mem cfg wcfg nodes).run es).cluster.placings) :
    ∃ (i : Nat) (x : HistoryEntry),
      ((init M mem cfg wcfg nodes).run es).workload.history.entries[i]? = some x ∧
      cb.origin = some (x.clientId, x.request) ∧ x.command = e.cmd := by
  rw [run_cluster] at h
  obtain ⟨c, ev, hpre, hasked⟩ := Cluster.placed_asked (Cluster.settled_init M mem cfg) rfl h
  rcases hasked with ⟨cid, rid, rfl, -⟩ | ⟨k, p, cr, rfl, hp, hm, hcmd, ho⟩
  · exact absurd rfl ((asked_by_issue hown hpre).1 _ _ _ _)
  · have hpin : p ∈ ((init M mem cfg wcfg nodes).run es).cluster.net := by
      obtain ⟨rest, hrest⟩ := (List.prefix_append c [Event.deliver k]).trans hpre
      rw [run_cluster, ← hrest, Cluster.run_append]
      exact List.mem_of_getElem? (Cluster.run_net_getElem? rest hp)
    obtain ⟨i, x, hx, hid, hreq⟩ := requested_run hown hpin hm
    refine ⟨i, x, hx, ?_, ?_⟩
    · rw [ho, hid, hreq]
    · rw [← hcmd, ← hreq]
      rfl

end Requests

/-! ## Answers -/

/-- How an operation of client `ci` ends. -/
inductive Ends (H : Harness M) (ci : Nat) (kind : OpKind) : HarnessEvent → Bool → Str → Prop
  | timeout : Ends H ci kind (.timeout ci) false (Str.lit "timeout")
  | refused (k : Nat) (p : Packet M) (reply : ClientReply) (hp : H.replyTo ci k = some p)
      (hm : p.msg = .clientReply reply) (hs : reply.success = false)
      (hid : reply.requestId = pred64 (H.workload.clients ci).nextRequestId) :
      Ends H ci kind (.reply ci k) false (Str.lit "not_leader")
  | answered (k : Nat) (p : Packet M) (reply : ClientReply) (hp : H.replyTo ci k = some p)
      (hm : p.msg = .clientReply reply) (hs : reply.success = true)
      (hid : reply.requestId = pred64 (H.workload.clients ci).nextRequestId) :
      Ends H ci kind (.reply ci k) reply.result.ok (Workload.responseOf kind reply.result)

/-- What a reply does to the history: nothing, or it ends the operation of its client. -/
theorem onReply_cases (h : H.workload.Tracked) {ci k : Nat} {p : Packet M}
    (hp : H.replyTo ci k = some p) :
    (H.workload.onReply H.now ci p.msg).history = H.workload.history ∨
      ∃ x ok response, (H.workload.clients ci).waiting = true ∧
        H.workload.history.entries[(H.workload.clients ci).historyHandle]? = some x ∧
        (H.workload.onReply H.now ci p.msg).history =
          H.workload.history.recordReturn (H.workload.clients ci).historyHandle H.now ok response ∧
        H.Ends ci x.kind (.reply ci k) ok response := by
  cases hw : (H.workload.clients ci).waiting with
  | false => exact Or.inl (by simp [Workload.onReply, hw])
  | true =>
    obtain ⟨x, hx, -⟩ := h.pending ci hw
    cases hm : p.msg with
    | clientReply reply =>
      by_cases hid : reply.requestId = pred64 (H.workload.clients ci).nextRequestId
      · have hacc : H.workload.onReply H.now ci (.clientReply reply : Msg M.Blob) =
            H.workload.acceptReply H.now ci reply := by simp [Workload.onReply, hw, hid]
        rw [hacc, Workload.acceptReply]
        cases hs : reply.success with
        | false => exact Or.inr ⟨x, _, _, rfl, hx, rfl, .refused k p reply hp hm hs hid⟩
        | true =>
          simp only [Bool.not_true, Bool.false_eq_true, if_false, hx]
          exact Or.inr ⟨x, _, _, trivial, rfl, rfl, .answered k p reply hp hm hs hid⟩
      · exact Or.inl (by simp [Workload.onReply, hid])
    | _ => exact Or.inl (by simp [Workload.onReply])

/-- **An answered operation was answered before, or this event ends it.** -/
theorem exec_answered (h : H.workload.Tracked) {e : HarnessEvent} {i : Nat} {y : HistoryEntry}
    (hy : (H.exec e).workload.history.entries[i]? = some y) (hp : y.pending = false) :
    H.workload.history.entries[i]? = some y ∨ ∃ ci x ok response,
      (H.workload.clients ci).waiting = true ∧ (H.workload.clients ci).historyHandle = i ∧
      H.workload.history.entries[i]? = some x ∧ y = x.answered H.now ok response ∧
      H.Ends ci x.kind e ok response := by
  have hreturn : ∀ {w : Workload} {ci : Nat} {x : HistoryEntry} {ok : Bool} {response : Str},
      (H.workload.clients ci).waiting = true →
      H.workload.history.entries[(H.workload.clients ci).historyHandle]? = some x →
      w.history =
        H.workload.history.recordReturn (H.workload.clients ci).historyHandle H.now ok response →
      H.Ends ci x.kind e ok response → w.history.entries[i]? = some y →
      H.workload.history.entries[i]? = some y ∨ ∃ ci x ok response,
        (H.workload.clients ci).waiting = true ∧ (H.workload.clients ci).historyHandle = i ∧
        H.workload.history.entries[i]? = some x ∧ y = x.answered H.now ok response ∧
        H.Ends ci x.kind e ok response := by
    intro w ci x ok response hw hx hhist hends hy
    rw [hhist] at hy
    by_cases hi : (H.workload.clients ci).historyHandle = i
    · subst hi
      rw [History.recordReturn_self H.now ok response hx] at hy
      exact Or.inr ⟨ci, x, ok, response, hw, rfl, hx, (Option.some.inj hy).symm, hends⟩
    · rw [History.recordReturn_of_ne H.now ok response hi] at hy
      exact Or.inl hy
  cases e with
  | cluster e => exact Or.inl hy
  | issue ci kind key value expected =>
    have hs := Session.exec_stepped (s := H.session) h
      (.issue ci kind key value expected : SessionEvent M.Blob)
    have hret : H.session.returnCall (.issue ci kind key value expected :
      SessionEvent M.Blob) = none := rfl
    have hexec : (H.exec (.issue ci kind key value expected)).session =
      H.session.exec (.issue ci kind key value expected : SessionEvent M.Blob) :=
      H.exec_session _
    rw [← hexec, hret] at hs
    have hy' : (H.exec (.issue ci kind key value expected)).session.workload.history.entries[i]? =
      some y := hy
    generalize (H.exec (.issue ci kind key value expected)).session = s' at hs hy'
    cases hs with
    | still d => exact Or.inl hy'
    | invoked cj kind' key' val exp =>
      rcases Session.register_entry hy' with hy' | ⟨-, rfl⟩
      · exact Or.inl hy'
      · cases hp
  | reply ci k =>
    rw [exec] at hy
    split at hy
    · rename_i p hreply
      split at hy
      · rcases onReply_cases h hreply with hsame | ⟨x, ok, response, hw, hx, hhist, hends⟩
        · exact Or.inl (by rw [← hsame]; exact hy)
        · exact hreturn hw hx hhist hends hy
      · exact Or.inl hy
    · exact Or.inl hy
  | timeout ci =>
    rw [exec] at hy
    split at hy
    · unfold Workload.onTimeout at hy
      cases hw : (H.workload.clients ci).waiting with
      | false =>
        simp only [hw, Bool.not_false, if_true] at hy
        exact Or.inl hy
      | true =>
        obtain ⟨x, hx, -⟩ := h.pending ci hw
        simp only [hw, Bool.not_true, Bool.false_eq_true, if_false] at hy
        exact hreturn hw hx rfl .timeout hy
    · exact Or.inl hy
  | tick d => exact Or.inl hy

/-- **Every answered operation was answered at some moment of the run.** -/
theorem exists_answered (h : H.Kept) (hnone : H.workload.history.entries = [])
    {es : List HarnessEvent} {i : Nat} {y : HistoryEntry}
    (hy : (H.run es).workload.history.entries[i]? = some y) (hp : y.pending = false) :
    ∃ es' e, es' ++ [e] <+: es ∧ ∃ ci x ok response,
      ((H.run es').workload.clients ci).waiting = true ∧
      ((H.run es').workload.clients ci).historyHandle = i ∧
      (H.run es').workload.history.entries[i]? = some x ∧
      y = x.answered (H.run es').now ok response ∧ (H.run es').Ends ci x.kind e ok response := by
  induction es using List.reverseRecOn with
  | nil =>
    change H.workload.history.entries[i]? = some y at hy
    rw [hnone] at hy
    simp at hy
  | append_singleton es e ih =>
    rw [run_append] at hy
    rcases exec_answered ((h.run es).1.books.tracked) hy hp with hy | hends
    · obtain ⟨es', e', hpre, hrest⟩ := ih hy
      exact ⟨es', e', hpre.trans (List.prefix_append _ _), hrest⟩
    · exact ⟨es, e, List.prefix_rfl, hends⟩

theorem put_of_isPut {x : HistoryEntry} (h : x.command.isPut = true) : x.kind = .put := by
  unfold HistoryEntry.command at h
  cases hk : x.kind with
  | put => rfl
  | get =>
    rw [hk] at h
    cases h
  | cas =>
    rw [hk] at h
    cases h

/-- An entry as it was answered carries a definite answer only if a reply reported success. -/
theorem Ends.reply_of_certain {ci : Nat} {x : HistoryEntry} {e : HarnessEvent} {ok : Bool}
    {response : Str} {t : Nat} (h : H.Ends ci x.kind e ok response)
    (hc : (x.answered t ok response).keyOp.certain = true) :
    ∃ k p reply, H.replyTo ci k = some p ∧ p.msg = .clientReply reply ∧ reply.success = true ∧
      reply.requestId = pred64 (H.workload.clients ci).nextRequestId ∧ ok = reply.result.ok ∧
      response = Workload.responseOf x.kind reply.result := by
  cases h with
  | timeout => simp [KeyOp.certain, HistoryEntry.keyOp, HistoryEntry.answered] at hc
  | refused => simp [KeyOp.certain, HistoryEntry.keyOp, HistoryEntry.answered] at hc
  | answered k p reply hp hm hs hid => exact ⟨k, p, reply, hp, hm, hs, hid, rfl, rfl⟩

theorem replyTo_eq_some {ci k : Nat} {p : Packet M} (h : H.replyTo ci k = some p) :
    p ∈ H.cluster.net ∧ p.dst = kClientIdBase + ci := by
  unfold replyTo at h
  obtain ⟨hp, hd⟩ := Option.filter_eq_some_iff.mp h
  exact ⟨List.mem_of_getElem? hp, by simpa using hd⟩

section Answers

variable {mem : Membership} {cfg : NodeId → RaftConfig} {wcfg : WorkloadConfig}
  {nodes : List NodeId} {es : List HarnessEvent}

/-- **A definite answer is the result of the operation's own entry**, which had been applied when
the answer was recorded. -/
theorem answer_recorded (hown : ∀ e ∈ es, e.ownClients = true)
    (hs : ∀ c, c <+: (init M mem cfg wcfg nodes).clusterEvents es →
      ((Cluster.init M mem cfg).run c).Sized)
    (hkeep : (Cluster.init M mem cfg).Along Cluster.PendingKept
      ((init M mem cfg wcfg nodes).clusterEvents es))
    (hcrash : (Cluster.init M mem cfg).Along Cluster.CrashSpares
      ((init M mem cfg wcfg nodes).clusterEvents es)) {i : Nat} {y : HistoryEntry}
    (hy : ((init M mem cfg wcfg nodes).run es).workload.history.entries[i]? = some y)
    (hc : y.keyOp.certain = true) :
    ∃ es', es' <+: es ∧ ((init M mem cfg wcfg nodes).run es').now = y.ret ∧ ∃ n cb e t kv,
      (n, cb, e) ∈ ((init M mem cfg wcfg nodes).run es').cluster.placings ∧
      cb.origin = some (y.clientId, y.request) ∧
      (t, n, .applied e.index e kv) ∈ ((init M mem cfg wcfg nodes).run es').cluster.trace ∧
      y.ok = (kv.apply e.cmd).2.ok ∧
      y.response = Workload.responseOf y.kind (kv.apply e.cmd).2 := by
  have hkept := kept_init M mem cfg wcfg nodes
  obtain ⟨es', ev, hpre, ci, x, ok, response, hw, rfl, hx, rfl, hends⟩ :=
    exists_answered hkept rfl hy (certain_pending hc)
  obtain ⟨k, p, reply, hp, hm, hsucc, hid, rfl, rfl⟩ := hends.reply_of_certain hc
  have hle : es' <+: es := (List.prefix_append _ _).trans hpre
  have hcle := (init M mem cfg wcfg nodes).clusterEvents_isPre hle
  have hC := Cluster.settled_init M mem cfg
  obtain ⟨hpin, hdst⟩ := replyTo_eq_some hp
  rw [run_cluster] at hpin
  -- the reply carries what a callback was called with
  obtain hno | ⟨cb, cr, hans, ho, -, hrid⟩ := Cluster.reply_cases hC rfl hpin hm
  · rw [hsucc] at hno
    cases hno
  obtain ⟨e, hpl, hres⟩ := Cluster.answer_cases hC (Cluster.durable_init M mem cfg) rfl
    (fun n _ => by rw [Cluster.init_node]; rfl) (fun c h => hs c (h.trans hcle))
    (hkeep.isPre hcle) hans
  have hpl' : (p.src, cb, e) ∈ ((init M mem cfg wcfg nodes).run es').cluster.placings := by
    rw [run_cluster]
    exact hpl
  -- and that is the callback of the client's own request
  obtain ⟨j, x', hx', ho', hcmd⟩ := placed_recorded (fun e he => hown e (hle.subset he)) hpl'
  obtain ⟨hd, hcr⟩ := Prod.mk.inj (Option.some.inj (ho.symm.trans ho'))
  have hkept' := (hkept.run es').1
  have hxid : x.clientId = kClientIdBase + ci := hkept'.books.owner ci x hw hx
  have hlast : x.requestId + 1 = _ := hkept'.numbered.last ci x hw hx
  have hrq : x'.requestId = x.requestId := by
    have hx'r : x'.requestId = reply.requestId := by rw [hrid, hcr]; rfl
    rw [hx'r, hid]
    change pred64 (((init M mem cfg wcfg nodes).run es').session.workload.clients ci).nextRequestId
      = _
    rw [← hlast]
    rfl
  have hji := hkept'.numbered.unique j _ x' x hx' hx (by rw [← hd, hdst, hxid]) hrq
  subst hji
  obtain rfl : x' = x := Option.some.inj (hx'.symm.trans hx)
  refine ⟨es', hle, rfl, p.src, cb, e, ?_⟩
  rcases hres with ⟨t, kv, happ, hr⟩ | ⟨hr, c, j, hcpre, hfind⟩
  · refine ⟨t, kv, hpl', ho', ?_, congrArg CmdResult.ok hr, ?_⟩
    · rw [run_cluster]
      exact happ
    · change Workload.responseOf x'.kind reply.result = _
      rw [hr]
      rfl
  · -- the answer of a crash is definite for no operation that waits
    have hspare := hcrash.at (hcpre.trans hcle) (j, cb) (OrdMap.find?_eq_some_iff.mp hfind)
    rw [ho', Option.all_some] at hspare
    rw [hr, (certain_of_crash x' _).mpr (put_of_isPut hspare)] at hc
    cases hc

end Answers

end Harness

end SimKV
