/-
# What clients record of a crash

A client whose request was in a leader's log when the leader crashed is told
"node_crashed": the command may or may not be committed later.  The answer passes
through `crash`, the reply of `handle_client_request`, the mapping of `on_reply` and
the filters of the checker, and the four do not agree on how an unknown outcome is
spelled.  `on_reply` copies the error text for a Put only.  For a Get it records the
empty value, for a Cas a mismatch, and the checker takes both for definite answers
(`crash_reply_uncertain_iff`).

That the entry recorded for an operation stays as it was recorded, whatever happens
afterwards, needs one invariant of the clients: an outstanding operation is pending
in the history and belongs to one client only (`Workload.Tracked`).
-/
import SimKV.Harness.Workload
import SimKV.Checker.OwnChecker
import SimKV.Raft.Formats

namespace SimKV

/-! ## What a crash sends -/

namespace Node

variable {M : Medium}

/-- The reply that `crash` makes a callback send. -/
def IsCrashReply (m : Msg M.Blob) : Prop :=
  ∃ cid rid hint, m = .clientReply ⟨cid, rid, true, nodeCrashed, hint⟩

theorem invokeAll_crash_sends (ps : List (Nat × Callback)) (s : Node M) {d : NodeId}
    {m : Msg M.Blob}
    (h : .send d m ∈ (ps.foldl (fun s p => s.invoke p.2 nodeCrashed) s).out) :
    .send d m ∈ s.out ∨ IsCrashReply m := by
  induction ps generalizing s with
  | nil => exact Or.inl h
  | cons p ps ih =>
    rcases ih _ h with h | h
    · unfold invoke at h
      cases ho : p.2.origin with
      | none =>
        simp only [ho, emit, List.mem_append, List.mem_singleton, reduceCtorEq, or_false] at h
        exact Or.inl h
      | some q =>
        simp only [ho, send, emit, List.mem_append, List.mem_singleton, reduceCtorEq,
          or_false, Effect.send.injEq] at h
        rcases h with h | ⟨-, rfl⟩
        · exact Or.inl h
        · exact Or.inr ⟨_, _, _, rfl⟩
    · exact Or.inr h

theorem dropClients_sends (s : Node M) {d : NodeId} {m : Msg M.Blob}
    (h : .send d m ∈ s.dropClients.out) : .send d m ∈ s.out ∨ IsCrashReply m := by
  unfold dropClients at h
  simp only [List.mem_append, List.mem_map, reduceCtorEq, and_false, exists_false, or_false] at h
  exact invokeAll_crash_sends _ s h

/-- Everything a crashing node sends is such a reply. -/
theorem crash_sends (s : Node M) {d : NodeId} {m : Msg M.Blob}
    (h : .send d m ∈ s.crash.state.out) : .send d m ∈ s.out ∨ IsCrashReply m := by
  unfold crash at h
  simp only at h
  split at h
  · exact s.stop.dropClients_sends h
  · split at h
    · exact Or.inl h
    · rename_i kv _
      exact ({ s.stop with kv := kv } : Node M).dropClients_sends h

end Node

namespace Cluster

variable {M : Medium}

/-- A packet that a crash put into the network is a reply to a waiting client. -/
theorem crash_packet {C : Cluster M} (hC : C.Settled) {n : NodeId} {k : Nat} {p : Packet M}
    (h : C.SentBy (.crash n) k p) : Node.IsCrashReply p.msg := by
  rcases h.cases with ⟨inp, hinp, -, hsend⟩ | ⟨cr, hcr, he⟩
  · simp only [input, Option.some.injEq, Prod.mk.injEq] at hinp
    obtain ⟨rfl, rfl⟩ := hinp
    simp only [Node.handle] at hsend
    split at hsend
    · rcases (C.node p.src).crash_sends hsend with h | h
      · rw [(hC p.src).1] at h
        exact absurd h List.not_mem_nil
      · exact h
    · rw [(hC p.src).1] at hsend
      exact absurd hsend List.not_mem_nil
  · exact absurd he (by simp)

end Cluster

/-! ## Recorded entries stay -/

namespace History

theorem recordReturn_self {h : History} {i : Nat} {e : HistoryEntry} (t : Nat) (ok : Bool)
    (r : Str) (he : h.entries[i]? = some e) : (h.recordReturn i t ok r).entries[i]? =
      some (e.answered t ok r) := by
  simp [recordReturn, he]

theorem recordReturn_of_ne {h : History} {i j : Nat} (t : Nat) (ok : Bool) (r : Str)
    (hij : i ≠ j) : (h.recordReturn i t ok r).entries[j]? = h.entries[j]? := by
  simp [recordReturn, hij]

end History

namespace Workload

/-- An outstanding operation is pending in the history, and no other client's. -/
structure Tracked (w : Workload) : Prop where
  pending : ∀ ci, (w.clients ci).waiting = true →
    ∃ e, w.history.entries[(w.clients ci).historyHandle]? = some e ∧ e.pending = true
  unique : ∀ ci cj, (w.clients ci).waiting = true → (w.clients cj).waiting = true →
    (w.clients ci).historyHandle = (w.clients cj).historyHandle → ci = cj

/-- `w'` has every completed entry of `w`. -/
def Keeps (w w' : Workload) : Prop :=
  ∀ (i : Nat) (e : HistoryEntry), w.history.entries[i]? = some e → e.pending = false →
    w'.history.entries[i]? = some e

variable {w : Workload}

theorem tracked_init (cfg : WorkloadConfig) (nodes : List NodeId) : (init cfg nodes).Tracked :=
  ⟨fun _ h => absurd h (by simp [init]), fun _ _ h => absurd h (by simp [init])⟩

theorem Tracked.complete (h : w.Tracked) {ci : Nat} (hw : (w.clients ci).waiting = true)
    (now : Nat) (ok : Bool) (r : Str) (leader : NodeId) :
    (w.complete now ci ok r leader).Tracked ∧ w.Keeps (w.complete now ci ok r leader) := by
  have hclient : ∀ cj, ((w.complete now ci ok r leader).clients cj).waiting = true →
      cj ≠ ci ∧ (w.complete now ci ok r leader).clients cj = w.clients cj := by
    intro cj hcj
    by_cases hij : cj = ci
    · subst hij
      simp [Workload.complete] at hcj
    · exact ⟨hij, Function.update_of_ne hij _ _⟩
  refine ⟨⟨fun cj hcj => ?_, fun cj ck hcj hck heq => ?_⟩, fun i e he hp => ?_⟩
  · obtain ⟨hne, heq⟩ := hclient cj hcj
    rw [heq] at hcj ⊢
    obtain ⟨e, he, hp⟩ := h.pending cj hcj
    refine ⟨e, ?_, hp⟩
    have hhandle : (w.clients ci).historyHandle ≠ (w.clients cj).historyHandle :=
      fun hh => hne (h.unique ci cj hw hcj hh).symm
    exact (History.recordReturn_of_ne now ok r hhandle).trans he
  · obtain ⟨-, hj⟩ := hclient cj hcj
    obtain ⟨-, hk⟩ := hclient ck hck
    rw [hj] at hcj heq
    rw [hk] at hck heq
    exact h.unique cj ck hcj hck heq
  · obtain ⟨e', he', hp'⟩ := h.pending ci hw
    have hne : (w.clients ci).historyHandle ≠ i := by
      rintro rfl
      rw [he', Option.some.injEq] at he
      rw [he, hp] at hp'
      exact absurd hp' (by decide)
    exact (History.recordReturn_of_ne now ok r hne).trans he

theorem register_client_of_ne {ci cj : Nat} (h : cj ≠ ci) (now : Nat) (kind : OpKind)
    (key val exp : Str) : (w.register now ci kind key val exp).clients cj = w.clients cj :=
  Function.update_of_ne h _ _

theorem register_handle (now ci : Nat) (kind : OpKind) (key val exp : Str) :
    ((w.register now ci kind key val exp).clients ci).historyHandle =
      w.history.entries.length := by
  simp [register, History.recordInvoke]

theorem Tracked.register (h : w.Tracked) (now ci : Nat) (kind : OpKind) (key val exp : Str) :
    (w.register now ci kind key val exp).Tracked ∧
      w.Keeps (w.register now ci kind key val exp) := by
  -- every handle in use is that of an entry already there
  have hlt : ∀ cj, (w.clients cj).waiting = true →
      (w.clients cj).historyHandle < w.history.entries.length := by
    intro cj hcj
    obtain ⟨e, he, -⟩ := h.pending cj hcj
    exact (List.getElem?_eq_some_iff.mp he).1
  have hold : ∀ cj, cj ≠ ci → ((w.register now ci kind key val exp).clients cj).waiting = true →
      ((w.register now ci kind key val exp).clients ci).historyHandle ≠
        ((w.register now ci kind key val exp).clients cj).historyHandle := by
    intro cj hj hcj heq
    rw [register_client_of_ne hj] at hcj heq
    rw [register_handle] at heq
    have := hlt cj hcj
    omega
  have hkeep : ∀ (i : Nat) (e : HistoryEntry), w.history.entries[i]? = some e →
      (w.register now ci kind key val exp).history.entries[i]? = some e := by
    intro i e he
    exact (List.getElem?_append_left (List.getElem?_eq_some_iff.mp he).1).trans he
  refine ⟨⟨fun cj hcj => ?_, fun cj ck hcj hck heq => ?_⟩, fun i e he _ => hkeep i e he⟩
  · by_cases hj : cj = ci
    · subst hj
      rw [register_handle]
      exact ⟨_, List.getElem?_concat_length, rfl⟩
    · rw [register_client_of_ne hj] at hcj ⊢
      obtain ⟨e, he, hp⟩ := h.pending cj hcj
      exact ⟨e, hkeep _ e he, hp⟩
  · by_cases hj : cj = ci
    · by_cases hk : ck = ci
      · rw [hj, hk]
      · rw [hj] at heq
        exact absurd heq (hold ck hk hck)
    · by_cases hk : ck = ci
      · rw [hk] at heq
        exact absurd heq.symm (hold cj hj hcj)
      · rw [register_client_of_ne hj] at hcj heq
        rw [register_client_of_ne hk] at hck heq
        exact h.unique cj ck hcj hck heq

theorem Tracked.issueOp (h : w.Tracked) (now ci : Nat) (kind : OpKind) (key value expected : Str) :
    (w.issueOp now ci kind key value expected).1.Tracked ∧
      w.Keeps (w.issueOp now ci kind key value expected).1 := by
  unfold Workload.issueOp
  split
  · exact ⟨h, fun _ _ he _ => he⟩
  · split
    · exact ⟨h, fun _ _ he _ => he⟩
    · exact h.register _ _ _ _ _ _

theorem Tracked.onReply {B : Type} (h : w.Tracked) (now ci : Nat) (m : Msg B) :
    (w.onReply now ci m).Tracked ∧ w.Keeps (w.onReply now ci m) := by
  have hstay : w.Tracked ∧ w.Keeps w := ⟨h, fun _ _ he _ => he⟩
  unfold Workload.onReply
  simp only
  split
  · exact hstay
  · rename_i hw
    have hw : (w.clients ci).waiting = true := by simpa using hw
    split
    · split
      · exact hstay
      · unfold acceptReply
        simp only
        split
        · exact h.complete hw _ _ _ _
        · split
          · exact hstay
          · exact h.complete hw _ _ _ _
    · exact hstay

theorem Tracked.onTimeout (h : w.Tracked) (now ci : Nat) :
    (w.onTimeout now ci).Tracked ∧ w.Keeps (w.onTimeout now ci) := by
  unfold Workload.onTimeout
  simp only
  split
  · exact ⟨h, fun _ _ he _ => he⟩
  · rename_i hw
    exact h.complete (by simpa using hw) _ _ _ _

/-- An awaited reply that reports success is recorded. -/
theorem onReply_entry {B : Type} {ci : Nat} {reply : ClientReply} {e : HistoryEntry} (now : Nat)
    (hw : (w.clients ci).waiting = true)
    (he : w.history.entries[(w.clients ci).historyHandle]? = some e)
    (hid : reply.requestId = pred64 (w.clients ci).nextRequestId) (hs : reply.success = true) :
    (w.onReply now ci (.clientReply reply : Msg B)).history.entries[(w.clients ci).historyHandle]? =
      some (e.answered now reply.result.ok (responseOf e.kind reply.result)) := by
  simp only [Workload.onReply, hw, Bool.not_true, Bool.false_eq_true, if_false, hid, ne_eq,
    not_true_eq_false, acceptReply, hs, he]
  exact History.recordReturn_self now _ _ he

end Workload

namespace Harness

variable {M : Medium}

/-- The clients' bookkeeping is in order, and no step of the cluster is in progress. -/
structure Ok (H : Harness M) : Prop where
  tracked : H.workload.Tracked
  settled : H.cluster.Settled

theorem ok_init (M : Medium) (mem : Membership) (cfg : NodeId → RaftConfig)
    (wcfg : WorkloadConfig) (nodes : List NodeId) : (init M mem cfg wcfg nodes).Ok :=
  ⟨Workload.tracked_init wcfg nodes, Cluster.settled_init M mem cfg⟩

/-- What every event keeps: the bookkeeping, the completed entries and the packets. -/
structure Grows (H H' : Harness M) : Prop where
  ok : H'.Ok
  keeps : H.workload.Keeps H'.workload
  net : ∀ (k : Nat) (p : Packet M), H.cluster.net[k]? = some p → H'.cluster.net[k]? = some p

variable {H : Harness M}

theorem Ok.exec (h : H.Ok) (e : HarnessEvent) : H.Grows (H.exec e) := by
  have hstay : H.Grows H := ⟨h, fun _ _ he _ => he, fun _ _ hp => hp⟩
  cases e with
  | cluster e =>
    exact ⟨⟨h.tracked, Cluster.settled_exec h.settled e⟩, hstay.keeps,
      fun k p hp => Cluster.exec_net_getElem? e hp⟩
  | issue ci kind key value expected =>
    simp only [Harness.exec]
    split
    · have hi := h.tracked.issueOp H.now ci kind key value expected
      split
      · rename_i w dst cr heq
        rw [heq] at hi
        let send := Event.clientSend (kClientIdBase + ci) dst cr
        exact ⟨⟨hi.1, Cluster.settled_exec h.settled send⟩, hi.2,
          fun k p hp => Cluster.exec_net_getElem? send hp⟩
      · rename_i w heq
        rw [heq] at hi
        exact ⟨⟨hi.1, h.settled⟩, hi.2, hstay.net⟩
    · exact hstay
  | reply ci k =>
    simp only [Harness.exec]
    split
    · split
      · rename_i p _ _
        have hr := h.tracked.onReply H.now ci p.msg
        exact ⟨⟨hr.1, h.settled⟩, hr.2, hstay.net⟩
      · exact hstay
    · exact hstay
  | timeout ci =>
    simp only [Harness.exec]
    split
    · have ht := h.tracked.onTimeout H.now ci
      exact ⟨⟨ht.1, h.settled⟩, ht.2, hstay.net⟩
    · exact hstay
  | tick d => exact ⟨⟨h.tracked, h.settled⟩, hstay.keeps, hstay.net⟩

theorem Ok.run (h : H.Ok) (es : List HarnessEvent) : H.Grows (H.run es) := by
  induction es generalizing H with
  | nil => exact ⟨h, fun _ _ he _ => he, fun _ _ hp => hp⟩
  | cons e es ih =>
    have h1 := h.exec e
    have h2 := ih h1.ok
    exact ⟨h2.ok, fun i x hx hp => h2.keeps i x (h1.keeps i x hx hp) hp,
      fun k p hp => h2.net k p (h1.net k p hp)⟩

/-! ## A reply to a crash -/

/-- Only for a Put does `on_reply` record the outcome as unknown. -/
theorem certain_of_crash (e : HistoryEntry) (t : Nat) :
    (e.answered t Node.nodeCrashed.ok
      (Workload.responseOf e.kind Node.nodeCrashed)).keyOp.certain = false ↔ e.kind = .put := by
  cases hk : e.kind with
  | put =>
    simp [KeyOp.certain, HistoryEntry.keyOp, HistoryEntry.answered, Workload.responseOf,
      Node.nodeCrashed]
  | get =>
    simp only [KeyOp.certain, HistoryEntry.keyOp, HistoryEntry.answered, Workload.responseOf,
      Node.nodeCrashed, reduceCtorEq, iff_false]
    decide
  | cas =>
    simp only [KeyOp.certain, HistoryEntry.keyOp, HistoryEntry.answered, Workload.responseOf,
      Node.nodeCrashed, reduceCtorEq, iff_false]
    decide

/-- **When a crash is recorded as an unknown outcome**: for Puts, and for no other operation.  The
crash of node `n` put packet `k` into the network; later it reaches client `ci`, which is waiting
for it; what is recorded stays recorded. -/
theorem crash_reply_uncertain_iff (M : Medium) (mem : Membership) (cfg : NodeId → RaftConfig)
    (wcfg : WorkloadConfig) (nodes : List NodeId) (es₁ es₂ es₃ : List HarnessEvent) (n : NodeId)
    (ci k : Nat) (reply : ClientReply) (p : Packet M) (H₁ H₂ : Harness M)
    (h₁ : H₁ = (init M mem cfg wcfg nodes).run es₁) (hk : H₁.cluster.net.length ≤ k)
    (hp : (H₁.cluster.exec (.crash n)).net[k]? = some p)
    (h₂ : H₂ = (H₁.exec (.cluster (.crash n))).run es₂)
    (hmsg : p.msg = .clientReply reply) (hdst : p.dst = kClientIdBase + ci)
    (hci : ci < H₂.workload.cfg.numClients) (hw : (H₂.workload.clients ci).waiting = true)
    (hid : reply.requestId = pred64 (H₂.workload.clients ci).nextRequestId) :
    ∃ e, ((H₂.exec (.reply ci k)).run es₃).workload.history.entries[
        (H₂.workload.clients ci).historyHandle]? = some e ∧ e.pending = false ∧
      (e.keyOp.certain = false ↔ e.kind = .put) := by
  have ok₁ : H₁.Ok := by
    rw [h₁]
    exact ((ok_init M mem cfg wcfg nodes).run es₁).ok
  have ok₁' := ok₁.exec (.cluster (.crash n))
  have grows₂ := ok₁'.ok.run es₂
  rw [← h₂] at grows₂
  have ok₃ := grows₂.ok.exec (.reply ci k)
  -- the reply is one of those a crash sends
  obtain ⟨cid, rid, hint, hcr⟩ := Cluster.crash_packet ok₁.settled ⟨hk, hp⟩
  rw [hmsg, Msg.clientReply.injEq] at hcr
  have hsucc : reply.success = true := by rw [hcr]
  have hres : reply.result = Node.nodeCrashed := by rw [hcr]
  have hexec : H₂.exec (.reply ci k) =
      { H₂ with workload := H₂.workload.onReply H₂.now ci (.clientReply reply : Msg M.Blob) } := by
    have hreply : H₂.replyTo ci k = some p := by
      unfold replyTo
      rw [grows₂.net k p hp]
      simp [Option.filter, hdst]
    simp only [Harness.exec, hreply, if_pos hci, hmsg]
  obtain ⟨e, he, -⟩ := grows₂.ok.tracked.pending ci hw
  have hrec := Workload.onReply_entry (B := M.Blob) H₂.now hw he hid hsucc
  rw [hres] at hrec
  refine ⟨e.answered H₂.now Node.nodeCrashed.ok (Workload.responseOf e.kind Node.nodeCrashed),
    (ok₃.ok.run es₃).keeps _ _ ?_ rfl, rfl, certain_of_crash e H₂.now⟩
  rw [hexec]
  exact hrec

/-- Three nodes and one client. -/
def oneClient : Harness Medium.bytes :=
  init Medium.bytes (.ofList [1, 2, 3]) (fun _ => {}) { numClients := 1 } [1, 2, 3]

/-- Node 1 is elected and takes the client's request into its log. -/
def pendingRun (kind : OpKind) : List HarnessEvent :=
  [.cluster (.electionTimer 1 1), .cluster (.deliver 0), .cluster (.deliver 2),
    .issue 0 kind (Str.lit "k") (Str.lit "v") (Str.lit ""), .cluster (.deliver 5)]

theorem crash_reply_uncertain_iff_put :
    ∃ e, ((((oneClient.run (pendingRun .put)).exec (.cluster (.crash 1))).exec
        (.reply 0 8)).run []).workload.history.entries[0]? = some e ∧ e.pending = false ∧
      (e.keyOp.certain = false ↔ e.kind = .put) := by
  obtain ⟨p, hp, reply, hmsg, hdst, hid⟩ : ∃ p : Packet Medium.bytes,
      ((oneClient.run (pendingRun .put)).cluster.exec (.crash 1)).net[8]? = some p ∧
      ∃ reply, p.msg = .clientReply reply ∧ p.dst = kClientIdBase + 0 ∧ reply.requestId = 0 :=
    ⟨_, rfl, _, rfl, rfl, rfl⟩
  exact crash_reply_uncertain_iff Medium.bytes (.ofList [1, 2, 3]) (fun _ => {})
    { numClients := 1 } [1, 2, 3] (pendingRun .put) [] [] 1 0 8 reply p _ _ rfl
    (by decide +kernel) hp rfl hmsg hdst (by decide +kernel) (by decide +kernel) hid

/-- **A crash recorded as a value that was read.**  The client's Get is in the log of node 1 when
it crashes; the client records that it read the empty value, and the checker takes it for
certain. -/
theorem crashed_get_certain :
    ((((oneClient.run (pendingRun .get)).exec (.cluster (.crash 1))).exec
        (.reply 0 8)).workload.history.entries.map fun e =>
          (e.kind, e.response, e.ok, e.keyOp.certain)) =
      [(.get, Str.lit "", false, true)] := by
  decide +kernel

end Harness

end SimKV
