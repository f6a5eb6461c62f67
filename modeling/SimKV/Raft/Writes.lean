/-
# The stores change by the calls among the effects

A node touches its three stores by calls, and every call is an effect (`storeCalls`).
Conversely the stores after a move are the stores before it with exactly the calls
among the effects of the move made (`Move.writes`): nothing is written behind the
back of the effects.  A process that dies inside a step therefore leaves what some
first part of the calls made of the stores, and what is flushed at the moment a
message goes out can be read off the effects before it.

Inside one move the calls come first: no message is sent before the last store call
of its move (`StoresFirst`).  For a whole step this is not so, a leader that
replicates and then compacts its log rewrites its stores after it has sent.
-/
import SimKV.Raft.Formats

namespace SimKV

variable {M : Medium}

/-! ## Stores and their calls -/

namespace DurableStore

variable {β : Type}

theorem calls_append (s : DurableStore β) (cs cs' : List (StoreCall β)) :
    s.calls (cs ++ cs') = (s.calls cs).calls cs' := List.foldl_append

/-- A rewrite leaves exactly the new contents, whatever was there. -/
theorem calls_rewrite (s : DurableStore β) (bs : List β) :
    s.calls [.truncateTo 0, .append bs, .flush] = holding bs := by
  simp [calls, call]

end DurableStore

/-- A log is never written as nothing. -/
def Medium.WritesLogs (M : Medium) : Prop := ∀ l, M.encodeLog l ≠ []

theorem Medium.bytes_writesLogs : Medium.bytes.WritesLogs := Medium.logBytes_ne_nil

/-- The calls on one of the stores. -/
def callsOn {β : Type} (which : StoreId) (cs : List (StoreId × StoreCall β)) :
    List (StoreCall β) :=
  cs.filterMap fun p => if p.1 = which then some p.2 else none

@[simp] theorem callsOn_append {β : Type} (which : StoreId)
    (cs cs' : List (StoreId × StoreCall β)) :
    callsOn which (cs ++ cs') = callsOn which cs ++ callsOn which cs' := List.filterMap_append

def Effect.isSend : Effect M → Bool
  | .send _ _ => true
  | _ => false

theorem Quiet.not_send {es : List (Effect M)} (h : Quiet es) : ∀ e ∈ es, e.isSend = false := by
  intro e he
  cases e with
  | send d m => exact nomatch h _ he
  | _ => rfl

/-- No message is sent before the last store call. -/
def StoresFirst (es : List (Effect M)) : Prop :=
  ∃ es₁ es₂, es = es₁ ++ es₂ ∧ (∀ e ∈ es₁, e.isSend = false) ∧ Unstored es₂

namespace Node

def storeOf (s : Node M) : StoreId → DurableStore M.Cell
  | .metaStore => s.metaStore
  | .logStore => s.logStore
  | .snapshotStore => s.snapshotStore

/-- From `s` to `s'` exactly the effects `es` happened, and every store is what the calls among
them made of it; a log store that was written is not empty. -/
structure Wrote (s : Node M) (es : List (Effect M)) (s' : Node M) : Prop where
  out : s'.out = s.out ++ es
  store : ∀ which, s'.storeOf which = (s.storeOf which).calls (callsOn which (storeCalls es))
  written : callsOn .logStore (storeCalls es) ≠ [] → s'.logStore.durableSize ≠ 0

/-- From `s` to `s'` no store was called. -/
def Tells (s s' : Node M) : Prop := ∃ es, Unstored es ∧ s.Wrote es s'

section Wrote

variable {s s' s'' : Node M} {es es' : List (Effect M)}

theorem Wrote.trans (h : s.Wrote es s') (h' : s'.Wrote es' s'') : s.Wrote (es ++ es') s'' where
  out := by rw [h'.out, h.out, List.append_assoc]
  store which := by
    rw [h'.store, h.store, storeCalls_append, callsOn_append, DurableStore.calls_append]
  written hne := by
    by_cases hes' : callsOn .logStore (storeCalls es') = []
    · have hkeep : s''.logStore = s'.logStore := by
        have hst := h'.store .logStore
        rwa [hes'] at hst
      rw [hkeep]
      rw [storeCalls_append, callsOn_append, hes', List.append_nil] at hne
      exact h.written hne
    · exact h'.written hes'

/-- Effects without store calls, on a state with the same stores. -/
theorem Wrote.of_unstored (hes : Unstored es) (hout : s'.out = s.out ++ es)
    (hst : s'.storeOf = s.storeOf) : s.Wrote es s' where
  out := hout
  store which := by rw [hes, hst]; rfl
  written hne := by
    rw [hes] at hne
    exact absurd rfl hne

/-- One more effect that is not a store call. -/
theorem Wrote.emit (h : s.Wrote es s') {e : Effect M} (he : e.storeCall? = none) :
    s.Wrote (es ++ [e]) (s'.emit e) :=
  h.trans (.of_unstored (Unstored.singleton he) rfl (funext fun which => by cases which <;> rfl))

theorem Tells.of_unstored (hes : Unstored es) (hout : s'.out = s.out ++ es)
    (hst : s'.storeOf = s.storeOf) : s.Tells s' := ⟨es, hes, .of_unstored hes hout hst⟩

/-- The rest of the state does not matter. -/
theorem Tells.of_eq (hout : s'.out = s.out) (hst : s'.storeOf = s.storeOf) : s.Tells s' :=
  ⟨[], rfl, .of_unstored rfl (hout.trans (List.append_nil _).symm) hst⟩

theorem Tells.refl (s : Node M) : s.Tells s := .of_eq rfl rfl

theorem Tells.trans (h : s.Tells s') (h' : s'.Tells s'') : s.Tells s'' := by
  obtain ⟨es, hes, hw⟩ := h
  obtain ⟨es', hes', hw'⟩ := h'
  exact ⟨es ++ es', hes.append hes', hw.trans hw'⟩

theorem Tells.emit (h : s.Tells s') {e : Effect M} (he : e.storeCall? = none) :
    s.Tells (s'.emit e) := by
  obtain ⟨es, hes, hw⟩ := h
  exact ⟨es ++ [e], hes.append (Unstored.singleton he), hw.emit he⟩

theorem Tells.writes (h : s.Tells s') : ∃ es, s.Wrote es s' ∧ StoresFirst es := by
  obtain ⟨es, hes, hw⟩ := h
  exact ⟨es, hw, [], es, rfl, by simp, hes⟩

/-- Quiet effects send nothing. -/
theorem Wrote.quietly (h : s.Wrote es s') (hq : Quiet es) :
    ∃ es, s.Wrote es s' ∧ StoresFirst es :=
  ⟨es, h, es, [], (List.append_nil _).symm, hq.not_send, rfl⟩

/-- Quiet effects and one that is not a store call. -/
theorem Wrote.quietly_emit (h : s.Wrote es s') (hq : Quiet es) {e : Effect M}
    (he : e.storeCall? = none) : ∃ es, s.Wrote es (s'.emit e) ∧ StoresFirst es :=
  ⟨es ++ [e], h.emit he, es, [e], rfl, hq.not_send, Unstored.singleton he⟩

variable (hM : M.WritesLogs)
include hM

/-- The two stores that `persist` rewrites, and the third as given. -/
theorem Wrote.rewritten {p : Node M} (cs : List (Effect M))
    (hcs : callsOn .metaStore (storeCalls cs) = [] ∧ callsOn .logStore (storeCalls cs) = [])
    (hes : storeCalls es = storeCalls (cs ++ p.persistCalls))
    (ht : s'.currentTerm = p.currentTerm) (hv : s'.votedFor = p.votedFor) (hlog : s'.log = p.log)
    (hout : s'.out = s.out)
    (hs : s'.snapshotStore = s.snapshotStore.calls (callsOn .snapshotStore (storeCalls cs))) :
    s.Wrote es (s'.persisted es) where
  out := congrArg (· ++ es) hout
  store which := by
    rw [hes, storeCalls_append, callsOn_append]
    cases which
    · rw [hcs.1]
      change DurableStore.holding (M.encodeMeta ⟨s'.currentTerm, s'.votedFor⟩) = _
      rw [ht, hv]
      exact (DurableStore.calls_rewrite _ _).symm
    · rw [hcs.2]
      change DurableStore.holding (M.encodeLog s'.log) = _
      rw [hlog]
      exact (DurableStore.calls_rewrite _ _).symm
    · rw [DurableStore.calls_append]
      exact hs
  written _ := Mirror.holding_size (hM _)

/-- `persist`, with what else the step does at the same time. -/
theorem Wrote.persisted {p : Node M} (hes : p.Persists es)
    (ht : s'.currentTerm = p.currentTerm) (hv : s'.votedFor = p.votedFor) (hlog : s'.log = p.log)
    (hout : s'.out = s.out) (hs : s'.snapshotStore = s.snapshotStore) :
    s.Wrote es (s'.persisted es) :=
  .rewritten hM [] ⟨rfl, rfl⟩ hes ht hv hlog hout hs

/-- `save_snapshot` and `persist`. -/
theorem Wrote.saved {p : Node M} (hes : p.Saves es)
    (ht : s'.currentTerm = p.currentTerm) (hv : s'.votedFor = p.votedFor) (hlog : s'.log = p.log)
    (hout : s'.out = s.out) (hs : s'.snapshotStore = .holding (M.encodeSnap
      ⟨p.snapLastIndex, p.snapLastTerm, p.snapData⟩)) :
    s.Wrote es (s'.persisted es) :=
  .rewritten hM p.snapshotCalls ⟨rfl, rfl⟩ hes ht hv hlog hout
    (hs.trans (DurableStore.calls_rewrite _ _).symm)

end Wrote

/-! ## Effects without store calls -/

theorem invoke_tells (s : Node M) (cb : Callback) (r : CmdResult) : s.Tells (s.invoke cb r) := by
  unfold invoke
  cases cb.origin with
  | none => exact (Tells.refl s).emit rfl
  | some p => exact ((Tells.refl s).emit rfl).emit rfl

theorem invokeAll_tells (ps : List (Nat × Callback)) (r : CmdResult) (s : Node M) :
    s.Tells (ps.foldl (fun s p => s.invoke p.2 r) s) := by
  induction ps generalizing s with
  | nil => exact Tells.refl s
  | cons p ps ih => exact (s.invoke_tells p.2 r).trans (ih _)

theorem answer_tells (s : Node M) (r : CmdResult) : s.Tells (s.answer r) := by
  unfold answer
  split
  · exact Tells.of_eq rfl rfl
  · exact (s.invoke_tells _ r).trans (Tells.of_eq rfl rfl)

theorem dropClients_tells (s : Node M) : s.Tells s.dropClients := by
  refine (invokeAll_tells s.pendingClients.toList nodeCrashed s).trans
    (Tells.of_unstored (unstored_of_forall fun e he => ?_) rfl rfl)
  obtain ⟨pr, -, rfl⟩ := List.mem_map.mp he
  rfl

theorem drain_tells (s : Node M) : s.Tells s.drainPendingReads :=
  .of_unstored (unstored_of_forall
    (forall_closedReads _ _ _ (fun _ => rfl) fun _ _ => rfl)) rfl rfl

theorem sendAll_tells (s : Node M) (ds : List NodeId) (m : Msg M.Blob) :
    s.Tells (s.sendAll ds m) := by
  refine Tells.of_unstored (unstored_of_forall fun e he => ?_) rfl rfl
  obtain ⟨d, -, rfl⟩ := List.mem_map.mp he
  rfl

theorem beginRead_tells (s : Node M) (key : Str) (ticket : Nat) :
    s.Tells (s.beginRead key ticket) := by
  unfold beginRead
  refine Tells.trans ?_ (sendAll_tells _ _ _)
  refine Tells.emit (Tells.emit ?_ rfl) rfl
  exact Tells.of_eq rfl rfl

theorem readTimeout_tells (s : Node M) (round : Nat) : s.Tells (s.readTimeout round) := by
  unfold readTimeout
  split
  · exact Tells.refl s
  · refine Tells.emit ?_ rfl
    exact Tells.of_eq rfl rfl

end Node

/-! ## Moves -/

open Node in
/-- **A move changes the stores by the calls among its effects**, and sends after them.  A crash of
a node whose stores hold nothing that is not flushed changes none. -/
theorem Move.writes (hM : M.WritesLogs) {n₀ s s' : Node M} {t : Nat} {inp : Input M}
    (h : Move n₀ t inp s s') (hflushed : ∀ which, (n₀.storeOf which).crash = n₀.storeOf which) :
    ∃ es, s.Wrote es s' ∧ StoresFirst es := by
  have hstop : s = n₀ → s.Tells s.stop := by
    rintro rfl
    refine Tells.of_eq rfl (funext fun which => ?_)
    rw [← hflushed which]
    cases which <;> rfl
  cases h with
  | quiet tm es hq hst => exact Tells.writes (Tells.of_unstored hst rfl rfl)
  | newTerm T l tm es hq hT h₀ hst =>
    exact Wrote.quietly (Wrote.persisted hM hst rfl rfl rfl rfl rfl) hq
  | follow l tm prs es hq hprs h₀ hst => exact Tells.writes (Tells.of_unstored hst rfl rfl)
  | grant src rv tm es hq hinp hterm hvote hup hst =>
    exact Wrote.quietly (Wrote.persisted hM hst rfl rfl rfl rfl rfl) hq
  | stand tm es es' hq hq' hrun hrole hpeers hinp h₀ hes hst hst' =>
    have hsends : Unstored (M := M) (s.peers.map fun d => Effect.send d (.requestVote
        ⟨s.currentTerm + 1, s.id, s.log.lastIndex, s.log.lastTerm⟩)) := by
      refine unstored_of_forall fun e he => ?_
      obtain ⟨d, -, rfl⟩ := List.mem_map.mp he
      rfl
    have hall : ({ s with currentTerm := s.currentTerm + 1, votedFor := some s.id } :
        Node M).Persists (es ++ (s.peers.map fun d => Effect.send d (.requestVote
          ⟨s.currentTerm + 1, s.id, s.log.lastIndex, s.log.lastTerm⟩)) ++ es') := by
      rw [Persists, storeCalls_append, storeCalls_append, hsends, hst', List.append_nil,
        List.append_nil]
      exact hst
    exact ⟨_, Wrote.persisted hM hall rfl rfl rfl rfl rfl, es, _, List.append_assoc _ _ _,
      hq.not_send, hsends.append hst'⟩
  | win tm es hq hrole hcount hpeers hwins hkept hst =>
    exact Tells.writes (Tells.of_unstored hst rfl rfl)
  | accept src ae es hq hinp hterm hrole hprev h₀ hlog hpend happ hrun hst =>
    refine Wrote.quietly_emit ?_ hq rfl
    exact Wrote.persisted hM hst rfl rfl rfl rfl rfl
  | place cmd cb cfgPending es hq h₀ hinp hrun hrole hcfg hpend hst =>
    refine Wrote.quietly_emit ?_ hq rfl
    exact Wrote.persisted hM hst rfl rfl rfl rfl rfl
  | snapshot k es hq hthr hlt ht hst =>
    exact Wrote.quietly (Wrote.saved hM hst rfl rfl rfl rfl rfl) hq
  | install src is kv es hq hinp hterm hrole hlt hdec hlog happ hidle hout hrun hle hst =>
    exact Wrote.quietly (Wrote.saved hM hst rfl rfl rfl rfl rfl) hq
  | answer e kv happ hdone hpend pc es ha => exact ha ▸ (s.answer_tells _).writes
  | drain => exact s.drain_tells.writes
  | readTimeout round prs es hq hprs hr => exact hr ▸ (s.readTimeout_tells round).writes
  | beginRead key => exact (s.beginRead_tells key t).writes
  | readNow key => exact (((Tells.refl s).emit rfl).emit rfl).writes
  | crash kv hinp h₀ hkv es hd =>
    rw [← hd]
    refine Tells.writes (Tells.trans ?_ (dropClients_tells _))
    exact (hstop h₀).trans (Tells.of_eq rfl rfl)
  | crashFail err hinp h₀ => exact (hstop h₀).writes
  | boot s' hinp h₀ hrun hboot =>
    obtain ⟨T, v, l, kv, i, k, d, c, a, he, -⟩ := Reloads.of_boot hboot
    rw [he]
    exact Tells.writes (Tells.of_eq rfl rfl)
  | applyKv | sendAppend =>
    refine Tells.writes (Tells.emit ?_ rfl)
    exact Tells.of_eq rfl rfl
  | replyVote | sendSnapshot | replyAppend | rejectStale | rejectConflict | replySnapshot
  | replyRead | refuse => exact ((Tells.refl s).emit rfl).writes
  | _ => exact Tells.writes (Tells.of_eq rfl rfl)

theorem Moves.writes (hM : M.WritesLogs) {n₀ s s' : Node M} {t : Nat} {inp : Input M}
    (h : Moves n₀ t inp s s') (hflushed : ∀ which, (n₀.storeOf which).crash = n₀.storeOf which) :
    ∃ es, s.Wrote es s' := by
  induction h with
  | refl => exact ⟨[], .of_unstored rfl (List.append_nil _).symm rfl⟩
  | tail _ hstep ih =>
    obtain ⟨es, hes⟩ := ih
    obtain ⟨es', hes', -⟩ := hstep.writes hM hflushed
    exact ⟨es ++ es', hes.trans hes'⟩

theorem Mirror.flushed_storeOf {s : Node M} (h : Mirror s) (which : StoreId) :
    (s.storeOf which).crash = s.storeOf which := by
  obtain ⟨hm, hl, hs⟩ := h.flushed
  cases which with
  | metaStore => exact hm
  | logStore => exact hl
  | snapshotStore => exact hs

end SimKV
