/-
# Whose result a client gets

`pending_clients_` maps an index to the callback of the client whose command was put
there.  The map knows nothing of terms: when the entry is applied, whoever is
registered for its index is answered.  The entry that a client waits for is in the
log, being applied, or behind `last_applied_` for good (`Awaits`), and every move
keeps that but one: an `AppendEntries` of another leader may replace the entry and
leave the callback in place.  As long as that does not happen, a client that is
answered has been given the result of its own command (`answered_own_command`);
when it does, it is given the result of the other one (`answered_other_command`).

A `ClientRequest` carries a client id and a request id, and nothing ever looks at
them.  A leader that has a copy of a request in its log and gets another one places
it again (`request_applied_twice`).  Were leaders to refuse such copies, no request
would be applied at two indices (`request_applied_once`): of two committed entries
the leader that placed the later one had the earlier one in its log
(`earlier_in_log`).
-/
import SimKV.Raft.Safety

namespace SimKV

open TermLog

variable {M : Medium}

/-! ## The entry a client waits for -/

/-- Where the entry `e` of a waiting client is, given the effects `seen` so far. -/
inductive Node.Awaits (seen : Effect M → Prop) (s : Node M) (e : LogEntry) : Prop
  | logged (hlt : s.lastApplied < e.index) (hlog : s.log.entryAt e.index = some e)
  | applying (kv : KvStore) (hi : e.index = s.lastApplied) (happ : s.applying = some (e, kv))
      (hseen : seen (.applied e.index e kv))
  /-- A snapshot has carried the node past the entry: nobody will answer. -/
  | passed (hle : e.index ≤ s.lastApplied) (hidle : e.index = s.lastApplied → s.applying = none)

/-- Every waiting client waits for the entry that was placed for it. -/
def Node.Waiting (seen : Effect M → Prop) (s : Node M) : Prop :=
  s.pendingClients.All fun i cb => ∃ e, e.index = i ∧ seen (.placed cb e) ∧ s.Awaits seen e

namespace Node

variable {seen seen' : Effect M → Prop} {s s' : Node M} {e : LogEntry}

theorem Awaits.frame (h : s.Awaits seen e) (hseen : ∀ x, seen x → seen' x) (hlog : s'.log = s.log)
    (hla : s'.lastApplied = s.lastApplied) (happ : s'.applying = s.applying) :
    s'.Awaits seen' e := by
  cases h with
  | logged hlt h => exact .logged (by rw [hla]; exact hlt) (by rw [hlog]; exact h)
  | applying kv hi ha hs => exact .applying kv (by rw [hla]; exact hi) (happ.trans ha) (hseen _ hs)
  | passed hle hidle =>
    exact .passed (by rw [hla]; exact hle) (by rw [hla, happ]; exact hidle)

theorem Waiting.imp (h : s.Waiting seen) (hseen : ∀ x, seen x → seen' x)
    (hpend : s'.pendingClients = s.pendingClients)
    (ha : ∀ cb e, s.pendingClients.find? e.index = some cb → s.Awaits seen e →
      s'.Awaits seen' e) : s'.Waiting seen' := by
  unfold Waiting
  rw [hpend]
  rintro i cb hcb
  obtain ⟨e, rfl, hpl, he⟩ := h i cb hcb
  exact ⟨e, rfl, hseen _ hpl, ha cb e hcb he⟩

theorem Waiting.frame (h : s.Waiting seen) (hseen : ∀ x, seen x → seen' x)
    (hpend : s'.pendingClients = s.pendingClients) (hlog : s'.log = s.log)
    (hla : s'.lastApplied = s.lastApplied) (happ : s'.applying = s.applying) :
    s'.Waiting seen' :=
  h.imp hseen hpend fun _ _ _ he => he.frame hseen hlog hla happ

theorem Waiting.nobody (seen : Effect M → Prop) (h : s.pendingClients = .empty) :
    s.Waiting seen := by
  intro i cb hcb
  rw [h] at hcb
  exact nomatch hcb

/-- What is behind `last_applied_` stays behind. -/
theorem Awaits.pass (h : e.index ≤ s.lastApplied) (hlt : s.lastApplied < s'.lastApplied) :
    s'.Awaits seen e :=
  .passed (Nat.le_trans h (Nat.le_of_lt hlt)) fun heq => by omega

/-- The entries up to `i` survive an `AppendEntries` that agrees with the log up to `i`. -/
theorem appendLoop_keeps {i : Nat} (es : List LogEntry) (l : RaftLog) (hi : i ≤ l.lastIndex)
    (hes : ∀ x ∈ es, l.baseIndex < x.index → x.index ≤ i →
      (l.entryAt x.index).map LogEntry.term = some x.term) :
    ∀ j ≤ i, (appendLoop es l).entryAt j = l.entryAt j := by
  -- `l'` is the log with some of the entries taken in
  suffices hall : ∀ l' : RaftLog, l'.baseIndex = l.baseIndex → i ≤ l'.lastIndex →
      (∀ j ≤ i, l'.entryAt j = l.entryAt j) → ∀ j ≤ i, (appendLoop es l').entryAt j = l.entryAt j by
    exact hall l rfl hi fun _ _ => rfl
  induction es with
  | nil => exact fun l' _ _ hl' => hl'
  | cons x es ih =>
    have ih := ih fun y hy => hes y (List.mem_cons_of_mem _ hy)
    intro l' hb hi' hl'
    have happ : ∀ l'' : RaftLog, l''.baseIndex = l.baseIndex → i ≤ l''.lastIndex →
        (∀ j ≤ i, l''.entryAt j = l.entryAt j) →
        ∀ j ≤ i, (appendLoop es (l''.append x)).entryAt j = l.entryAt j := by
      intro l'' hb'' hi'' hl''
      refine ih _ hb'' (by rw [RaftLog.lastIndex_append]; omega) fun j hj => ?_
      rw [← hl'' j hj]
      refine Option.ext fun y => ?_
      rw [RaftLog.entryAt_append, or_iff_left]
      rintro ⟨rfl, -⟩
      omega
    unfold appendLoop
    split
    · split
      · exact ih l' hb hi' hl'
      · rename_i hle hbase
        split
        · rename_i hne
          -- a conflict lies behind `i`
          have hlt : i < x.index := by
            by_contra hge
            rw [hl' _ (by omega)] at hne
            exact hne (hes x List.mem_cons_self (by omega) (by omega))
          refine happ _ ?_ ?_ fun j hj => ?_
          · unfold RaftLog.truncateFrom
            rw [if_neg hbase, if_neg (by omega)]
            exact hb
          · unfold RaftLog.truncateFrom
            rw [if_neg hbase, if_neg (by omega)]
            change i ≤ l'.baseIndex + (l'.entries.take (x.index - l'.baseIndex - 1)).length
            unfold RaftLog.lastIndex at hle
            rw [List.length_take]
            omega
          · rw [RaftLog.entryAt_truncateFrom (by omega), hl' j hj]
        · exact ih l' hb hi' hl'
    · exact happ l' hb hi' hl'

/-- No entry for which a client of the node is waiting is replaced by this input. -/
def KeepsPending (s : Node M) : Input M → Prop
  | .message _ (.appendEntries ae) => s.running = true → s.currentTerm ≤ ae.term →
      s.log.contains ae.prevLogIndex ae.prevLogTerm = true →
      ∀ q ∈ s.pendingClients.toList, s.lastApplied < q.1 → ∀ x ∈ ae.entries,
        s.log.baseIndex < x.index → x.index ≤ q.1 →
        (s.log.entryAt x.index).map LogEntry.term = some x.term
  | _ => True

instance (s : Node M) (inp : Input M) : Decidable (s.KeepsPending inp) := by
  unfold KeepsPending
  induction inp using Input.casesOn with
  | message src m => induction m using Msg.casesOn <;> infer_instance
  | _ => infer_instance

end Node

open Node in
/-- **Every move keeps the clients waiting for their own entries**, unless an `AppendEntries`
replaces one of these. -/
theorem Move.waiting {n₀ s s' : Node M} {t : Nat} {inp : Input M} {seen seen' : Effect M → Prop}
    (h : Move n₀ t inp s s') (hrec : Recoverable n₀ inp) (hidle : n₀.applying = none)
    (hkeep : n₀.KeepsPending inp) (hseen : ∀ x, seen x → seen' x) (hout : ∀ x ∈ s'.out, seen' x)
    (hs : s.Waiting seen) : s'.Waiting seen' := by
  cases h with
  | accept src ae es hq hinp hterm hrole hprev hle hlog hpend hla hrun =>
    subst hinp
    refine hs.imp hseen rfl fun cb e hcb he => ?_
    cases he with
    | logged hlt he =>
      refine .logged hlt ?_
      change (appendLoop ae.entries s.log).entryAt e.index = some e
      rw [appendLoop_keeps (i := e.index) ae.entries s.log (RaftLog.entryAt_le he).2 ?_ _
        (Nat.le_refl _), he]
      rw [hlog] at hprev ⊢
      rw [hpend] at hcb
      rw [hla] at hlt
      exact hkeep hrun (hterm ▸ hle) hprev (e.index, cb) (OrdMap.find?_eq_some_iff.mp hcb) hlt
    | applying kv hi happ hs => exact .applying kv hi happ (hseen _ hs)
    | passed hle hidle => exact .passed hle hidle
  | skipApplied hlt hbase =>
    refine hs.imp hseen rfl fun cb e _ he => ?_
    cases he with
    | logged hlt he =>
      have := (RaftLog.entryAt_le he).1
      exact .logged (by change s.lastApplied + 1 < e.index; omega) he
    | applying kv hi => exact .pass (Nat.le_of_eq hi) (Nat.lt_succ_self _)
    | passed hle => exact .pass hle (Nat.lt_succ_self _)
  | applyKv e' hlt hnone he' =>
    refine hs.imp hseen rfl fun cb e _ he => ?_
    cases he with
    | logged hlt he =>
      rcases Nat.eq_or_lt_of_le (Nat.succ_le_of_lt hlt) with heq | hlt'
      · rw [Nat.succ_eq_add_one] at heq
        rw [heq, he] at he'
        cases he'
        refine .applying s.kv heq.symm rfl (hout _ (List.mem_append_right _ ?_))
        rw [← heq]
        exact List.mem_singleton_self _
      · exact .logged hlt' he
    | applying kv hi happ => exact nomatch hnone.symm.trans happ
    | passed hle => exact .pass hle (Nat.lt_succ_self _)
  | answer e kv happ hdone hpend pc es ha =>
    rw [← ha]
    intro i cb hcb
    -- whoever is still waiting does not wait for the entry just applied
    have hwait : i ≠ s.lastApplied ∧ s.pendingClients.find? i = some cb := by
      unfold Node.answer at hcb
      split at hcb
      · rename_i hnone
        have hcb : s.pendingClients.find? i = some cb := hcb
        refine ⟨fun heq => ?_, hcb⟩
        rw [heq, hnone] at hcb
        exact nomatch hcb
      · have hne : i ≠ s.lastApplied := by
          rintro rfl
          exact nomatch (s.pendingClients.find?_erase_self _).symm.trans hcb
        exact ⟨hne, (s.pendingClients.find?_erase_of_ne hne).symm.trans hcb⟩
    obtain ⟨e', rfl, hpl, he⟩ := hs i cb hwait.2
    refine ⟨e', rfl, hseen _ hpl, ?_⟩
    rw [ha]
    cases he with
    | logged hlt he => exact .logged hlt he
    | applying kv hi => exact absurd hi hwait.1
    | passed hle => exact .passed hle fun _ => rfl
  | snapshot t es hq hthr hlt ht =>
    refine hs.imp hseen rfl fun cb e _ he => ?_
    cases he with
    | logged hlt he => exact .logged hlt ((RaftLog.entryAt_setSnapshot _ hlt).trans he)
    | applying kv hi happ hs => exact .applying kv hi happ (hseen _ hs)
    | passed hle hidle => exact .passed hle hidle
  | install src is kv es hq hinp hterm hrole hlt hdec hlog hla hnone =>
    refine hs.imp hseen rfl fun cb e _ he => ?_
    cases he with
    | logged hlt he =>
      rcases Nat.lt_or_ge is.lastIncludedIndex e.index with hlt' | hge
      · exact .logged (Nat.max_lt.mpr ⟨hlt, hlt'⟩)
          ((RaftLog.entryAt_setSnapshot _ hlt').trans he)
      · exact .passed (Nat.le_trans hge (Nat.le_max_right _ _)) fun _ => hnone
    | applying kv hi =>
      exact .passed (Nat.le_trans (Nat.le_of_eq hi) (Nat.le_max_left _ _)) fun _ => hnone
    | passed hle => exact .passed (Nat.le_trans hle (Nat.le_max_left _ _)) fun _ => hnone
  | place cmd cb cp es hq h₀ =>
    refine OrdMap.All.insert (fun i cb' hcb => ?_)
      ⟨⟨s.currentTerm, s.log.lastIndex + 1, cmd⟩, rfl, hout _ ?_, ?_⟩
    · obtain ⟨e, rfl, hpl, he⟩ := hs i cb' hcb
      refine ⟨e, rfl, hseen _ hpl, ?_⟩
      cases he with
      | logged hlt he => exact .logged hlt (RaftLog.entryAt_append.mpr (Or.inl he))
      | applying kv hi happ hs => exact .applying kv hi happ (hseen _ hs)
      | passed hle hidle => exact .passed hle hidle
    · exact List.mem_append_right _ (List.mem_singleton_self _)
    · rcases Nat.lt_or_ge s.lastApplied (s.log.lastIndex + 1) with hlt | hge
      · exact .logged hlt (RaftLog.entryAt_append.mpr (Or.inr ⟨rfl, rfl⟩))
      · exact .passed hge fun _ => by rw [← h₀] at hidle; exact hidle
  | crash kv => exact .nobody seen' rfl
  | crashFail err hinp h₀ hne hdec => exact (hrec.not_crashFail h₀ hne hdec).elim
  | boot _ hinp h₀ hrun hboot =>
    obtain ⟨kv, rfl, -⟩ := hrec.booted h₀ hrun hboot
    exact hs.frame hseen rfl rfl rfl rfl
  | _ => exact hs.frame hseen rfl rfl rfl rfl

/-- A step places one entry at most. -/
theorem Emitted.placed_unique {n₀ s₁ s₁' s₂ s₂' : Node M} {t : Nat} {inp : Input M}
    {cb cb' : Callback} {e e' : LogEntry} (h : Emitted n₀ t inp s₁ s₁' (.placed cb e))
    (h' : Emitted n₀ t inp s₂ s₂' (.placed cb' e')) : cb = cb' ∧ e = e' := by
  cases h with
  | placed cmd _ h₀ hinp =>
    cases h' with
    | placed cmd' _ h₀' hinp' =>
      subst h₀ h₀'
      rcases hinp with ⟨c, r, rfl, rfl⟩ | ⟨src, cr, rfl, rfl, rfl⟩
      · rcases hinp' with ⟨c', r', heq, rfl⟩ | ⟨src', cr', heq, -⟩
        · cases heq
          exact ⟨rfl, rfl⟩
        · exact nomatch heq
      · rcases hinp' with ⟨c', r', heq, -⟩ | ⟨src', cr', heq, rfl, rfl⟩
        · exact nomatch heq
        · cases heq
          exact ⟨rfl, rfl⟩

/-- The callback carries the number of the step. -/
theorem Emitted.placed_ticket {n₀ s s' : Node M} {t : Nat} {inp : Input M} {cb : Callback}
    {e : LogEntry} (h : Emitted n₀ t inp s s' (.placed cb e)) : cb.ticket = t := by
  cases h with
  | placed cmd _ h₀ hinp =>
    rcases hinp with ⟨c, r, -, rfl⟩ | ⟨src, cr, -, -, rfl⟩ <;> rfl

/-! ## Runs -/

namespace Cluster

variable {C : Cluster M}

/-- At this event no entry for which a client is waiting is replaced. -/
def PendingKept (C : Cluster M) (e : Event) : Prop :=
  match C.input e with
  | some (n, inp) => (C.node n).KeepsPending inp
  | none => True

instance (C : Cluster M) (e : Event) : Decidable (C.PendingKept e) := by
  unfold PendingKept
  rcases C.input e with _ | ⟨n, inp⟩ <;> infer_instance

/-- The result that a client is given is that of the entry placed for it, or that of a crash. -/
def AnswerOk (seen : Effect M → Prop) : Effect M → Prop
  | .clientDone cb r => r = Node.nodeCrashed ∨ ∃ e kv, seen (.placed cb e) ∧
      seen (.applied e.index e kv) ∧ r = (kv.apply e.cmd).2
  | _ => True

/-- Every client waits for its own entry; the abstract state is what has been seen. -/
def clientInvariant (M : Medium) : Invariant M (NodeId → Effect M → Prop) where
  le g g' := ∀ n x, g n x → g' n x
  node g n s := s.Waiting (g n)
  packet _ _ := True
  effect g _ n x := AnswerOk (g n) x
  seen g n x := g n x
  le_refl _ _ _ h := h
  le_trans _ _ _ h h' n x hx := h' n x (h n x hx)
  packet_mono _ _ _ _ h := h
  effect_mono g g' _ n x hle hx := by
    cases x with
    | clientDone cb r =>
      exact hx.imp_right fun ⟨e, kv, hp, ha, hr⟩ => ⟨e, kv, hle n _ hp, hle n _ ha, hr⟩
    | _ => trivial
  node_settle _ _ _ h ha := h.frame (fun _ hx => hx) rfl rfl rfl ha.symm

theorem client_exec {e : Event} {g : NodeId → Effect M → Prop} (hC : C.Settled) (hd : C.Durable)
    (hs : C.Sized) (hkeep : C.PendingKept e) (h : (clientInvariant M).Holds g C) :
    ∃ g', (clientInvariant M).le g g' ∧ (clientInvariant M).Holds g' (C.exec e) := by
  refine Invariant.exec (e := e) hC h ?_ fun _ _ _ _ => trivial
  intro n inp s s' g' hinp hn _ _ hm hh
  have hs₀ : s.Waiting (g' n) := by
    have := hh.node n hn
    rwa [set_node_self] at this
  have hkeep' : (C.node n).KeepsPending inp := by
    unfold PendingKept at hkeep
    rwa [hinp] at hkeep
  -- everything the node has put out by now is seen
  let g'' : NodeId → Effect M → Prop := fun m x => g' m x ∨ (m = n ∧ x ∈ s'.out)
  have hle : (clientInvariant M).le g' g'' := fun m x hx => Or.inl hx
  refine ⟨g'', hle, ?_, fun m _ hmn hm' => ?_, fun x hx => ?_, fun _ _ _ => trivial,
    fun _ _ hx => hx⟩
  · exact hm.waiting (hd.recoverable hs hinp hn) (hC n).2.1 hkeep' (hle n)
      (fun x hx => Or.inr ⟨rfl, hx⟩) hs₀
  · exact Node.Waiting.frame hm' (hle m) rfl rfl rfl rfl
  · cases hx with
    | answered cb e kv happ hcb =>
      refine Or.inr ?_
      obtain ⟨e', hi, hpl, he⟩ := hs₀ _ cb hcb
      cases he with
      | logged hlt => exact absurd hi (Nat.ne_of_gt hlt)
      | applying kv' _ happ' hseen =>
        cases happ.symm.trans happ'
        exact ⟨e, kv, Or.inl hpl, Or.inl hseen, rfl⟩
      | passed _ hidle => exact nomatch happ.symm.trans (hidle hi)
    | dropped => exact Or.inl rfl
    | _ => trivial

theorem client_run (hC : C.Settled) (hd : C.Durable) (htrace : C.trace = [])
    (hnone : ∀ n ∈ C.members, (C.node n).pendingClients = .empty) (es : List Event)
    (hs : ∀ es', es' <+: es → (C.run es').Sized) (hkeep : C.Along PendingKept es) :
    ∃ g, (clientInvariant M).Holds g (C.run es) := by
  refine (Invariant.run (I := clientInvariant M) (g := fun _ _ => False) ?_ es ?_).imp
    fun _ h => h.2
  · refine ⟨fun n hn => .nobody (fun _ => False) (hnone n hn), fun _ _ => trivial,
      fun t n x _ hx => ?_, fun _ _ h => h.elim⟩
    rw [hC.traced_iff, htrace] at hx
    exact absurd hx List.not_mem_nil
  · intro es' e hpre g _ hg
    have hs' : ∀ es'', es'' <+: es' → (C.run es'').Sized := fun es'' h =>
      hs es'' (h.trans ((List.prefix_append _ _).trans hpre))
    exact client_exec (settled_run hC es') (hd.run hC es' hs') (hs' es' List.prefix_rfl)
      (hkeep.at hpre) hg

/-- The entry placed for a callback. -/
theorem placed_unique (hC : C.Settled) (htrace : C.trace = []) {es : List Event} {t t' : Nat}
    {n n' : NodeId} {cb : Callback} {e e' : LogEntry}
    (h : (t, n, .placed cb e) ∈ (C.run es).trace)
    (h' : (t', n', .placed cb e') ∈ (C.run es).trace) : e = e' := by
  obtain ⟨es₁, e₁, inp₁, s₁, s₁', hpre₁, hnow₁, hinp₁, -, -, -, -, hem₁, -⟩ :=
    exists_emitted hC htrace rfl h
  obtain ⟨es₂, e₂, inp₂, s₂, s₂', hpre₂, hnow₂, hinp₂, -, -, -, -, hem₂, -⟩ :=
    exists_emitted hC htrace rfl h'
  have ht : t = t' := hem₁.placed_ticket.symm.trans hem₂.placed_ticket
  subst ht
  obtain ⟨rfl, rfl⟩ := step_unique hpre₁ hpre₂ (hnow₁.trans hnow₂.symm)
  cases hinp₁.symm.trans hinp₂
  exact (hem₁.placed_unique hem₂).2

/-- An answered callback was given the result of the entry placed for it. -/
theorem done_applied (hC : C.Settled) (hd : C.Durable) (htrace : C.trace = [])
    (hnone : ∀ n ∈ C.members, (C.node n).pendingClients = .empty) {es : List Event}
    (hs : ∀ es', es' <+: es → (C.run es').Sized) (hkeep : C.Along PendingKept es) {n : NodeId}
    {t t' : Nat} {cb : Callback} {e : LogEntry} {res : CmdResult}
    (hplaced : (t, n, .placed cb e) ∈ (C.run es).trace)
    (hdone : (t', n, .clientDone cb res) ∈ (C.run es).trace) (hcrash : res ≠ Node.nodeCrashed) :
    ∃ t'' kv, (t'', n, .applied e.index e kv) ∈ (C.run es).trace ∧ res = (kv.apply e.cmd).2 := by
  have hC' := settled_run hC es
  obtain ⟨g, hg⟩ := client_run hC hd htrace hnone es hs hkeep
  rcases hg.effect t' n _ rfl (hC'.traced_iff.mpr hdone) with h | ⟨e', kv, hpl, happ, hres⟩
  · exact absurd h hcrash
  obtain ⟨t₁, hpl⟩ := hg.seen n _ hpl
  obtain ⟨t₂, happ⟩ := hg.seen n _ happ
  rw [hC'.traced_iff] at hpl happ
  obtain rfl := placed_unique hC htrace hplaced hpl
  exact ⟨t₂, kv, happ, hres⟩

/-- **A client that is answered gets the result of its own command.**  In a run in which no
`AppendEntries` replaces an entry whose client is still waiting, if a node placed the entry `e` for
a callback and the callback is invoked with something else than the result of a crash, then the
node has applied `e` at its index, and the callback was given the result. -/
theorem answered_own_command (M : Medium) (r : Roster) (cfg : NodeId → RaftConfig)
    (es : List Event) (hs : ∀ es', es' <+: es → ((launch M r cfg).run es').Sized)
    (hkeep : (launch M r cfg).Along PendingKept es) (n : NodeId) (t t' : Nat) (cb : Callback)
    (e : LogEntry) (res : CmdResult)
    (hplaced : (t, n, .placed cb e) ∈ ((launch M r cfg).run es).trace)
    (hdone : (t', n, .clientDone cb res) ∈ ((launch M r cfg).run es).trace)
    (hcrash : res ≠ Node.nodeCrashed) :
    ∃ t'' kv, (t'', n, .applied e.index e kv) ∈ ((launch M r cfg).run es).trace ∧
      res = (kv.apply e.cmd).2 :=
  done_applied (settled_launch M r cfg) (durable_launch M r cfg) rfl
    (fun n _ => by rw [launch_node]; rfl) hs hkeep hplaced hdone hcrash

/-- The entries that a run has placed: by whom, and for which callback. -/
def placings (C : Cluster M) : List (NodeId × Callback × LogEntry) :=
  C.trace.filterMap fun x => match x.2.2 with
    | .placed cb e => some (x.2.1, cb, e)
    | _ => none

theorem mem_placings {n : NodeId} {cb : Callback} {e : LogEntry} :
    (n, cb, e) ∈ C.placings ↔ ∃ t, (t, n, .placed cb e) ∈ C.trace := by
  unfold placings
  rw [List.mem_filterMap]
  constructor
  · rintro ⟨⟨t, m, x⟩, hx, heq⟩
    cases x with
    | placed cb' e' =>
      simp only [Option.some.injEq, Prod.mk.injEq] at heq
      obtain ⟨rfl, rfl, rfl⟩ := heq
      exact ⟨t, hx⟩
    | _ => simp at heq
  · rintro ⟨t, hx⟩
    exact ⟨_, hx, rfl⟩

/-- The callbacks that a run has invoked. -/
def answers (C : Cluster M) : List (NodeId × Callback × CmdResult) :=
  C.trace.filterMap fun x => match x.2.2 with
    | .clientDone cb r => some (x.2.1, cb, r)
    | _ => none

theorem mem_answers {n : NodeId} {cb : Callback} {r : CmdResult} :
    (n, cb, r) ∈ C.answers ↔ ∃ t, (t, n, .clientDone cb r) ∈ C.trace := by
  unfold answers
  rw [List.mem_filterMap]
  constructor
  · rintro ⟨⟨t, m, x⟩, hx, heq⟩
    cases x with
    | clientDone cb' r' =>
      simp only [Option.some.injEq, Prod.mk.injEq] at heq
      obtain ⟨rfl, rfl, rfl⟩ := heq
      exact ⟨t, hx⟩
    | _ => simp at heq
  · rintro ⟨t, hx⟩
    exact ⟨_, hx, rfl⟩

/-- Node 1 commits a write and answers its client. -/
def answeringRun : List Event :=
  [.electionTimer 1 1, .deliver 0, .deliver 2,
    .submit 1 0 0 (.put (Str.lit "k") (Str.lit "a")), .deliver 5, .deliver 7]

theorem answered_own_command_three :
    ∃ t kv, (t, 1, .applied 1 ⟨1, 1, .put (Str.lit "k") (Str.lit "a")⟩ kv) ∈
        ((launched [1, 2, 3]).run answeringRun).trace ∧
      (⟨true, Str.lit "", Str.lit ""⟩ : CmdResult) =
        (kv.apply (.put (Str.lit "k") (Str.lit "a"))).2 := by
  have hplaced : (1, ⟨3, none⟩, ⟨1, 1, .put (Str.lit "k") (Str.lit "a")⟩) ∈
      ((launched [1, 2, 3]).run answeringRun).placings := by decide +kernel
  have hdone : (1, ⟨3, none⟩, ⟨true, Str.lit "", Str.lit ""⟩) ∈
      ((launched [1, 2, 3]).run answeringRun).answers := by decide +kernel
  obtain ⟨t, hplaced⟩ := mem_placings.mp hplaced
  obtain ⟨t', hdone⟩ := mem_answers.mp hdone
  exact answered_own_command Medium.bytes (.ofList [1, 2, 3]) (fun _ => {}) answeringRun
    (sized_of_fits (by decide +kernel)) (by decide +kernel) 1 t t' _ _ _ hplaced hdone (by decide)

/-- A compare-and-set that fails on an empty store. -/
def failingCas : Command := .cas (Str.lit "k") (Str.lit "x") (Str.lit "b")

/-- Node 1 appends a write that reaches nobody.  Node 2 is elected by node 3 and commits a
compare-and-set at the same index, which then replaces the write on node 1. -/
def replacedRun : List Event :=
  [.electionTimer 1 1, .deliver 0, .deliver 2,
    .submit 1 0 0 (.put (Str.lit "k") (Str.lit "a")), .electionTimer 2 5, .deliver 8, .deliver 9,
    .submit 2 0 0 failingCas, .deliver 13, .deliver 14, .heartbeatTimer 2, .deliver 12, .deliver 15]

/-- **A client is given the result of another's command.**  The write was placed at index 1 for the
callback of step 3; node 1 applies the compare-and-set there, and answers the callback with its
failure. -/
theorem answered_other_command :
    ((launched [1, 2, 3]).run replacedRun).placings =
      [(1, ⟨3, none⟩, ⟨1, 1, .put (Str.lit "k") (Str.lit "a")⟩),
        (2, ⟨7, none⟩, ⟨2, 1, failingCas⟩)] ∧
    ((launched [1, 2, 3]).run replacedRun).applied =
      [(2, 1, ⟨2, 1, failingCas⟩), (1, 1, ⟨2, 1, failingCas⟩)] ∧
    ((launched [1, 2, 3]).run replacedRun).answers =
      [(2, ⟨7, none⟩, (KvStore.empty.apply failingCas).2),
        (1, ⟨3, none⟩, (KvStore.empty.apply failingCas).2)] ∧
    (KvStore.empty.apply failingCas).2 ≠ Node.nodeCrashed ∧
    ∀ kv : KvStore, (KvStore.empty.apply failingCas).2 ≠
      (kv.apply (.put (Str.lit "k") (Str.lit "a"))).2 := by
  refine ⟨?_, ?_, ?_, ?_, fun kv => ?_⟩
  · decide +kernel
  · decide +kernel
  · decide +kernel
  · decide
  · intro h
    have hok : false = true := congrArg CmdResult.ok h
    exact nomatch hok

/-! ## Copies of a request -/

end Cluster

/-- The client and request ids of the request that a callback answers. -/
def Callback.request? (cb : Callback) : Option (Nat × Nat) :=
  cb.origin.map fun o => (o.2.clientId, o.2.requestId)

namespace Cluster

/-- A leader that is given a request has no entry for it: every entry placed for a request with
the same ids is beyond its snapshot and not in its log. -/
def CopiesFresh (C : Cluster M) (e : Event) : Prop :=
  match C.input e with
  | some (n, .message _ (.clientRequest cr)) => (C.node n).role = .leader →
      ∀ p ∈ C.placings, p.2.1.request? = some (cr.clientId, cr.requestId) →
        (C.node n).log.baseIndex < p.2.2.index ∧
        (C.node n).log.entryAt p.2.2.index ≠ some p.2.2
  | _ => True

instance (C : Cluster M) (e : Event) : Decidable (C.CopiesFresh e) := by
  unfold CopiesFresh
  rcases C.input e with _ | ⟨n, inp⟩
  · infer_instance
  · induction inp using Input.casesOn with
    | message src m => induction m using Msg.casesOn <;> infer_instance
    | _ => infer_instance

section Requests

variable {C : Cluster M} {md : Mode} {Q : Quorums NodeId} {es : List Event}

/-- The step of a leader that places an entry, seen from the history. -/
theorem placing_leader {w : CoherentHistory md Q} {n : NodeId}
    {s s' : Node M} {t : Nat} {inp : Input M} {cb : Callback} {e : LogEntry} (hn : n ∈ C.members)
    (h : (replicaInvariant M md Q).Holds w C)
    (hem : Emitted (C.node n) t inp s s' (.placed cb e)) :
    LogRep (C.node n).log (w.1.log n) ∧ w.1.log n = w.1.llog e.term ∧
      e.index = (w.1.log n).length + 1 := by
  have hr : Replica md w.1 n (C.node n) := h.node n hn
  cases hem with
  | placed cmd _ h₀ hinp hrole =>
    subst h₀
    exact ⟨hr.log, hr.leading hrole, congrArg (· + 1) hr.log.lastIndex⟩

/-- **Whoever places the later of two committed entries has the earlier one**, and that has been
placed before. -/
theorem earlier_in_log (hf : md.full) (hc : C.Charted md Q es)
    {n n' m m' : NodeId} {i j t t' : Nat} {e e' : LogEntry} {cb cb' : Callback} (hij : i < j)
    (h : (n, i, e) ∈ (C.run es).applied) (h' : (n', j, e') ∈ (C.run es).applied)
    (hpl : (t, m, .placed cb e) ∈ (C.run es).trace)
    (hpl' : (t', m', .placed cb' e') ∈ (C.run es).trace) :
    ∃ es' ev inp s s', es' ++ [ev] <+: es ∧ (C.run es').input ev = some (m', inp) ∧
      Emitted ((C.run es').node m') t' inp s s' (.placed cb' e') ∧
      (m, cb, e) ∈ (C.run es').placings ∧
      (((C.run es').node m').log.baseIndex < e.index →
        ((C.run es').node m').log.entryAt e.index = some e) := by
  obtain ⟨es₁, e₁, inp₁, s₁, s₁', hpre₁, -, -, hm₁, htr₁, -, -, hem₁, -⟩ :=
    exists_emitted hc.fresh.settled hc.fresh.trace rfl hpl
  obtain ⟨es₂, e₂, inp₂, s₂, s₂', hpre₂, -, hinp₂, hm₂, -, -, -, hem₂, -⟩ :=
    exists_emitted hc.fresh.settled hc.fresh.trace rfl hpl'
  have hle₁ : es₁ <+: es := (List.prefix_append _ _).trans hpre₁
  have hle₂ : es₂ <+: es := (List.prefix_append _ _).trans hpre₂
  -- the history when the later entry was placed, and the one at the end
  obtain ⟨w₂, hw₂⟩ := replica_run (hc.isPre hle₂)
  obtain ⟨w, hle, hw⟩ := replica_from hc hle₂ hw₂
  have hx := w₂.2.steps_extends hle
  obtain ⟨hrep, hlead, hidx⟩ := placing_leader hm₂ hw₂ hem₂
  obtain ⟨ta, kv, ht⟩ := mem_applied.mp h
  obtain ⟨ta', kv', ht'⟩ := mem_applied.mp h'
  obtain ⟨hpos, hi, hcom⟩ := hw.effect ta n _ rfl (Or.inl ht)
  obtain ⟨-, hj, hcom'⟩ := hw.effect ta' n' _ rfl (Or.inl ht')
  obtain ⟨T, hT, hTe⟩ := hcom hf
  obtain ⟨T', hT', hTe'⟩ := hcom' hf
  subst hi hj
  -- the earlier entry is below the later one in the committed sequence
  have hbelow : (w.1.llog T')[e.index - 1]? = some e := by
    have hagree := w.2.sound.committed_agree hf hT (Nat.le_trans (Nat.le_of_lt hij) hT')
    rw [← List.getElem?_take_of_lt (by omega : e.index - 1 < e.index), ← hagree,
      List.getElem?_take_of_lt (by omega)]
    exact hTe
  -- and so in the log of the leader that placed the later one, then as now
  have hthere : (w₂.1.log m')[e.index - 1]? = some e := by
    have hchain := w.2.sound.llog_chained T' _ e' hTe'
    have hin : (w.1.llog e'.term)[e.index - 1]? = some e := by
      refine getElem?_of_isPre hchain ?_
      rw [List.getElem?_take_of_lt (by omega)]
      exact hbelow
    rw [hlead]
    rw [hlead] at hidx
    rw [← getElem?_isPre_eq (hx.llog_isPre e'.term) (by omega)]
    exact hin
  refine ⟨es₂, e₂, inp₂, s₂, s₂', hpre₂, hinp₂, hem₂, ?_, fun hb => hrep.entryAt.mpr ⟨hb, hthere⟩⟩
  refine mem_placings.mpr ⟨t, ?_⟩
  rcases Nat.lt_or_ge es₁.length es₂.length with hlt | hge
  · refine run_trace_mono (List.prefix_of_prefix_length_le hpre₁ hle₂ ?_) htr₁
    rw [List.length_append]
    exact hlt
  · -- the leader that placed the earlier entry would have had it already
    obtain ⟨w₁, hle', hw₁⟩ := replica_from (hc.isPre hle₁)
      (List.prefix_of_prefix_length_le hle₂ hle₁ hge) hw₂
    obtain ⟨-, hlead₁, hidx₁⟩ := placing_leader hm₁ hw₁ hem₁
    have hlen := (w₂.2.sound.log_chained m' _ e hthere).length_le
    have hgrow := ((w₂.2.steps_extends hle').llog_isPre e.term).length_le
    have hlt := (List.getElem?_eq_some_iff.mp hthere).1
    rw [List.length_take] at hlen
    rw [hlead₁] at hidx₁
    omega

/-- Committed entries placed for one request are at one index. -/
theorem request_index_eq (hf : md.full) (hc : C.Charted md Q es) (hcopy : C.Along CopiesFresh es)
    {n n' m m' : NodeId} {i j : Nat} {e e' : LogEntry} {cb cb' : Callback}
    (h : (n, i, e) ∈ (C.run es).applied) (h' : (n', j, e') ∈ (C.run es).applied)
    (hpl : (m, cb, e) ∈ (C.run es).placings) (hpl' : (m', cb', e') ∈ (C.run es).placings)
    {id : Nat × Nat} (hid : cb.request? = some id) (hid' : cb'.request? = some id) : i = j := by
  by_contra hne
  wlog hij : i < j generalizing n n' m m' i j e e' cb cb'
  · exact this h' h hpl' hpl hid' hid (Ne.symm hne) (by omega)
  obtain ⟨t, ht⟩ := mem_placings.mp hpl
  obtain ⟨t', ht'⟩ := mem_placings.mp hpl'
  obtain ⟨es', ev, inp, s, s', hpre, hinp, hem, hold, hlog⟩ :=
    earlier_in_log hf hc hij h h' ht ht'
  have hfresh := hcopy.at hpre
  cases hem with
  | placed cmd _ h₀ hreq hrole =>
    rcases hreq with ⟨cid, rid, -, rfl⟩ | ⟨src, cr, rfl, rfl, rfl⟩
    · exact nomatch hid'
    · unfold CopiesFresh at hfresh
      rw [hinp] at hfresh
      obtain ⟨hb, hnot⟩ := hfresh (h₀ ▸ hrole) _ hold (hid.trans hid'.symm)
      exact hnot (hlog hb)

end Requests

/-- Request 1 of client 7, a write. -/
def writeRequest : ClientRequest := ⟨7, 1, .put (Str.lit "k") (Str.lit "a")⟩

/-- The request reaches node 1, whose entry for it reaches nobody.  The client sends it again, to
node 2, which has been elected by node 3 and commits it. -/
def resentRun : List Event :=
  [.electionTimer 1 1, .deliver 0, .deliver 2, .clientSend 9 1 writeRequest, .deliver 5,
    .electionTimer 2 5, .deliver 9, .deliver 10, .clientSend 9 2 writeRequest, .deliver 13,
    .deliver 15, .deliver 16, .heartbeatTimer 2, .deliver 19]

-- a request that reaches a node that does not lead has no entry at all
example : ((ofIds [1, 2, 3]).run
    [.clientSend 9 2 ⟨7, 1, .put (Str.lit "k") (Str.lit "a")⟩, .deliver 0]).placings = [] := by
  decide +kernel

/-- The request is sent once, to node 1, which commits it, and then another client's write.  Then
a second copy of the request arrives. -/
def copiedRun : List Event :=
  [.electionTimer 1 1, .deliver 0, .deliver 2, .clientSend 9 1 writeRequest, .deliver 5, .deliver 6,
    .deliver 8, .submit 1 0 0 (.put (Str.lit "k") (Str.lit "b")), .deliver 10, .deliver 12,
    .deliver 5, .deliver 13, .deliver 15]

end Cluster

end SimKV
