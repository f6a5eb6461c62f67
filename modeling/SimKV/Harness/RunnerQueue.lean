/-
# Which events of a run can be cancelled

The objects cancel by id, and an id that was never set is 0: the id of the first event of
the run.  That event is an election timer, the ids that are remembered belong to events
that their owners remember, and no two members remember one event (`Booked`).  So a
delivery, a restart, the end of a partition or of a spike and a client's next operation are
never cancelled (`Moment.live`).
-/
import SimKV.Harness.RunnerTime
import SimKV.Runs

namespace SimKV.Runner

open Sim

variable {M : Medium} {cfg : RunConfig} {s s' : Sim M} {ph : Phase}

/-! ## Outcomes as calls -/

/-- What calls keep, and changes that leave the remembered ids alone, outcomes keep. -/
theorem Outcome.keeps {I : Sim M → Prop} {a : Action M} (h : Outcome cfg s a s')
    (hput : ∀ s w, w.ids = s.world.ids → I s → I (put w s)) (hcall : ∀ s c, I s → I (call s c))
    (hs : I s) : I s' := by
  have hcalls : ∀ {P : Call M → Prop} {s s' : Sim M}, Calls P s s' → I s → I s' :=
    fun h => h.keeps fun s c _ => hcall s c
  cases h with
  | node _ h => exact hcalls h (hput _ _ rfl hs)
  | restart h => exact hcalls h (hput _ _ rfl hs)
  | issued _ _ _ _ g _ h _ => exact hcall _ _ (hcalls h (hput _ _ rfl (hcall _ (.draw g) hs)))
  | notIssued _ => exact hs
  | answered _ _ => exact hcall _ _ (hput _ _ rfl (hcall _ (.cancel _) hs))
  | ignored _ => exact hs
  | gaveUp _ => exact hcall _ _ (hput _ _ rfl hs)
  | late _ => exact hs
  | tick _ h =>
    refine hcall _ _ ?_
    cases h with
    | nothing g => exact hcall _ _ hs
    | partition ids split g g' _ _ _ _ => exact hcall _ _ (hput _ _ rfl (hcall _ (.draw g') hs))
    | crash n g g' g'' t _ _ h =>
      exact hcall _ _ (hcall _ _ (hcalls h (hput _ _ rfl (hcall _ (.draw g) hs))))
    | spike k p g g' _ => exact hcall _ _ (hput _ _ rfl (hcall _ (.draw g') hs))
  | noTick _ => exact hs
  | heal => exact hput _ _ rfl hs
  | restore => exact hput _ _ rfl hs

/-! ## Boot -/

/-- The node that `boot` leaves. -/
def started (M : Medium) (cfg : RunConfig) (n : NodeId) : Node M :=
  { Node.init M n (cfg.members.peers n) (cfg.raft n) with
    running := true, timers := ⟨true, 1, false⟩ }

/-- A node that was not started is as it was constructed. -/
def Fresh (cfg : RunConfig) (ph : Phase) (s : Sim M) : Prop :=
  ∀ k, ph = .booting k → ∀ n, k < n →
    s.world.node n = Node.init M n (cfg.members.peers n) (cfg.raft n)

theorem Moment.fresh (h : Moment cfg ph s) : Fresh cfg ph s := by
  induction h with
  | init => exact fun _ _ _ _ => rfl
  | @startNode k s _ hk ih =>
    intro k' hk' n hn
    cases hk'
    have hne : n ≠ k + 1 := by rintro rfl; exact Nat.lt_irrefl _ hn
    have hcalls := perform_calls cfg (k + 1) (s.world.node (k + 1)).start.state.out
      (put (s.world.start (k + 1)) s)
    refine (congrArg (fun w => w.node n) hcalls.frame.1).trans ?_
    exact (Function.update_of_ne hne _ _).trans (ih k rfl n (Nat.lt_of_succ_lt hn))
  | event _ hr _ _ _ => intro k hk; subst hk; cases hr
  | pass _ hr _ _ _ _ => intro k hk; subst hk; cases hr
  | _ => intro k hk; cases hk

/-- Node `n` is the one that `boot` leaves. -/
def World.booted (cfg : RunConfig) (n : NodeId) (w : World M) : World M :=
  { w with
    net := w.net.setHandler n (.node n)
    node := Function.update w.node n (started M cfg n) }

/-- A node that is started for the first time schedules its election timer. -/
theorem Moment.startNode_eq {k : Nat} (h : Moment cfg (.booting k) s) :
    ∃ g, s.exec (Runner.startNode cfg (k + 1)) =
      call (call (put (s.world.booted cfg (k + 1)) s) (.draw g))
        (.schedule (cfg.range electionTimeoutLo (2 * electionTimeoutLo + 1) s.prng).1
          (.electionTimer (k + 1) 1)) := by
  have hstart : (s.world.node (k + 1)).start =
      .ok { started M cfg (k + 1) with out := [.timer (.scheduleElection 1)] } := by
    rw [h.fresh k rfl (k + 1) (Nat.lt_succ_self k)]
    exact Cluster.start_init M (k + 1) _ _
  have hworld : s.world.start (k + 1) = s.world.booted cfg (k + 1) := by
    unfold World.start World.booted
    rw [hstart]
    exact congrArg (fun e => { s.world.booted cfg (k + 1) with raised := e }) Option.or_none
  refine ⟨(cfg.range electionTimeoutLo (2 * electionTimeoutLo + 1) s.prng).2, ?_⟩
  change (put (s.world.start (k + 1)) s).exec
    (perform cfg (k + 1) (s.world.node (k + 1)).start.state.out) = _
  rw [hworld, hstart, ← exec_arm rfl]
  rfl

/-! ## Ids -/

/-- What is queued after an event was scheduled. -/
theorem mem_call_schedule {delay : Nat} {a : Action M} {e : Sim.Event (Action M)} :
    e ∈ (call s (.schedule delay a)).queue.heap ↔
      e = ⟨(s.clock + delay) % 2 ^ 64, s.nextSeq, a⟩ ∨ e ∈ s.queue.heap :=
  List.mem_orderedInsert _

/-- A call removes nothing from the queue. -/
theorem mem_call {e : Sim.Event (Action M)} (he : e ∈ s.queue.heap) (c : Call M) :
    e ∈ (call s c).queue.heap := by
  cases c with
  | schedule delay a => exact mem_call_schedule.mpr (.inr he)
  | _ => exact he

/-- How many events of a kind are queued. -/
def count (f : Action M → Bool) (s : Sim M) : Nat := s.queue.heap.countP fun e => f e.action

theorem count_schedule (f : Action M → Bool) (s : Sim M) (delay : Nat) (a : Action M) :
    count f (call s (.schedule delay a)) = count f s + (f a).toNat := by
  refine ((s.schedule_heap delay a).countP_eq _).trans ?_
  rw [List.countP_cons]
  cases f a <;> rfl

/-- Calls that schedule no event of a kind. -/
theorem Calls.count_eq {P : Call M → Prop} (h : Calls P s s') {f : Action M → Bool}
    (hP : ∀ delay a, P (.schedule delay a) → f a = false) : count f s' = count f s := by
  refine h.keeps (I := fun t => count f t = count f s) (fun t c hc ht => ?_) rfl
  cases c with
  | schedule delay a => rw [count_schedule, hP delay a hc, ht]; rfl
  | _ => exact ht

structure Booked (s : Sim M) : Prop where
  seq_lt : ∀ e ∈ s.queue.heap, e.seq < s.nextSeq
  ids_lt : ∀ x, s.world.ids x = 0 ∨ s.world.ids x < s.nextSeq
  inj : ∀ x y, s.world.ids x = s.world.ids y → s.world.ids x ≠ 0 → x = y
  cancelled_lt : ∀ q ∈ s.queue.cancelled, q = 0 ∨ q < s.nextSeq
  /-- An event that nobody remembers. -/
  free : ∀ e ∈ s.queue.heap, e.action.slot? = none →
    e.seq ≠ 0 ∧ e.seq ∉ s.queue.cancelled ∧ ∀ x, s.world.ids x ≠ e.seq

namespace Booked

theorem put (h : Booked s) {w : World M} (hw : w.ids = s.world.ids) : Booked (put w s) where
  seq_lt := h.seq_lt
  ids_lt x := by
    change w.ids x = 0 ∨ w.ids x < _
    rw [hw]
    exact h.ids_lt x
  inj x y := by
    change w.ids x = w.ids y → w.ids x ≠ 0 → _
    rw [hw]
    exact h.inj x y
  cancelled_lt := h.cancelled_lt
  free e he hx := by
    change _ ∧ _ ∧ ∀ x, w.ids x ≠ _
    rw [hw]
    exact h.free e he hx

theorem cancel (h : Booked s) (x : Slot) : Booked (call s (.cancel x)) where
  seq_lt := h.seq_lt
  ids_lt := h.ids_lt
  inj := h.inj
  cancelled_lt q hq := by
    rcases Finset.mem_insert.mp hq with rfl | hq
    · exact h.ids_lt x
    · exact h.cancelled_lt q hq
  free e he hx := by
    obtain ⟨h₀, hc, hids⟩ := h.free e he hx
    refine ⟨h₀, fun hq => ?_, hids⟩
    rcases Finset.mem_insert.mp hq with hq | hq
    · exact hids x hq.symm
    · exact hc hq

/-- An id that is 0 or was given out is not the next one. -/
theorem ne_next {q n : Nat} (hq : q = 0 ∨ q < n) (hpos : 0 < n) : q ≠ n := by
  rcases hq with rfl | hq
  · exact Nat.ne_of_lt hpos
  · exact Nat.ne_of_lt hq

theorem post (h : Booked s) (hpos : 0 < s.nextSeq) {delay : Nat} {a : Action M}
    (ha : a.slot? = none) : Booked (call s (.schedule delay a)) := by
  have hids : (call s (.schedule delay a)).world.ids = s.world.ids := by
    rw [call_schedule, ha]
    rfl
  refine ⟨fun e he => ?_, fun x => ?_, ?_, fun q hq => ?_, fun e he hx => ?_⟩
  · rcases mem_call_schedule.mp he with rfl | he
    · exact Nat.lt_succ_self _
    · exact Nat.lt_succ_of_lt (h.seq_lt e he)
  · rw [hids]
    exact (h.ids_lt x).imp_right Nat.lt_succ_of_lt
  · rw [hids]
    exact h.inj
  · exact (h.cancelled_lt q hq).imp_right Nat.lt_succ_of_lt
  · rw [hids]
    rcases mem_call_schedule.mp he with rfl | he
    · exact ⟨Nat.ne_of_gt hpos, fun hq => ne_next (h.cancelled_lt _ hq) hpos rfl,
        fun x => ne_next (h.ids_lt x) hpos⟩
    · exact h.free e he hx

theorem arm (h : Booked s) {delay : Nat} {a : Action M} {x : Slot} (ha : a.slot? = some x) :
    Booked (call s (.schedule delay a)) := by
  have hids : (call s (.schedule delay a)).world.ids = Function.update s.world.ids x s.nextSeq := by
    rw [call_schedule, ha]
    rfl
  have hother : ∀ {y}, y ≠ x → Function.update s.world.ids x s.nextSeq y = s.world.ids y :=
    fun hy => Function.update_of_ne hy _ _
  have hself : Function.update s.world.ids x s.nextSeq x = s.nextSeq := Function.update_self _ _ _
  refine ⟨fun e he => ?_, fun y => ?_, fun y z => ?_, fun q hq => ?_, fun e he hx => ?_⟩
  · rcases mem_call_schedule.mp he with rfl | he
    · exact Nat.lt_succ_self _
    · exact Nat.lt_succ_of_lt (h.seq_lt e he)
  · rw [hids]
    by_cases hy : y = x
    · subst hy
      rw [hself]
      exact .inr (Nat.lt_succ_self _)
    · rw [hother hy]
      exact (h.ids_lt y).imp_right Nat.lt_succ_of_lt
  · rw [hids]
    intro heq hne
    -- the new id is not one of the old ones
    have hnew : ∀ {u}, u ≠ x → s.world.ids u = s.nextSeq → s.nextSeq ≠ 0 → False :=
      fun _ hu h₀ => ne_next (h.ids_lt _) (Nat.pos_of_ne_zero h₀) hu
    by_cases hy : y = x
    · by_cases hz : z = x
      · exact hy.trans hz.symm
      · rw [hy, hself] at heq hne
        rw [hother hz] at heq
        exact (hnew hz heq.symm hne).elim
    · rw [hother hy] at heq hne
      by_cases hz : z = x
      · rw [hz, hself] at heq
        exact (hnew hy heq (heq ▸ hne)).elim
      · rw [hother hz] at heq
        exact h.inj y z heq hne
  · exact (h.cancelled_lt q hq).imp_right Nat.lt_succ_of_lt
  · rcases mem_call_schedule.mp he with rfl | he
    · rw [ha] at hx
      cases hx
    · obtain ⟨h₀, hc, hfree⟩ := h.free e he hx
      refine ⟨h₀, hc, fun y => ?_⟩
      rw [hids]
      by_cases hy : y = x
      · rw [hy, hself]
        exact Nat.ne_of_gt (h.seq_lt e he)
      · rw [hother hy]
        exact hfree y

theorem call (h : Booked s) (hpos : 0 < s.nextSeq) (c : Call M) : Booked (call s c) := by
  cases c with
  | draw g => exact ⟨h.seq_lt, h.ids_lt, h.inj, h.cancelled_lt, h.free⟩
  | cancel x => exact h.cancel x
  | schedule delay a =>
    cases ha : a.slot? with
    | none => exact h.post hpos ha
    | some x => exact h.arm ha

/-- Fewer events, at a later time. -/
theorem popped (h : Booked s) {t : Sim M} (hheap : ∀ e ∈ t.queue.heap, e ∈ s.queue.heap)
    (hC : ∀ q ∈ t.queue.cancelled, q ∈ s.queue.cancelled) (hn : t.nextSeq = s.nextSeq)
    (hw : t.world = s.world) : Booked t where
  seq_lt e he := hn ▸ h.seq_lt e (hheap e he)
  ids_lt x := by
    rw [hw, hn]
    exact h.ids_lt x
  inj := hw ▸ h.inj
  cancelled_lt q hq := hn ▸ h.cancelled_lt q (hC q hq)
  free e he hx := by
    obtain ⟨h₀, hc, hids⟩ := h.free e (hheap e he) hx
    exact ⟨h₀, fun hq => hc (hC _ hq), hw ▸ hids⟩

end Booked

theorem call_nextSeq (s : Sim M) (c : Call M) : s.nextSeq ≤ (call s c).nextSeq := by
  cases c with
  | schedule delay a => exact Nat.le_succ _
  | _ => exact Nat.le_refl _

theorem booked_processOne (cfg : RunConfig) {D : Nat} (hdue : s.Due D) (h : Booked s)
    (hpos : 0 < s.nextSeq) :
    Booked (s.processOne (act cfg)) ∧ 0 < (s.processOne (act cfg)).nextSeq := by
  obtain ⟨e, rest, ordered, C, hq, -, ⟨-, heq⟩ | ⟨-, hout⟩⟩ := event_cases cfg hdue
  · rw [heq]
    refine ⟨h.popped (fun e' he' => ?_) (fun q hq' => ?_) rfl rfl, hpos⟩
    · rw [hq]
      exact List.mem_cons_of_mem _ he'
    · rw [hq]
      exact Finset.mem_of_mem_erase hq'
  · refine hout.keeps (I := fun t => Booked t ∧ 0 < t.nextSeq) (fun t w hw ht => ?_)
      (fun t c ht => ?_) ⟨h.popped (fun e' he' => ?_) (fun q hq' => ?_) rfl rfl, hpos⟩
    · exact ⟨ht.1.put hw, ht.2⟩
    · exact ⟨ht.1.call ht.2 c, Nat.lt_of_lt_of_le ht.2 (call_nextSeq t c)⟩
    · rw [hq]
      exact List.mem_cons_of_mem _ he'
    · rw [hq]
      exact Finset.mem_of_mem_erase hq'

theorem Moment.booked (hs : cfg.Sane) (h : Moment cfg ph s) :
    Booked s ∧ (ph = .booting 0 ∨ 0 < s.nextSeq) := by
  have hrun : ∀ {ph : Phase} {n : Nat}, ph.runs = true → ph = .booting 0 ∨ 0 < n → 0 < n := by
    rintro ph n hr (rfl | h)
    · cases hr
    · exact h
  induction h with
  | init =>
    refine ⟨⟨fun e he => ?_, fun x => .inl rfl, fun x y _ h₀ => absurd rfl h₀, fun q hq => ?_,
      fun e he => ?_⟩, .inl rfl⟩
    · exact absurd he List.not_mem_nil
    · exact absurd hq (Finset.notMem_empty q)
    · exact absurd he List.not_mem_nil
  | startNode h _ ih =>
    obtain ⟨g, heq⟩ := h.startNode_eq
    rw [heq]
    refine ⟨Booked.arm ?_ rfl, .inr (Nat.succ_pos _)⟩
    obtain ⟨h₁, h₂, h₃, h₄, h₅⟩ := ih.1
    exact ⟨h₁, h₂, h₃, h₄, h₅⟩
  | booted _ ih =>
    refine ⟨ih.1, .inr (ih.2.resolve_left fun h₀ => ?_)⟩
    exact Nat.ne_of_gt hs.nodes.1 (Phase.booting.inj h₀)
  | event _ hr hdue _ ih =>
    obtain ⟨hb, hpos⟩ := booked_processOne cfg hdue ih.1 (hrun hr ih.2)
    exact ⟨hb, .inr hpos⟩
  | pass _ hr _ _ _ ih =>
    exact ⟨ih.1.popped (fun _ he => he) (fun _ hq => hq) rfl rfl, .inr (hrun hr ih.2)⟩
  | opened _ _ ih => exact ⟨ih.1, .inr (hrun rfl ih.2)⟩
  | @startClient k s _ _ ih =>
    have hpos := ih.2.resolve_left (by simp)
    rw [startClient_eq]
    refine ⟨Booked.post ?_ ?_ rfl, .inr (Nat.succ_pos _)⟩
    · exact ih.1.put rfl
    · exact hpos
  | @startFaults s _ ih =>
    rw [startFaults_eq]
    refine ⟨Booked.arm ?_ rfl, .inr (Nat.succ_pos _)⟩
    exact ih.1.put rfl

/-- An event that nobody remembers is never cancelled. -/
theorem Moment.live (hs : cfg.Sane) (h : Moment cfg ph s) {e : Sim.Event (Action M)}
    (he : e ∈ s.queue.heap) (hx : e.action.slot? = none) : e.seq ∉ s.queue.cancelled :=
  ((h.booked hs).1.free e he hx).2.1

end SimKV.Runner
