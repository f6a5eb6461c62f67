/-
# Faults come to an end

The fault injector crashes a node only if it runs, and schedules its restart; nobody asks
whether the node is still down when the restart comes.  It need not be asked: a node runs,
or exactly one restart of it is queued, never both (`Tended`), and so `restart` never
finds a running node.

It cuts the network in two and schedules the end of it; an earlier partition that ends
ends the later one too.  As long as the network is cut, the end of it is queued
(`Parted`).  The groups are made of the ids of the nodes, and clients have ids too: during
every partition no client reaches any node, on either side (`partition_isolates`).
-/
import SimKV.Harness.RunnerQueue
import SimKV.Raft.Mirror

namespace SimKV

/-! ## Nodes that crash and come back -/

namespace Node

variable {M : Medium} (s : Node M) (t : Nat)

theorem handle_crash_running (hrun : s.running = true) :
    (s.handle t .crash).running = false := by
  rw [handle, if_pos hrun, crash]
  split
  · obtain ⟨es, he⟩ := s.stop.dropClients_frame
    exact he ▸ rfl
  · split
    · rfl
    · rename_i kv _
      obtain ⟨es, he⟩ := ({ s.stop with kv := kv } : Node M).dropClients_frame
      exact he ▸ rfl

/-- Only a crash stops a node, and only a restart starts it. -/
theorem handle_running {inp : Input M} (hi : s.Rested) (hc : inp ≠ .crash) (hr : inp ≠ .restart) :
    (s.handle t inp).running = s.running := by
  cases hrun : s.running with
  | true => exact (Moves.kept (s.handle_moves t inp hi).1).running hc hrun
  | false =>
    obtain ⟨tm, prs, es, he⟩ := s.handle_down t hrun hr
    rw [he]
    exact hrun

/-- The restart of a node that is down. -/
theorem restart_rested (hi : s.Rested) (hrun : s.running = false) :
    s.restart.state.running = true ∧ s.restart.state.Rested := by
  have heq : s.handle 0 .restart = s.restart.state := by
    rw [handle, if_neg (by rw [hrun]; exact Bool.false_ne_true)]
  rw [← heq]
  exact ⟨s.handle_restart 0 hi, (s.handle_moves 0 .restart hi).2⟩

end Node

namespace Runner

open Sim

variable {M : Medium} {cfg : RunConfig} {s s' : Sim M} {ph : Phase}

/-- What nodes schedule. -/
def Action.routine : Action M → Bool
  | .deliver _ _ _ _ => true
  | .electionTimer _ _ => true
  | .heartbeatTimer _ => true
  | .readTimer _ _ => true
  | _ => false

theorem Sending.routine {net : Network Handler} {src dst : NodeId} {m : Msg M.Blob} {delay : Nat}
    {a : Action M} (h : Sending cfg net src dst m (.schedule delay a)) : a.routine = true := by
  cases h with
  | copy fn g _ _ => rfl

theorem Emission.routine {net : Network Handler} {n : NodeId} {out : List (Effect M)} {delay : Nat}
    {a : Action M} (h : Emission cfg net n out (.schedule delay a)) : a.routine = true := by
  cases h with
  | send _ hc => exact hc.routine
  | timer _ hc => cases hc <;> rfl

def Action.isRestart (n : NodeId) : Action M → Bool
  | .restart m => m == n
  | _ => false

theorem Action.isRestart_of_routine {a : Action M} (h : a.routine = true) (n : NodeId) :
    a.isRestart n = false := by
  cases a with
  | restart m => cases h
  | _ => rfl

/-! ## A restart for every node that is down -/

/-- Of every node, `T` says how many restarts are queued, the node itself counting for one if it
runs; it is there to receive if and only if it runs. -/
structure Tended (cfg : RunConfig) (T : NodeId → Nat) (s : Sim M) : Prop where
  rested : ∀ n, (s.world.node n).Rested
  total : ∀ n ∈ cfg.ids, count (Action.isRestart n) s + (s.world.node n).running.toNat = T n
  handler : ∀ n ∈ cfg.ids, s.world.net.handlers.find? n =
    if (s.world.node n).running then some (.node n) else none
  due : ∀ e ∈ s.queue.heap, ∀ n, e.action = .restart n →
    n ∈ cfg.ids ∧ e.time ≤ s.clock + cfg.fault.crashMaxDown

namespace Tended

variable {T : NodeId → Nat}

/-- Changes to other parts of the world. -/
theorem put (h : Tended cfg T s) {w : World M} (hnode : w.node = s.world.node)
    (hh : ∀ n ∈ cfg.ids, w.net.handlers.find? n = s.world.net.handlers.find? n) :
    Tended cfg T (put w s) where
  rested n := by
    change (w.node n).Rested
    rw [hnode]
    exact h.rested n
  total n hn := by
    change count _ s + (w.node n).running.toNat = _
    rw [hnode]
    exact h.total n hn
  handler n hn := by
    change w.net.handlers.find? n = if (w.node n).running then _ else _
    rw [hnode, hh n hn]
    exact h.handler n hn
  due := h.due

/-- Calls other than for a restart. -/
theorem call (h : Tended cfg T s) (c : Call M)
    (hc : ∀ delay a, c = .schedule delay a → ∀ n, a.isRestart n = false) :
    Tended cfg T (call s c) := by
  cases c with
  | draw g => exact ⟨h.rested, h.total, h.handler, h.due⟩
  | cancel x => exact ⟨h.rested, h.total, h.handler, h.due⟩
  | schedule delay a =>
    refine ⟨h.rested, fun n hn => ?_, h.handler, fun e he n hen => ?_⟩
    · rw [count_schedule, hc delay a rfl n]
      exact h.total n hn
    · rcases mem_call_schedule.mp he with rfl | he
      · have hself := hc delay a rfl n
        rw [show a = .restart n from hen] at hself
        exact absurd hself (by simp [Action.isRestart])
      · exact h.due e he n hen

theorem calls {P : Call M → Prop} (h : Tended cfg T s) (hcalls : Calls P s s')
    (hP : ∀ delay a, P (.schedule delay a) → a.routine = true) : Tended cfg T s' :=
  hcalls.keeps (I := Tended cfg T) (fun _ c hc ht => ht.call c fun delay a ha n =>
    Action.isRestart_of_routine (hP delay a (ha ▸ hc)) n) h

/-- A restart is scheduled. -/
theorem restart (h : Tended cfg T s) {n : NodeId} (hn : n ∈ cfg.ids) {delay : Nat}
    (hd : delay ≤ cfg.fault.crashMaxDown) :
    Tended cfg (Function.update T n (T n + 1)) (Runner.call s (.schedule delay (.restart n))) := by
  refine ⟨h.rested, fun m hm => ?_, h.handler, fun e he m hem => ?_⟩
  · rw [count_schedule]
    change count _ s + (n == m).toNat + (s.world.node m).running.toNat = _
    have htotal := h.total m hm
    by_cases hmn : m = n
    · subst hmn
      rw [Function.update_self, beq_self_eq_true, Bool.toNat_true]
      omega
    · rw [Function.update_of_ne hmn, beq_false_of_ne (Ne.symm hmn), Bool.toNat_false]
      exact htotal
  · rcases mem_call_schedule.mp he with rfl | he
    · cases hem
      exact ⟨hn, Nat.le_trans (Nat.mod_le _ _) (Nat.add_le_add_left hd _)⟩
    · exact h.due e he m hem

theorem congr (h : Tended cfg T s) {T' : NodeId → Nat} (hT : ∀ n ∈ cfg.ids, T n = T' n) :
    Tended cfg T' s :=
  ⟨h.rested, fun n hn => (h.total n hn).trans (hT n hn), h.handler, h.due⟩

/-- Node `n` comes to another state: what it counts for may change, and so may its handler. -/
theorem turn (h : Tended cfg T s) (n : NodeId) (x : Option String) {st : Node M}
    (hrest : st.Rested) (net : Network Handler)
    (hself : n ∈ cfg.ids →
      net.handlers.find? n = if st.running then some (.node n) else none)
    (hother : ∀ m, m ≠ n → net.handlers.find? m = s.world.net.handlers.find? m) :
    Tended cfg (Function.update T n (count (Action.isRestart n) s + st.running.toNat))
      (Runner.put ({ s.world with net := net }.settle n st x) s) := by
  let w := ({ s.world with net := net } : World M).settle n st x
  have hnode : w.node n = { st with out := [], applying := none } := Function.update_self _ _ _
  have hnode' : ∀ m, m ≠ n → w.node m = s.world.node m := fun m hm => Function.update_of_ne hm _ _
  refine ⟨fun m => ?_, fun m hm => ?_, fun m hm => ?_, h.due⟩
  · change (w.node m).Rested
    by_cases hmn : m = n
    · rw [hmn, hnode]
      exact ⟨rfl, hrest.2⟩
    · rw [hnode' m hmn]
      exact h.rested m
  · change count _ s + (w.node m).running.toNat = _
    by_cases hmn : m = n
    · rw [hmn, hnode, Function.update_self]
    · rw [hnode' m hmn, Function.update_of_ne hmn]
      exact h.total m hm
  · change net.handlers.find? m = if (w.node m).running then _ else _
    by_cases hmn : m = n
    · subst hmn
      rw [hnode]
      exact hself hm
    · rw [hnode' m hmn, hother m hmn]
      exact h.handler m hm

/-- Node `n` comes to a state in which it runs or not as before. -/
theorem settle (h : Tended cfg T s) {n : NodeId} {st : Node M} {x : Option String}
    (hrest : st.Rested) (hrun : st.running = (s.world.node n).running) :
    Tended cfg T (Runner.put (s.world.settle n st x) s) := by
  refine (h.turn n x hrest s.world.net (fun hn => hrun ▸ h.handler n hn) fun m _ => rfl).congr
    fun m hm => ?_
  by_cases hmn : m = n
  · subst hmn
    rw [Function.update_self, hrun]
    exact h.total m hm
  · exact Function.update_of_ne hmn _ _

/-- The first event is taken from the queue, and time goes on. -/
theorem popped (h : Tended cfg T s) {t : Sim M} {e : Sim.Event (Action M)}
    (hheap : s.queue.heap = e :: t.queue.heap) (hw : t.world = s.world)
    (hclock : s.clock ≤ t.clock) :
    Tended cfg (fun n => T n - (e.action.isRestart n).toNat) t := by
  refine ⟨hw ▸ h.rested, fun n hn => ?_, hw ▸ h.handler, fun e' he' n hen => ?_⟩
  · have htotal := h.total n hn
    have hcount : count (Action.isRestart n) s =
        count (Action.isRestart n) t + (e.action.isRestart n).toNat := by
      unfold count
      rw [hheap, List.countP_cons]
      cases e.action.isRestart n <;> rfl
    rw [hw]
    omega
  · obtain ⟨hn, hdue⟩ := h.due e' (hheap ▸ List.mem_cons_of_mem _ he') n hen
    exact ⟨hn, Nat.le_trans hdue (Nat.add_le_add_right hclock _)⟩

end Tended

/-- The nodes that have been started. -/
def Phase.started : Phase → NodeId → Bool
  | .booting k, n => decide (n ≤ k)
  | _, _ => true

section Step

variable {T : NodeId → Nat}

theorem RunConfig.Sane.down (hs : cfg.Sane) (g : Prng) :
    (cfg.range cfg.fault.crashMinDown cfg.fault.crashMaxDown g).1 ≤ cfg.fault.crashMaxDown :=
  Nat.le_of_lt (hs.range _ _ g hs.downtime.2.1
    (Nat.lt_of_le_of_lt hs.downtime.2.2 (by decide))).2

/-- A tick keeps the balance: a node that is crashed is scheduled to come back. -/
theorem Injected.tended (hs : cfg.Sane) (h : Injected cfg s s') (ht : Tended cfg T s) :
    Tended cfg T s' := by
  have hdraw : ∀ g, Tended cfg T (call s (.draw g)) := fun g => ht.call _ fun _ _ h => by cases h
  cases h with
  | nothing g => exact hdraw g
  | partition ids split g g' _ _ _ _ =>
    refine Tended.call ?_ _ fun delay a h n => ?_
    · exact (hdraw g').put rfl fun _ _ => rfl
    · cases h
      rfl
  | crash n g g' g'' t hn hrun hcalls =>
    have hstop := (s.world.node n).handle_crash_running s.world.steps hrun
    have hrest := ((s.world.node n).handle_moves s.world.steps .crash (ht.rested n)).2
    have hdown := (hdraw g).turn n ((s.world.node n).raised s.world.steps .crash) hrest
      (s.world.net.removeHandler n)
      (fun _ => by rw [hstop]; exact OrdMap.find?_erase_self _ _)
      (fun m hm => OrdMap.find?_erase_of_ne _ hm)
    have hsent := (hdown.calls hcalls fun _ _ => Emission.routine).call (.draw g'')
      fun _ _ h => by cases h
    refine (hsent.restart hn (hs.down g')).congr fun m hm => ?_
    by_cases hmn : m = n
    · subst hmn
      have htotal := ht.total m hm
      rw [hrun] at htotal
      rw [Function.update_self, Function.update_self, hstop]
      exact htotal
    · rw [Function.update_of_ne hmn, Function.update_of_ne hmn]
  | spike k p g g' _ =>
    refine Tended.call ?_ _ fun delay a h n => ?_
    · exact (hdraw g').put rfl fun _ _ => rfl
    · cases h
      rfl

theorem Outcome.tended (hs : cfg.Sane) {a : Action M} (h : Outcome cfg s a s')
    (hT : ∀ n ∈ cfg.ids, T n + (a.isRestart n).toNat = 1)
    (hids : ∀ n, a.isRestart n = true → n ∈ cfg.ids) (ht : Tended cfg T s) :
    Tended cfg (fun _ => 1) s' := by
  have hsame : (∀ n, a.isRestart n = false) → Tended cfg T s' → Tended cfg (fun _ => 1) s' := by
    intro ha hs'
    refine hs'.congr fun n hn => ?_
    have hn := hT n hn
    rw [ha n] at hn
    exact hn
  have hpost : ∀ {s : Sim M} {T : NodeId → Nat} {delay : Nat} {a : Action M},
      (∀ n, a.isRestart n = false) → Tended cfg T s →
      Tended cfg T (call s (.schedule delay a)) :=
    fun ha h => h.call _ fun _ _ heq => by cases heq; exact ha
  cases h with
  | @node _ n inp _ ha hcalls =>
    have hinp : inp ≠ .crash ∧ inp ≠ .restart ∧ ∀ n, a.isRestart n = false := by
      cases a with
      | deliver fn src dst m =>
        cases fn with
        | node m => cases ha; simp [Action.isRestart]
        | client ci => cases ha
      | electionTimer m gen => cases ha; simp [Action.isRestart]
      | heartbeatTimer m => cases ha; simp [Action.isRestart]
      | readTimer m round => cases ha; simp [Action.isRestart]
      | _ => cases ha
    obtain ⟨hc, hr, ha⟩ := hinp
    refine hsame ha ((ht.settle ?_ ?_).calls hcalls fun _ _ => Emission.routine)
    · exact ((s.world.node n).handle_moves s.world.steps inp (ht.rested n)).2
    · exact (s.world.node n).handle_running s.world.steps (ht.rested n) hc hr
  | @restart n _ hcalls =>
    have hn := hids n (beq_self_eq_true n)
    have hzero := hT n hn
    have htotal := ht.total n hn
    rw [show Action.isRestart n (.restart n : Action M) = true from beq_self_eq_true n] at hzero
    -- no other restart is queued, and the node is down
    have hdown : (s.world.node n).running = false := by
      cases hrun : (s.world.node n).running with
      | false => rfl
      | true =>
        rw [hrun] at htotal
        simp only [Bool.toNat_true] at htotal hzero
        omega
    obtain ⟨hrun, hrest⟩ := (s.world.node n).restart_rested (ht.rested n) hdown
    have hup := ht.turn n (s.world.node n).restart.exception hrest
      (s.world.net.setHandler n (.node n))
      (fun _ => by rw [hrun]; exact OrdMap.find?_insert_self _ _ _)
      (fun m hm => OrdMap.find?_insert_of_ne _ _ hm)
    refine (hup.calls hcalls fun _ _ => Emission.routine).congr fun m hm => ?_
    by_cases hmn : m = n
    · subst hmn
      rw [Function.update_self, hrun]
      simp only [Bool.toNat_true] at hzero ⊢
      omega
    · have hm := hT m hm
      rw [show Action.isRestart m (.restart n : Action M) = false from
        beq_false_of_ne (Ne.symm hmn)] at hm
      rw [Function.update_of_ne hmn]
      exact hm
  | issued _ _ _ _ g _ hcalls _ =>
    have hdraw : Tended cfg T (call s (.draw g)) := ht.call _ fun _ _ h => by cases h
    refine hsame (fun _ => rfl) (hpost (fun _ => rfl) (Tended.calls ?_ hcalls
      fun _ _ => Sending.routine))
    exact hdraw.put rfl fun _ _ => rfl
  | notIssued _ => exact hsame (fun _ => rfl) ht
  | @answered ci _ _ _ _ _ =>
    have hcancel : Tended cfg T (call s (.cancel (.timeout ci))) :=
      ht.call _ fun _ _ h => by cases h
    refine hsame (fun _ => rfl) (hpost (fun _ => rfl) ?_)
    exact hcancel.put rfl fun _ _ => rfl
  | ignored _ => exact hsame (fun _ => rfl) ht
  | gaveUp _ => exact hsame (fun _ => rfl) (hpost (fun _ => rfl) (ht.put rfl fun _ _ => rfl))
  | late _ => exact hsame (fun _ => rfl) ht
  | tick _ h => exact hsame (fun _ => rfl) (hpost (fun _ => rfl) (h.tended hs ht))
  | noTick _ => exact hsame (fun _ => rfl) ht
  | heal => exact hsame (fun _ => rfl) (ht.put rfl fun _ _ => rfl)
  | restore => exact hsame (fun _ => rfl) (ht.put rfl fun _ _ => rfl)

end Step

theorem RunConfig.mem_ids {n : NodeId} : n ∈ cfg.ids ↔ 1 ≤ n ∧ n ≤ cfg.numNodes := by
  unfold RunConfig.ids
  rw [List.mem_map]
  constructor
  · rintro ⟨i, hi, rfl⟩
    exact ⟨Nat.succ_pos i, List.mem_range.mp hi⟩
  · rintro ⟨h₁, h₂⟩
    exact ⟨n - 1, List.mem_range.mpr (Nat.sub_one_lt_of_le h₁ h₂), Nat.sub_add_cancel h₁⟩

/-- Clients have ids of their own. -/
theorem RunConfig.Sane.ne_client (hs : cfg.Sane) {n : NodeId} (hn : n ∈ cfg.ids) (ci : Nat) :
    n ≠ kClientIdBase + ci := by
  rintro rfl
  have hle : 100 + ci ≤ cfg.numNodes := (RunConfig.mem_ids.mp hn).2
  have hlt := hs.nodes.2
  omega

theorem tended_processOne (hs : cfg.Sane) {D : Nat} (hm : Moment cfg ph s) (hdue : s.Due D)
    (h : Tended cfg (fun _ => 1) s) : Tended cfg (fun _ => 1) (s.processOne (act cfg)) := by
  obtain ⟨e, rest, ordered, C, hq, -, hcases⟩ := event_cases cfg hdue
  have hheap : s.queue.heap = e :: rest := by rw [hq]
  have hclock : s.clock ≤ e.time := (hm.sound hs).1.1.due e (hheap ▸ List.mem_cons_self)
  rcases hcases with ⟨hc, heq⟩ | ⟨-, hout⟩
  · rw [heq]
    refine (h.popped (t := { s with
      queue := ⟨rest, ordered.of_cons, C.erase e.seq⟩, clock := e.time }) (e := e) hheap rfl
      hclock).congr fun n hn => ?_
    -- a restart is never cancelled
    have hne : e.action.isRestart n = false := by
      by_contra hne
      refine hm.live hs (e := e) (hheap ▸ List.mem_cons_self) ?_ (by rw [hq]; exact hc)
      cases ha : e.action with
      | restart m => rfl
      | _ => rw [ha] at hne; exact absurd rfl hne
    rw [hne]
    rfl
  · refine hout.tended hs (fun n hn => ?_) (fun n hn => ?_)
      (h.popped (t := s.begin e _) (e := e) hheap rfl hclock)
    · cases e.action.isRestart n <;> rfl
    · cases ha : e.action with
      | restart m =>
        rw [ha] at hn
        rw [← eq_of_beq hn]
        exact (h.due e (hheap ▸ List.mem_cons_self) m ha).1
      | _ => rw [ha] at hn; cases hn

/-- **A node is down if and only if a restart is queued for it.** -/
theorem Moment.tended (hs : cfg.Sane) (h : Moment cfg ph s) :
    Tended cfg (fun n => (ph.started n).toNat) s := by
  induction h with
  | init =>
    refine ⟨fun n => ⟨rfl, Nat.le_refl 0⟩, fun n hn => ?_, fun n _ => rfl,
      fun e he => absurd he List.not_mem_nil⟩
    have hn : ¬ n ≤ 0 := Nat.not_le.mpr (RunConfig.mem_ids.mp hn).1
    rw [Phase.started, decide_eq_false hn]
    rfl
  | @startNode k s h hk ih =>
    obtain ⟨g, heq⟩ := h.startNode_eq
    rw [heq]
    have hrested : (started M cfg (k + 1)).Rested := ⟨rfl, Nat.le_refl 0⟩
    have hup := ih.turn (k + 1) none hrested (s.world.net.setHandler (k + 1) (.node (k + 1)))
      (fun _ => OrdMap.find?_insert_self _ _ _) (fun m hm => OrdMap.find?_insert_of_ne _ _ hm)
    have hput : Tended cfg _ (put (s.world.booted cfg (k + 1)) s) := hup.put rfl fun _ _ => rfl
    refine ((hput.call (.draw g) fun _ _ h => by cases h).call _ fun _ _ h _ => by
      cases h; rfl).congr fun m hm => ?_
    by_cases hmk : m = k + 1
    · subst hmk
      -- it did not run before, and no restart was queued for it
      have htotal := ih.total (k + 1) hm
      have hnot : Phase.started (.booting k) (k + 1) = false :=
        decide_eq_false (Nat.not_succ_le_self k)
      have hnow : Phase.started (.booting (k + 1)) (k + 1) = true :=
        decide_eq_true (Nat.le_refl _)
      rw [hnot, Bool.toNat_false, Nat.add_eq_zero_iff] at htotal
      rw [Function.update_self, htotal.1, hnow]
      rfl
    · have hiff : m ≤ k + 1 ↔ m ≤ k :=
        ⟨fun h => Nat.le_of_lt_succ (Nat.lt_of_le_of_ne h hmk), Nat.le_succ_of_le⟩
      rw [Function.update_of_ne hmk]
      exact congrArg Bool.toNat (decide_eq_decide.mpr hiff.symm)
  | booted _ ih =>
    refine ih.congr fun n hn => ?_
    rw [Phase.started, decide_eq_true (RunConfig.mem_ids.mp hn).2]
    rfl
  | @event ph _ _ h hr hdue _ ih =>
    have hone : (fun n => (ph.started n).toNat) = fun _ => 1 := by
      cases ph <;> first | rfl | cases hr
    rw [hone] at ih ⊢
    exact tended_processOne hs h hdue ih
  | pass _ _ _ hle _ ih =>
    exact ⟨ih.rested, ih.total, ih.handler, fun e he n hen =>
      ⟨(ih.due e he n hen).1, Nat.le_trans (ih.due e he n hen).2 (Nat.add_le_add_right hle _)⟩⟩
  | opened _ _ ih => exact ih
  | startClient _ _ ih =>
    rw [startClient_eq]
    refine Tended.call ?_ _ fun _ _ h _ => by cases h; rfl
    exact ih.put rfl fun n hn => OrdMap.find?_insert_of_ne _ _ (hs.ne_client hn _)
  | startFaults _ ih =>
    rw [startFaults_eq]
    refine Tended.call ?_ _ fun _ _ h _ => by cases h; rfl
    exact ih.put rfl fun _ _ => rfl

/-- A node is down if and only if a restart of it is queued, and then exactly one is.  It is not
cancelled, and it comes within the longest time that the configuration allows.  The node is there
to receive if and only if it runs. -/
theorem down_iff_restart_queued (M : Medium) (cfg : RunConfig) (hs : cfg.Sane) (ph : Phase)
    (s : Sim M) (h : Moment cfg ph s) (hph : ph.runs = true) (n : NodeId) (hn : n ∈ cfg.ids) :
    ((s.world.node n).running = true → ∀ e ∈ s.queue.heap, e.action ≠ .restart n) ∧
    ((s.world.node n).running = false → ∃ e ∈ s.queue.heap, e.action = .restart n ∧
      (∀ e' ∈ s.queue.heap, e'.action = .restart n → e' = e) ∧ e.seq ∉ s.queue.cancelled ∧
      s.clock ≤ e.time ∧ e.time ≤ s.clock + cfg.fault.crashMaxDown) ∧
    s.world.net.handlers.find? n = if (s.world.node n).running then some (.node n) else none := by
  have ht := h.tended hs
  have htotal := ht.total n hn
  have hone : ph.started n = true := by cases ph <;> first | rfl | cases hph
  have hself : ∀ {e : Sim.Event (Action M)}, e.action = .restart n →
      e.action.isRestart n = true := fun h => by rw [h]; exact beq_self_eq_true n
  rw [hone, Bool.toNat_true] at htotal
  refine ⟨fun hrun e he hen => ?_, fun hrun => ?_, ht.handler n hn⟩
  · rw [hrun, Bool.toNat_true, Nat.add_eq_right] at htotal
    exact List.countP_eq_zero.mp htotal e he (hself hen)
  · rw [hrun, Bool.toNat_false, Nat.add_zero] at htotal
    unfold count at htotal
    rw [List.countP_eq_length_filter, List.length_eq_one_iff] at htotal
    obtain ⟨e, hfilter⟩ := htotal
    have hmem : ∀ {e'}, e' ∈ s.queue.heap → e'.action = .restart n → e' = e := by
      intro e' he' hen
      have hin : e' ∈ s.queue.heap.filter fun e => e.action.isRestart n :=
        List.mem_filter.mpr ⟨he', hself hen⟩
      rw [hfilter] at hin
      exact List.mem_singleton.mp hin
    obtain ⟨he, hen⟩ := List.mem_filter.mp (hfilter ▸ List.mem_singleton_self e)
    have haction : e.action = .restart n := by
      cases ha : e.action with
      | restart m => rw [ha] at hen; rw [eq_of_beq hen]
      | _ => rw [ha] at hen; cases hen
    exact ⟨e, he, haction, fun e' he' => hmem he', h.live hs he (by rw [haction]; rfl),
      (h.sound hs).1.1.due e he, (ht.due e he n haction).2⟩

/-- Two nodes that do not hear from each other in time, and faults at every tick: partitions, or
crashes. -/
def twoNodes (partitions : Bool) : RunConfig where
  numNodes := 2
  faultRate := 1
  netCfg := { minLatency := 10 * kSec, maxLatency := 10 * kSec }
  faultCfg :=
    { partitionProb := if partitions then 1 else 0, dropRaiseProb := 0, dupRaiseProb := 0 }
  range lo _ g := (lo, g)

theorem twoNodes_sane (b : Bool) : (twoNodes b).Sane where
  range _ _ _ h _ := ⟨Nat.le_refl _, h⟩
  nodes := by cases b <;> decide
  latency := by cases b <;> decide
  think := by cases b <;> decide
  partitions := by cases b <;> decide
  downtime := by cases b <;> decide
  check := by cases b <;> decide

theorem down_iff_restart_queued_two : ∃ s : Sim Medium.bytes,
    (s.world.node 1).running = false ∧ ∃ e ∈ s.queue.heap, e.action = .restart 1 := by
  have hrun : ((runUpTo Medium.bytes (twoNodes false) (200 * kMsec) 100).map
      fun s => (s.world.node 1).running) = some false := by decide +kernel
  obtain ⟨s, hs, hdown⟩ := Option.map_eq_some_iff.mp hrun
  obtain ⟨e, he, ha, -⟩ := (down_iff_restart_queued Medium.bytes (twoNodes false)
    (twoNodes_sane false) .working s (runUpTo_moment (by decide) hs) rfl 1 (by decide)).2.1 hdown
  exact ⟨s, hdown, e, he, ha⟩

/-! ## Partitions -/

/-- A network that is cut is cut in two, and the end of it is queued. -/
structure Parted (cfg : RunConfig) (s : Sim M) : Prop where
  groups : s.world.net.partitioned = true → ∃ g₀ g₁ : List NodeId, (g₀ ++ g₁).Perm cfg.ids ∧
    g₀ ≠ [] ∧ g₁ ≠ [] ∧ s.world.net.partitionGroup = Network.assign [g₀, g₁]
  heal : s.world.net.partitioned = true → ∃ e ∈ s.queue.heap, e.action = .heal ∧
    e.time ≤ s.clock + cfg.fault.partitionDuration * 2

namespace Parted

theorem put (h : Parted cfg s) {w : World M}
    (hw : w.net.partitioned = s.world.net.partitioned ∧
      w.net.partitionGroup = s.world.net.partitionGroup) : Parted cfg (put w s) where
  groups hp := by
    change ∃ g₀ g₁ : List NodeId, _ ∧ _ ∧ _ ∧ w.net.partitionGroup = _
    rw [hw.2]
    exact h.groups (hw.1 ▸ hp)
  heal hp := h.heal (hw.1 ▸ hp)

theorem call (h : Parted cfg s) (c : Call M) : Parted cfg (call s c) := by
  have hworld := (Calls.one (P := fun _ => True) (s := s) (c := c) trivial).frame
  refine ⟨fun hp => ?_, fun hp => ?_⟩
  · rw [hworld.1] at hp ⊢
    exact h.groups hp
  · rw [hworld.1] at hp
    obtain ⟨e, he, ha, hle⟩ := h.heal hp
    exact ⟨e, mem_call he c, ha, hworld.2 ▸ hle⟩

theorem calls {P : Call M → Prop} (h : Parted cfg s) (hcalls : Calls P s s') : Parted cfg s' :=
  hcalls.keeps (fun _ c _ ht => ht.call c) h

end Parted

theorem Injected.parted (hs : cfg.Sane) (h : Injected cfg s s') (hp : Parted cfg s) :
    Parted cfg s' := by
  cases h with
  | nothing g => exact hp.call _
  | partition ids split g g' g'' hids hlen hsplit =>
    have hbounds := hs.range 1 ids.length g'' (hids.length_eq ▸ hlen) (by
      rw [hids.length_eq, RunConfig.ids, List.length_map, List.length_range]
      exact Nat.lt_trans hs.nodes.2 (by decide))
    rw [← hsplit] at hbounds
    refine ⟨fun _ => ⟨ids.take split, ids.drop split, ?_, ?_, ?_, rfl⟩, fun _ => ?_⟩
    · rw [List.take_append_drop]
      exact hids
    · intro hnil
      have hlength := congrArg List.length hnil
      rw [List.length_take, List.length_nil] at hlength
      omega
    · intro hnil
      have hlength := congrArg List.length hnil
      rw [List.length_drop, List.length_nil] at hlength
      omega
    · refine ⟨_, mem_call_schedule.mpr (.inl rfl), rfl, Nat.le_trans (Nat.mod_le _ _) ?_⟩
      refine Nat.add_le_add_left (Nat.le_of_lt (hs.range _ _ g ?_ ?_).2) _
      · have htwo := hs.partitions.1
        omega
      · exact Nat.lt_of_le_of_lt hs.partitions.2 (by decide)
  | crash n g g' g'' t _ _ hcalls =>
    refine Parted.call (Parted.call (Parted.calls ?_ hcalls) _) _
    exact (hp.call (.draw g)).put ⟨rfl, rfl⟩
  | spike k p g g' _ =>
    refine Parted.call ?_ _
    exact (hp.call (.draw g')).put ⟨rfl, rfl⟩

theorem Outcome.parted (hs : cfg.Sane) {a : Action M} (h : Outcome cfg s a s')
    (hp : a ≠ .heal → Parted cfg s) : Parted cfg s' := by
  by_cases ha : a = .heal
  · subst ha
    cases h with
    | node h _ => cases h
    | heal => exact ⟨fun h => Bool.noConfusion h, fun h => Bool.noConfusion h⟩
  replace hp := hp ha
  cases h with
  | node _ hcalls =>
    refine Parted.calls ?_ hcalls
    exact hp.put ⟨rfl, rfl⟩
  | restart hcalls =>
    refine Parted.calls ?_ hcalls
    exact hp.put ⟨rfl, rfl⟩
  | issued _ _ _ _ g _ hcalls _ =>
    refine Parted.call (Parted.calls ?_ hcalls) _
    exact (hp.call (.draw g)).put ⟨rfl, rfl⟩
  | notIssued _ => exact hp
  | @answered ci _ _ _ _ _ =>
    refine Parted.call ?_ _
    exact (hp.call (.cancel (.timeout ci))).put ⟨rfl, rfl⟩
  | ignored _ => exact hp
  | gaveUp _ =>
    refine Parted.call ?_ _
    exact hp.put ⟨rfl, rfl⟩
  | late _ => exact hp
  | tick _ h => exact (h.parted hs hp).call _
  | noTick _ => exact hp
  | heal => exact absurd rfl ha
  | restore => exact hp.put ⟨rfl, rfl⟩

/-- The first event is taken from the queue, and it does not end a partition. -/
theorem Parted.popped (h : Parted cfg s) {t : Sim M} {e : Sim.Event (Action M)}
    (hheap : s.queue.heap = e :: t.queue.heap) (hw : t.world = s.world) (hclock : s.clock ≤ t.clock)
    (he : e.action ≠ .heal) : Parted cfg t where
  groups := hw ▸ h.groups
  heal hp := by
    obtain ⟨e', he', ha, hle⟩ := h.heal (hw ▸ hp)
    rw [hheap] at he'
    rcases List.mem_cons.mp he' with rfl | he'
    · exact absurd ha he
    · exact ⟨e', he', ha, Nat.le_trans hle (Nat.add_le_add_right hclock _)⟩

theorem parted_processOne (hs : cfg.Sane) {D : Nat} (hm : Moment cfg ph s) (hdue : s.Due D)
    (h : Parted cfg s) : Parted cfg (s.processOne (act cfg)) := by
  obtain ⟨e, rest, ordered, C, hq, -, hcases⟩ := event_cases cfg hdue
  have hheap : s.queue.heap = e :: rest := by rw [hq]
  have hclock : s.clock ≤ e.time := (hm.sound hs).1.1.due e (hheap ▸ List.mem_cons_self)
  rcases hcases with ⟨hc, heq⟩ | ⟨-, hout⟩
  · rw [heq]
    refine h.popped (e := e) hheap rfl hclock fun ha => ?_
    exact hm.live hs (e := e) (hheap ▸ List.mem_cons_self) (by rw [ha]; rfl) (by rw [hq]; exact hc)
  · exact hout.parted hs fun ha => h.popped (t := s.begin e _) (e := e) hheap rfl hclock ha

theorem Moment.parted (hs : cfg.Sane) (h : Moment cfg ph s) : Parted cfg s := by
  induction h with
  | init => exact ⟨fun h => Bool.noConfusion h, fun h => Bool.noConfusion h⟩
  | startNode h _ ih =>
    obtain ⟨g, heq⟩ := h.startNode_eq
    rw [heq]
    refine Parted.call (Parted.call ?_ _) _
    exact ih.put ⟨rfl, rfl⟩
  | booted _ ih => exact ih
  | event h _ hdue _ ih => exact parted_processOne hs h hdue ih
  | pass _ _ _ hle _ ih =>
    refine ⟨ih.groups, fun hp => ?_⟩
    obtain ⟨e, he, ha, hdue⟩ := ih.heal hp
    exact ⟨e, he, ha, Nat.le_trans hdue (Nat.add_le_add_right hle _)⟩
  | opened _ _ ih => exact ih
  | startClient _ _ ih =>
    rw [startClient_eq]
    refine Parted.call ?_ _
    exact ih.put ⟨rfl, rfl⟩
  | startFaults _ ih =>
    rw [startFaults_eq]
    refine Parted.call ?_ _
    exact ih.put ⟨rfl, rfl⟩

/-- **What a partition does.**  The end of it is queued, and not cancelled.  It cuts the nodes in
two groups, neither of them empty, and leaves each group connected.  Nothing is sent from a client
or to a client, whichever the node: `send` does not even draw. -/
theorem partition_isolates (M : Medium) (cfg : RunConfig) (hs : cfg.Sane) (ph : Phase) (s : Sim M)
    (h : Moment cfg ph s) (hp : s.world.net.partitioned = true) :
    (∃ e ∈ s.queue.heap, e.action = .heal ∧ e.seq ∉ s.queue.cancelled ∧ s.clock ≤ e.time ∧
      e.time ≤ s.clock + cfg.fault.partitionDuration * 2) ∧
    (∃ g : List NodeId, (∃ a ∈ cfg.ids, a ∈ g) ∧ (∃ a ∈ cfg.ids, a ∉ g) ∧
      ∀ a ∈ cfg.ids, ∀ b ∈ cfg.ids, s.world.net.cutOff a b = false ↔ (a ∈ g ↔ b ∈ g)) ∧
    ∀ ci id m, s.exec (send cfg (kClientIdBase + ci) id m) = s ∧
      s.exec (send cfg id (kClientIdBase + ci) m) = s := by
  obtain ⟨g₀, g₁, hids, h₀, h₁, hgroup⟩ := (h.parted hs).groups hp
  have hmem : ∀ {a}, a ∈ cfg.ids ↔ a ∈ g₀ ∨ a ∈ g₁ := fun {a} =>
    hids.mem_iff.symm.trans List.mem_append
  have hdisj : ∀ {a}, a ∈ g₀ → a ∉ g₁ := by
    have hnodup : cfg.ids.Nodup := List.nodup_range.map fun a b hab => Nat.succ.inj hab
    have hapart := (List.nodup_append.mp (hids.nodup_iff.mpr hnodup)).2.2
    exact fun {a} ha hb => hapart a ha a hb rfl
  have hnet : s.world.net = s.world.net.partition [g₀, g₁] := by
    unfold Network.partition
    rw [← hgroup, ← hp]
  refine ⟨?_, ⟨g₁, ?_, ?_, fun a ha b hb => ?_⟩, fun ci id m => ?_⟩
  · obtain ⟨e, he, haction, hle⟩ := (h.parted hs).heal hp
    exact ⟨e, he, haction, h.live hs he (by rw [haction]; rfl), (h.sound hs).1.1.due e he, hle⟩
  · obtain ⟨a, ha⟩ := List.exists_mem_of_ne_nil g₁ h₁
    exact ⟨a, hmem.mpr (.inr ha), ha⟩
  · obtain ⟨a, ha⟩ := List.exists_mem_of_ne_nil g₀ h₀
    exact ⟨a, hmem.mpr (.inl ha), hdisj ha⟩
  · have hfind : ∀ c ∈ cfg.ids, s.world.net.partitionGroup.find? c =
        some (if c ∈ g₁ then 1 else 0) := by
      intro c hc
      rw [hgroup, Network.find?_assign_two]
      by_cases hc₁ : c ∈ g₁
      · rw [if_pos hc₁, if_pos hc₁]
      · rw [if_neg hc₁, if_neg hc₁, if_pos ((hmem.mp hc).resolve_right hc₁)]
    unfold Network.cutOff
    rw [hp, hfind a ha, hfind b hb]
    by_cases ha₁ : a ∈ g₁ <;> by_cases hb₁ : b ∈ g₁ <;> simp [ha₁, hb₁]
  · have hout : kClientIdBase + ci ∉ g₀ ++ g₁ := fun hin =>
      hs.ne_client (hids.mem_iff.mp hin) ci rfl
    have hcut : ∀ {a b : NodeId}, a ∉ g₀ ++ g₁ ∨ b ∉ g₀ ++ g₁ → ∀ m : Msg M.Blob,
        s.exec (send cfg a b m) = s := by
      intro a b hab m
      change s.exec (if s.world.net.cutOff a b then _ else _) = s
      rw [hnet, Network.cutOff_of_not_listed hab]
      rfl
    exact ⟨hcut (.inl hout) m, hcut (.inr hout) m⟩

theorem partition_isolates_two : ∃ s : Sim Medium.bytes, s.world.net.partitioned = true ∧
    ∀ m, s.exec (send (twoNodes true) (kClientIdBase + 0) 1 m) = s := by
  have hrun : ((runUpTo Medium.bytes (twoNodes true) (200 * kMsec) 100).map
      fun s => s.world.net.partitioned) = some true := by decide +kernel
  obtain ⟨s, hs, hp⟩ := Option.map_eq_some_iff.mp hrun
  exact ⟨s, hp, fun m => ((partition_isolates Medium.bytes (twoNodes true) (twoNodes_sane true)
    .working s (runUpTo_moment (by decide) hs) hp).2.2 0 1 m).1⟩

end Runner

end SimKV
