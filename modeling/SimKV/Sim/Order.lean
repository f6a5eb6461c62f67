/-
# In what order the simulator runs its events

Actions change the queue while it is drained, cancellation is a set of ids that may
hold ids of events long gone, and `run_for` moves the clock past the last event.  The
machine here unrolls all of that into steps: an outside call, the begin of a
`run_for`, one event of its loop, its return.  A state in the middle of a `run_for`
that never returns is a state like any other.

What holds between steps is `Sound`: what is queued lies ahead of the clock and of
everything that was run, under ids of its own; and each event ever scheduled is
queued, was run, or was dropped because `cancel` had been called with its id.  The
promises of the simulator are read off it (`InOrder`).
-/
import SimKV.Sim.Simulator
import Mathlib.Logic.Relation

namespace SimKV.Sim

variable {A W : Type}

/-! ## The machine -/

inductive Mode where
  | idle
  /-- Inside `run_for`. -/
  | running (deadline : Nat)

structure Machine (A W : Type) where
  sim : Simulator A W
  mode : Mode

/-- One call from outside, or one round of the loop of `run_for`. -/
inductive Step (act : A → Script A W) : Machine A W → Machine A W → Prop
  | schedule (s : Simulator A W) (delay : Nat) (action : A) :
      Step act ⟨s, .idle⟩ ⟨(s.schedule delay action).2, .idle⟩
  | cancel (s : Simulator A W) (id : Nat) : Step act ⟨s, .idle⟩ ⟨s.cancel id, .idle⟩
  | runFor (s : Simulator A W) (duration : Nat) :
      Step act ⟨s, .idle⟩ ⟨s.enter duration, .running (s.deadline duration)⟩
  | process (s : Simulator A W) (D : Nat) (h : s.Due D) :
      Step act ⟨s, .running D⟩ ⟨s.processOne act, .running D⟩
  | finish (s : Simulator A W) (D : Nat) (h : ¬ s.Due D) :
      Step act ⟨s, .running D⟩ ⟨s.atTime D, .idle⟩

abbrev Steps (act : A → Script A W) : Machine A W → Machine A W → Prop :=
  Relation.ReflTransGen (Step act)

/-- The loop that the model of `run_for` computes is the one the machine takes step by step. -/
theorem drain_steps {act : A → Script A W} {D fuel : Nat} {s s' : Simulator A W}
    (h : s.drain act D fuel = some s') :
    Steps act ⟨s, .running D⟩ ⟨s'.atTime D, .idle⟩ := by
  induction fuel generalizing s with
  | zero => exact nomatch h
  | succ fuel ih =>
    rw [Simulator.drain] at h
    split at h
    · rename_i hdue
      exact (ih h).head (.process s D hdue)
    · rename_i hdue
      cases h
      exact .single (.finish _ D hdue)

theorem runsFor_steps {act : A → Script A W} {d : Nat} {s s' : Simulator A W}
    (h : s.RunsFor act d s') : Steps act ⟨s, .idle⟩ ⟨s', .idle⟩ := by
  obtain ⟨fuel, h⟩ := h
  obtain ⟨t, ht, rfl⟩ := Option.map_eq_some_iff.mp h
  exact (drain_steps ht).head (.runFor s d)

/-! ## What holds between steps -/

/-- `(time, seq)` is strictly smaller. -/
def Earlier (p p' : Nat × Nat) : Prop := p.1 < p'.1 ∨ (p.1 = p'.1 ∧ p.2 < p'.2)

/-- What may come before what: the events that are run come in order, each once, and none after
its id was cancelled. -/
def Mark.Precedes : Mark → Mark → Prop
  | .ran t q, .ran t' q' => Earlier (t, q) (t', q') ∧ q ≠ q'
  | .cancelled q, .ran _ q' => q ≠ q'
  | _, _ => True

namespace Simulator

/-- No event of that id is queued, nor will one be. -/
def Gone (q : Nat) (s : Simulator A W) : Prop :=
  q < s.nextSeq ∧ ∀ e ∈ s.queue.heap, e.seq ≠ q

structure Sound (s : Simulator A W) : Prop where
  seq_lt : ∀ e ∈ s.queue.heap, e.seq < s.nextSeq
  distinct : s.queue.heap.Pairwise fun a b => a.seq ≠ b.seq
  due : ∀ e ∈ s.queue.heap, s.clock ≤ e.time
  ran : ∀ t q, .ran t q ∈ s.history → t ≤ s.clock ∧ s.Gone q ∧
    ∀ e ∈ s.queue.heap, Earlier (t, q) (e.time, e.seq)
  scheduled : ∀ t q, .scheduled t q ∈ s.history →
    (∃ e ∈ s.queue.heap, e.time = t ∧ e.seq = q) ∨ .ran t q ∈ s.history ∨
      (.cancelled q ∈ s.history ∧ s.Gone q ∧ ∀ t', .ran t' q ∉ s.history)
  cancelled : ∀ q ∈ s.queue.cancelled, .cancelled q ∈ s.history
  pending : ∀ q, .cancelled q ∈ s.history → q ∈ s.queue.cancelled ∨ s.Gone q
  order : s.history.Pairwise Mark.Precedes

theorem sound_init (seed : UInt64) (w : W) : (init seed w : Simulator A W).Sound where
  seq_lt _ he := nomatch he
  distinct := List.Pairwise.nil
  due _ he := nomatch he
  ran _ _ h := nomatch h
  scheduled _ _ h := nomatch h
  cancelled _ h := nomatch h
  pending _ h := nomatch h
  order := List.Pairwise.nil

section Sound

variable {act : A → Script A W} {s : Simulator A W}

theorem schedule_wrapped {delay : Nat} {action : A}
    (h : (s.schedule delay action).2.wrapped = false) :
    s.wrapped = false ∧ s.clock + delay < 2 ^ 64 := by
  obtain ⟨h₁, h₂⟩ := Bool.or_eq_false_iff.mp (show (s.wrapped || decide _) = false from h)
  exact ⟨h₁, Nat.not_le.mp (of_decide_eq_false h₂)⟩

/-- Scheduling a new event, not before the clock. -/
theorem Sound.scheduleAt (h : s.Sound) {time : Nat} (htime : s.clock ≤ time) (action : A) :
    (s.scheduleAt time action).2.Sound := by
  have hmem : ∀ {e : Event A}, e ∈ (s.scheduleAt time action).2.queue.heap →
      e = ⟨time, s.nextSeq, action⟩ ∨ e ∈ s.queue.heap := (List.mem_orderedInsert _).mp
  have hgone : ∀ {q : Nat}, s.Gone q → (s.scheduleAt time action).2.Gone q := by
    intro q hq
    refine ⟨Nat.lt_succ_of_lt hq.1, fun e he => ?_⟩
    rcases hmem he with rfl | he
    · exact Nat.ne_of_gt hq.1
    · exact hq.2 e he
  have hold : ∀ {m : Mark}, m ∈ s.history → m ∈ (s.scheduleAt time action).2.history :=
    List.mem_append_left _
  have hran : ∀ {t q : Nat}, .ran t q ∈ (s.scheduleAt time action).2.history →
      .ran t q ∈ s.history := by
    intro t q hm
    simpa [Simulator.scheduleAt] using hm
  have hcancelled : ∀ {q : Nat}, .cancelled q ∈ (s.scheduleAt time action).2.history →
      .cancelled q ∈ s.history := by
    intro q hm
    simpa [Simulator.scheduleAt] using hm
  refine ⟨?_, ?_, ?_, ?_, ?_, ?_, ?_, ?_⟩
  · intro e he
    rcases hmem he with rfl | he
    · exact Nat.lt_succ_self _
    · exact Nat.lt_succ_of_lt (h.seq_lt e he)
  · refine ((List.perm_orderedInsert _ _ _).pairwise_iff fun hne => Ne.symm hne).mpr
      (List.pairwise_cons.mpr ⟨fun e he => ?_, h.distinct⟩)
    exact Nat.ne_of_gt (h.seq_lt e he)
  · intro e he
    rcases hmem he with rfl | he
    · exact htime
    · exact h.due e he
  · intro t q hm
    obtain ⟨hle, hq, hlt⟩ := h.ran t q (hran hm)
    refine ⟨hle, hgone hq, fun e he => ?_⟩
    rcases hmem he with rfl | he
    · rcases Nat.eq_or_lt_of_le (Nat.le_trans hle htime) with heq | hlt'
      · exact Or.inr ⟨heq, hq.1⟩
      · exact Or.inl hlt'
    · exact hlt e he
  · intro t q hm
    rcases List.mem_append.mp hm with hm | hm
    · rcases h.scheduled t q hm with ⟨e, he, hk⟩ | hr | ⟨hc, hq, hno⟩
      · exact Or.inl ⟨e, (List.mem_orderedInsert _).mpr (Or.inr he), hk⟩
      · exact Or.inr (Or.inl (hold hr))
      · exact Or.inr (Or.inr ⟨hold hc, hgone hq, fun t' hr => hno t' (hran hr)⟩)
    · cases List.mem_singleton.mp hm
      exact Or.inl ⟨_, (List.mem_orderedInsert _).mpr (Or.inl rfl), rfl, rfl⟩
  · exact fun q hq => hold (h.cancelled q hq)
  · exact fun q hm => (h.pending q (hcancelled hm)).imp_right hgone
  · refine List.pairwise_append.mpr ⟨h.order, List.pairwise_singleton _ _, fun a _ b hb => ?_⟩
    cases List.mem_singleton.mp hb
    cases a <;> trivial

theorem Sound.schedule (h : s.Sound) {delay : Nat} {action : A}
    (hw : (s.schedule delay action).2.wrapped = false) : (s.schedule delay action).2.Sound := by
  obtain ⟨h₁, h₂⟩ := schedule_wrapped hw
  have hs : ({ s with wrapped := s.wrapped || decide (2 ^ 64 ≤ s.clock + delay) } :
      Simulator A W) = s := by
    rw [decide_eq_false (Nat.not_le.mpr h₂), Bool.or_false]
  unfold Simulator.schedule
  rw [hs, Nat.mod_eq_of_lt h₂]
  exact h.scheduleAt (Nat.le_add_right _ _) action

theorem Sound.cancel (h : s.Sound) (id : Nat) : (s.cancel id).Sound where
  seq_lt := h.seq_lt
  distinct := h.distinct
  due := h.due
  ran t q hm := h.ran t q (by simpa [Simulator.cancel] using hm)
  scheduled t q hm := by
    have hm' : .scheduled t q ∈ s.history := by simpa [Simulator.cancel] using hm
    rcases h.scheduled t q hm' with he | hr | ⟨hc, hq, hno⟩
    · exact Or.inl he
    · exact Or.inr (Or.inl (List.mem_append_left _ hr))
    · exact Or.inr (Or.inr ⟨List.mem_append_left _ hc, hq, fun t' hr => hno t' (by
        simpa [Simulator.cancel] using hr)⟩)
  cancelled q hq := by
    rcases Finset.mem_insert.mp hq with rfl | hq
    · exact List.mem_append_right _ (List.mem_singleton.mpr rfl)
    · exact List.mem_append_left _ (h.cancelled q hq)
  pending q hm := by
    rcases List.mem_append.mp hm with hm | hm
    · exact (h.pending q hm).imp_left (Finset.mem_insert_of_mem)
    · cases List.mem_singleton.mp hm
      exact Or.inl (Finset.mem_insert_self _ _)
  order := by
    refine List.pairwise_append.mpr ⟨h.order, List.pairwise_singleton _ _, fun a _ b hb => ?_⟩
    cases List.mem_singleton.mp hb
    cases a <;> trivial

/-- Of what `Sound` speaks of, `s'` has what `s` has. -/
theorem Sound.of_eq {s' : Simulator A W} (h : s.Sound) (hc : s'.clock = s.clock)
    (hn : s'.nextSeq = s.nextSeq) (hq : s'.queue = s.queue) (hh : s'.history = s.history) :
    s'.Sound := by
  obtain ⟨clock, seq, hash, prng, queue, world, history, wrapped⟩ := s
  obtain ⟨clock', seq', hash', prng', queue', world', history', wrapped'⟩ := s'
  cases hc
  cases hn
  cases hq
  cases hh
  exact ⟨h.seq_lt, h.distinct, h.due, h.ran, h.scheduled, h.cancelled, h.pending, h.order⟩

/-! ## Actions -/

theorem exec_wrapped (p : Script A W) (h : (s.exec p).wrapped = false) : s.wrapped = false := by
  induction p generalizing s with
  | done => exact h
  | schedule delay action next ih => exact (schedule_wrapped (ih _ h)).1
  | cancel id next ih => exact ih (s := s.cancel id) h
  | now next ih => exact ih _ h
  | draw f next ih => exact ih _ (s := { s with prng := (f s.prng).2 }) h
  | read next ih => exact ih _ h
  | write w next ih => exact ih (s := { s with world := w }) h

/-- No part of an action moves the clock. -/
theorem exec_clock (p : Script A W) (s : Simulator A W) : (s.exec p).clock = s.clock := by
  induction p generalizing s with
  | done => rfl
  | schedule delay action next ih => exact ih _ _
  | cancel id next ih => exact ih _
  | now next ih => exact ih _ _
  | draw f next ih => exact ih _ _
  | read next ih => exact ih _ _
  | write w next ih => exact ih _

theorem Sound.exec (p : Script A W) (h : s.Sound) (hw : (s.exec p).wrapped = false) :
    (s.exec p).Sound := by
  induction p generalizing s with
  | done => exact h
  | schedule delay action next ih => exact ih _ (h.schedule (exec_wrapped _ hw)) hw
  | cancel id next ih => exact ih (h.cancel id) hw
  | now next ih => exact ih _ h hw
  | draw f next ih => exact ih _ (h.of_eq rfl rfl rfl rfl) hw
  | read next ih => exact ih _ h hw
  | write w next ih => exact ih (h.of_eq rfl rfl rfl rfl) hw

/-! ## One event -/

section Pop

variable {e : Event A} {rest : List (Event A)} {ordered : (e :: rest).Pairwise Event.NotAfter}
  {C : Finset Nat}

/-- The simulator after the first event is popped. -/
def popped (e : Event A) (rest : EventQueue A) (s : Simulator A W) : Simulator A W :=
  { s with queue := rest, clock := e.time }

/-- What is left after the first event: none of its id, nothing before it. -/
theorem Sound.behind (h : s.Sound) (hq : s.queue = ⟨e :: rest, ordered, C⟩) :
    (∀ e' ∈ rest, e'.seq ≠ e.seq ∧ e.time ≤ e'.time ∧
      Earlier (e.time, e.seq) (e'.time, e'.seq)) := by
  intro e' he'
  have hne := h.distinct
  rw [hq] at hne
  have hseq := (List.pairwise_cons.mp hne).1 e' he'
  have hle := Event.notAfter_iff.mp ((List.pairwise_cons.mp ordered).1 e' he')
  refine ⟨Ne.symm hseq, by omega, ?_⟩
  unfold Earlier
  simp only
  omega

theorem Gone.behind (hq : s.queue = ⟨e :: rest, ordered, C⟩) {q : Nat} (h : s.Gone q) :
    q < s.nextSeq ∧ ∀ e' ∈ rest, e'.seq ≠ q :=
  ⟨h.1, fun e' he' => h.2 e' (by rw [hq]; exact List.mem_cons_of_mem _ he')⟩

theorem Sound.gone_head (h : s.Sound) (hq : s.queue = ⟨e :: rest, ordered, C⟩) :
    e.seq < s.nextSeq ∧ ∀ e' ∈ rest, e'.seq ≠ e.seq :=
  ⟨h.seq_lt e (by rw [hq]; exact List.mem_cons_self), fun e' he' => (h.behind hq e' he').1⟩

/-- The parts of `Sound` that a pop keeps, whatever becomes of the event. -/
theorem Sound.popped_ran (h : s.Sound) (hq : s.queue = ⟨e :: rest, ordered, C⟩) {t q : Nat}
    (hm : .ran t q ∈ s.history) : t ≤ e.time ∧ q ≠ e.seq ∧
      (q < s.nextSeq ∧ ∀ e' ∈ rest, e'.seq ≠ q) ∧
      ∀ e' ∈ rest, Earlier (t, q) (e'.time, e'.seq) := by
  have hhead : e ∈ s.queue.heap := by rw [hq]; exact List.mem_cons_self
  obtain ⟨hle, hgone, hlt⟩ := h.ran t q hm
  exact ⟨Nat.le_trans hle (h.due e hhead), Ne.symm (hgone.2 e hhead), hgone.behind hq,
    fun e' he' => hlt e' (by rw [hq]; exact List.mem_cons_of_mem _ he')⟩

theorem Sound.popped_pending (h : s.Sound) (hq : s.queue = ⟨e :: rest, ordered, C⟩) {q : Nat}
    (hm : .cancelled q ∈ s.history) : q ∈ C.erase e.seq ∨
      (q < s.nextSeq ∧ ∀ e' ∈ rest, e'.seq ≠ q) := by
  by_cases hqe : q = e.seq
  · exact Or.inr (hqe ▸ h.gone_head hq)
  · have hp := h.pending q hm
    rw [hq] at hp
    exact hp.imp (fun hc => Finset.mem_erase.mpr ⟨hqe, hc⟩) fun hg => hg.behind hq

/-- A cancelled event is dropped. -/
theorem Sound.drop (h : s.Sound) (hq : s.queue = ⟨e :: rest, ordered, C⟩) (hc : e.seq ∈ C) :
    (s.popped e ⟨rest, ordered.of_cons, C.erase e.seq⟩).Sound := by
  have hsub : ∀ e' ∈ rest, e' ∈ s.queue.heap := fun e' he' => by
    rw [hq]; exact List.mem_cons_of_mem _ he'
  refine ⟨fun e' he' => h.seq_lt e' (hsub e' he'), ?_, fun e' he' => (h.behind hq e' he').2.1,
    fun t q hm => ?_, fun t q hm => ?_, fun q hqC => ?_, fun q hm => h.popped_pending hq hm,
    h.order⟩
  · have hd := h.distinct
    rw [hq] at hd
    exact hd.of_cons
  · obtain ⟨h₁, -, h₃, h₄⟩ := h.popped_ran hq hm
    exact ⟨h₁, h₃, h₄⟩
  · rcases h.scheduled t q hm with ⟨e', he', ht, hs⟩ | hr | ⟨hcan, hgone, hno⟩
    · rw [hq] at he'
      rcases List.mem_cons.mp he' with rfl | he'
      · refine Or.inr (Or.inr ⟨?_, ?_, fun t' hr => ?_⟩)
        · rw [← hs]; exact h.cancelled e'.seq (by rw [hq]; exact hc)
        · rw [← hs]; exact h.gone_head hq
        · exact (h.popped_ran hq hr).2.1 hs.symm
      · exact Or.inl ⟨e', he', ht, hs⟩
    · exact Or.inr (Or.inl hr)
    · exact Or.inr (Or.inr ⟨hcan, hgone.behind hq, hno⟩)
  · exact h.cancelled q (by rw [hq]; exact (Finset.mem_erase.mp hqC).2)

/-- The action of a live event begins. -/
theorem Sound.begin (h : s.Sound) (hq : s.queue = ⟨e :: rest, ordered, C⟩) (hc : e.seq ∉ C) :
    (s.begin e ⟨rest, ordered.of_cons, C.erase e.seq⟩).Sound := by
  have hhead : e ∈ s.queue.heap := by rw [hq]; exact List.mem_cons_self
  have hsub : ∀ e' ∈ rest, e' ∈ s.queue.heap := fun e' he' => by
    rw [hq]; exact List.mem_cons_of_mem _ he'
  have hold : ∀ {m : Mark}, m ∈ s.history → m ∈ s.history ++ [Mark.ran e.time e.seq] :=
    List.mem_append_left _
  -- its id has not been cancelled, or it would be in the set
  have hlive : .cancelled e.seq ∉ s.history := by
    intro hm
    rcases h.pending e.seq hm with hin | hgone
    · rw [hq] at hin
      exact hc hin
    · exact hgone.2 e hhead rfl
  refine ⟨fun e' he' => h.seq_lt e' (hsub e' he'), ?_, fun e' he' => (h.behind hq e' he').2.1,
    fun t q hm => ?_, fun t q hm => ?_, fun q hqC => ?_, fun q hm => ?_, ?_⟩
  · have hd := h.distinct
    rw [hq] at hd
    exact hd.of_cons
  · rcases List.mem_append.mp hm with hm | hm
    · obtain ⟨h₁, -, h₃, h₄⟩ := h.popped_ran hq hm
      exact ⟨h₁, h₃, h₄⟩
    · cases List.mem_singleton.mp hm
      exact ⟨Nat.le_refl _, h.gone_head hq, fun e' he' => (h.behind hq e' he').2.2⟩
  · have hm' : .scheduled t q ∈ s.history := by simpa [Simulator.begin] using hm
    rcases h.scheduled t q hm' with ⟨e', he', ht, hs⟩ | hr | ⟨hcan, hgone, hno⟩
    · rw [hq] at he'
      rcases List.mem_cons.mp he' with rfl | he'
      · subst ht hs
        exact Or.inr (Or.inl (List.mem_append_right _ (List.mem_singleton.mpr rfl)))
      · exact Or.inl ⟨e', he', ht, hs⟩
    · exact Or.inr (Or.inl (hold hr))
    · refine Or.inr (Or.inr ⟨hold hcan, hgone.behind hq, fun t' hr => ?_⟩)
      rcases List.mem_append.mp hr with hr | hr
      · exact hno t' hr
      · cases List.mem_singleton.mp hr
        exact hgone.2 e hhead rfl
  · exact hold (h.cancelled q (by rw [hq]; exact (Finset.mem_erase.mp hqC).2))
  · exact h.popped_pending hq (by simpa [Simulator.begin] using hm)
  · refine List.pairwise_append.mpr ⟨h.order, List.pairwise_singleton _ _, fun a ha b hb => ?_⟩
    cases List.mem_singleton.mp hb
    cases a with
    | scheduled t q => trivial
    | cancelled q =>
      rintro rfl
      exact hlive ha
    | ran t q => exact ⟨(h.ran t q ha).2.2 e hhead, (h.popped_ran hq ha).2.1⟩

end Pop

/-- What `process_one` does to a queue that is not empty. -/
theorem processOne_eq {e : Event A} {rest : List (Event A)}
    {ordered : (e :: rest).Pairwise Event.NotAfter} {C : Finset Nat}
    (hq : s.queue = ⟨e :: rest, ordered, C⟩) :
    s.processOne act = if e.seq ∈ C then s.popped e ⟨rest, ordered.of_cons, C.erase e.seq⟩
      else (s.begin e ⟨rest, ordered.of_cons, C.erase e.seq⟩).exec (act e.action) := by
  unfold processOne
  rw [hq]
  simp only [EventQueue.popMin, decide_eq_true_eq]
  rfl

/-- A queue with something due begins with it. -/
theorem Due.exists_head {D : Nat} (h : s.Due D) :
    ∃ e rest ordered C, s.queue = ⟨e :: rest, ordered, C⟩ ∧ e.time ≤ D := by
  unfold Due EventQueue.peekTime at h
  cases hq : s.queue with
  | mk heap ordered C =>
    cases heap with
    | nil => rw [hq] at h; exact h.elim
    | cons e rest => rw [hq] at h; exact ⟨e, rest, ordered, C, rfl, h⟩

/-- With nothing due, everything queued is past the deadline. -/
theorem lt_of_not_due {D : Nat} (h : ¬ s.Due D) : ∀ e ∈ s.queue.heap, D < e.time := by
  intro e he
  unfold Due EventQueue.peekTime at h
  cases hq : s.queue with
  | mk heap ordered C =>
    rw [hq] at h he
    cases heap with
    | nil => exact nomatch he
    | cons d rest =>
      have hd : D < d.time := Nat.not_le.mp h
      rcases List.mem_cons.mp he with rfl | he
      · exact hd
      · have := Event.notAfter_iff.mp ((List.pairwise_cons.mp ordered).1 e he)
        omega

theorem processOne_wrapped {D : Nat} (hdue : s.Due D) (h : (s.processOne act).wrapped = false) :
    s.wrapped = false := by
  obtain ⟨e, rest, ordered, C, hq, -⟩ := hdue.exists_head
  rw [processOne_eq hq] at h
  split at h
  · exact h
  · have hbegun := exec_wrapped _ h
    exact hbegun

theorem Sound.processOne {D : Nat} (h : s.Sound) (hdue : s.Due D)
    (hw : (s.processOne act).wrapped = false) :
    (s.processOne act).Sound ∧ s.clock ≤ (s.processOne act).clock ∧
      (s.processOne act).clock ≤ D := by
  obtain ⟨e, rest, ordered, C, hq, hle⟩ := hdue.exists_head
  have hclock : s.clock ≤ e.time := h.due e (by rw [hq]; exact List.mem_cons_self)
  rw [processOne_eq hq] at hw ⊢
  split at hw
  · rename_i hc
    rw [if_pos hc]
    exact ⟨h.drop hq hc, hclock, hle⟩
  · rename_i hc
    rw [if_neg hc, exec_clock]
    exact ⟨(h.begin hq hc).exec _ hw, hclock, hle⟩

/-- The clock moves past events that lie behind it. -/
theorem Sound.atTime {D : Nat} (h : s.Sound) (hle : s.clock ≤ D) (hdue : ¬ s.Due D) :
    (s.atTime D).Sound where
  seq_lt := h.seq_lt
  distinct := h.distinct
  due e he := Nat.le_of_lt (lt_of_not_due hdue e he)
  ran t q hm := ⟨Nat.le_trans (h.ran t q hm).1 hle, (h.ran t q hm).2⟩
  scheduled := h.scheduled
  cancelled := h.cancelled
  pending := h.pending
  order := h.order

end Sound

/-! ## A cancellation that comes too late -/

/-- `cancel`, without its mark in the history. -/
def stale (q : Nat) (s : Simulator A W) : Simulator A W := { s with queue := s.queue.cancel q }

section Stale

variable {act : A → Script A W} {s : Simulator A W} {q : Nat}

theorem Gone.schedule (h : s.Gone q) (delay : Nat) (action : A) :
    (s.schedule delay action).2.Gone q := by
  refine ⟨Nat.lt_succ_of_lt h.1, fun e he => ?_⟩
  rcases (List.mem_orderedInsert _).mp he with rfl | he
  · exact Nat.ne_of_gt h.1
  · exact h.2 e he

theorem Gone.exec (p : Script A W) (h : s.Gone q) : (s.exec p).Gone q := by
  induction p generalizing s with
  | done => exact h
  | schedule delay action next ih => exact ih _ (h.schedule delay action)
  | cancel id next ih => exact ih (s := s.cancel id) h
  | now next ih => exact ih _ h
  | draw f next ih => exact ih _ (s := { s with prng := (f s.prng).2 }) h
  | read next ih => exact ih _ h
  | write w next ih => exact ih (s := { s with world := w }) h

theorem Gone.processOne {D : Nat} (h : s.Gone q) (hdue : s.Due D) : (s.processOne act).Gone q := by
  obtain ⟨e, rest, ordered, C, hq, -⟩ := hdue.exists_head
  rw [processOne_eq hq]
  split
  · exact h.behind hq
  · have hbegun : (s.begin e ⟨rest, ordered.of_cons, C.erase e.seq⟩).Gone q := h.behind hq
    exact hbegun.exec _

theorem stale_cancel (id : Nat) : (s.stale q).cancel id = (s.cancel id).stale q := by
  unfold stale cancel EventQueue.cancel
  rw [Finset.insert_comm]

/-- An action does not see which ids are cancelled. -/
theorem exec_stale (p : Script A W) : (s.stale q).exec p = (s.exec p).stale q := by
  induction p generalizing s with
  | done => rfl
  | schedule delay action next ih => exact ih _ (s := (s.schedule delay action).2)
  | cancel id next ih =>
    rw [Simulator.exec, stale_cancel, ih]
    rfl
  | now next ih => exact ih _
  | draw f next ih => exact ih _ (s := { s with prng := (f s.prng).2 })
  | read next ih => exact ih _
  | write w next ih => exact ih (s := { s with world := w })

/-- Nor is an event dropped because of an id that is gone. -/
theorem processOne_stale {D : Nat} (h : s.Gone q) (hdue : s.Due D) :
    (s.stale q).processOne act = (s.processOne act).stale q := by
  obtain ⟨e, rest, ordered, C, hq, -⟩ := hdue.exists_head
  have hne : e.seq ≠ q := h.2 e (by rw [hq]; exact List.mem_cons_self)
  have hq' : (s.stale q).queue = ⟨e :: rest, ordered, insert q C⟩ := by
    unfold stale EventQueue.cancel
    rw [hq]
  have hmem : e.seq ∈ insert q C ↔ e.seq ∈ C := by
    rw [Finset.mem_insert]
    exact or_iff_right hne
  have hset : (insert q C).erase e.seq = insert q (C.erase e.seq) :=
    Finset.erase_insert_of_ne (Ne.symm hne)
  rw [processOne_eq hq, processOne_eq hq', apply_ite (stale q), ← exec_stale]
  simp only [hmem, hset]
  rfl

end Stale

end Simulator

/-! ## Whole runs -/

namespace Machine

/-- What holds between the steps of a run in which no time has wrapped. -/
structure Ok (m : Machine A W) : Prop where
  sound : m.sim.Sound
  clock_le : ∀ D, m.mode = .running D → m.sim.clock ≤ D

/-- The machine after a cancellation, without its mark. -/
def stale (q : Nat) (m : Machine A W) : Machine A W := ⟨m.sim.stale q, m.mode⟩

variable {act : A → Script A W} {m m' : Machine A W}

/-- No step makes a wrapped time good. -/
theorem unwrapped_of_step (h : Step act m m') (hw : m'.sim.wrapped = false) :
    m.sim.wrapped = false := by
  cases h with
  | schedule s delay action => exact (Simulator.schedule_wrapped hw).1
  | cancel s id => exact hw
  | runFor s duration => exact (Bool.or_eq_false_iff.mp hw).1
  | process s D hdue => exact Simulator.processOne_wrapped hdue hw
  | finish s D hdue => exact hw

theorem Ok.step (h : m.Ok) (hstep : Step act m m') (hw : m'.sim.wrapped = false) :
    m'.Ok ∧ m.sim.clock ≤ m'.sim.clock := by
  cases hstep with
  | schedule s delay action =>
    exact ⟨⟨h.sound.schedule hw, by rintro D ⟨⟩⟩, Nat.le_refl _⟩
  | cancel s id => exact ⟨⟨h.sound.cancel id, by rintro D ⟨⟩⟩, Nat.le_refl _⟩
  | runFor s duration =>
    have hlt : s.clock + duration < 2 ^ 64 :=
      Nat.not_le.mp (of_decide_eq_false (Bool.or_eq_false_iff.mp hw).2)
    refine ⟨⟨h.sound.of_eq rfl rfl rfl rfl, fun D hD => ?_⟩, Nat.le_refl _⟩
    cases hD
    rw [Simulator.deadline, Nat.mod_eq_of_lt hlt]
    exact Nat.le_add_right _ _
  | process s D hdue =>
    obtain ⟨hsound, hle, hD⟩ := h.sound.processOne hdue hw
    refine ⟨⟨hsound, fun D' hD' => ?_⟩, hle⟩
    cases hD'
    exact hD
  | finish s D hdue =>
    have hle := h.clock_le D rfl
    exact ⟨⟨h.sound.atTime hle hdue, by rintro D ⟨⟩⟩, hle⟩

theorem ok_steps {seed : UInt64} {w : W} (h : Steps act ⟨.init seed w, .idle⟩ m)
    (hw : m.sim.wrapped = false) : m.Ok := by
  induction h with
  | refl => exact ⟨Simulator.sound_init seed w, fun D hD => nomatch hD⟩
  | tail _ hstep ih => exact ((ih (unwrapped_of_step hstep hw)).step hstep hw).1

theorem gone_step {q : Nat} (h : m.sim.Gone q) (hstep : Step act m m') : m'.sim.Gone q := by
  cases hstep with
  | schedule s delay action => exact h.schedule delay action
  | cancel s id => exact h
  | runFor s duration => exact h
  | process s D hdue => exact h.processOne hdue
  | finish s D hdue => exact h

theorem gone_steps {q : Nat} (h : m.sim.Gone q) (hsteps : Steps act m m') : m'.sim.Gone q := by
  induction hsteps with
  | refl => exact h
  | tail _ hstep ih => exact gone_step ih hstep

/-- What can be done after a cancellation that came too late is what can be done without it. -/
theorem step_stale_iff {q : Nat} (h : m.sim.Gone q) (n : Machine A W) :
    Step act (m.stale q) n ↔ ∃ m', Step act m m' ∧ n = m'.stale q := by
  obtain ⟨s, mode⟩ := m
  constructor
  · intro hstep
    cases hstep with
    | schedule _ delay action => exact ⟨_, .schedule s delay action, rfl⟩
    | cancel _ id =>
      refine ⟨_, .cancel s id, ?_⟩
      rw [stale, ← Simulator.stale_cancel]
    | runFor _ duration => exact ⟨_, .runFor s duration, rfl⟩
    | process _ D hdue =>
      refine ⟨_, .process s D hdue, ?_⟩
      rw [stale, ← Simulator.processOne_stale h hdue]
    | finish _ D hdue => exact ⟨_, .finish s D hdue, rfl⟩
  · rintro ⟨m', hstep, rfl⟩
    cases hstep with
    | schedule _ delay action => exact .schedule (s.stale q) delay action
    | cancel _ id =>
      have hstep : Step act ⟨s.stale q, .idle⟩ _ := .cancel (s.stale q) id
      rwa [Simulator.stale_cancel] at hstep
    | runFor _ duration => exact .runFor (s.stale q) duration
    | process _ D hdue =>
      have hstep : Step act ⟨s.stale q, .running D⟩ _ := .process (s.stale q) D hdue
      rwa [Simulator.processOne_stale h hdue] at hstep
    | finish _ D hdue => exact .finish (s.stale q) D hdue

theorem steps_stale_iff {q : Nat} (h : m.sim.Gone q) (n : Machine A W) :
    Steps act (m.stale q) n ↔ ∃ m', Steps act m m' ∧ n = m'.stale q := by
  constructor
  · intro hsteps
    induction hsteps with
    | refl => exact ⟨m, .refl, rfl⟩
    | tail _ hstep ih =>
      obtain ⟨m₁, hm₁, rfl⟩ := ih
      obtain ⟨m₂, hm₂, rfl⟩ := (step_stale_iff (gone_steps h hm₁) _).mp hstep
      exact ⟨m₂, hm₁.tail hm₂, rfl⟩
  · rintro ⟨m', hsteps, rfl⟩
    induction hsteps with
    | refl => exact .refl
    | tail hm₁ hstep ih =>
      exact ih.tail ((step_stale_iff (gone_steps h hm₁) _).mpr ⟨_, hstep, rfl⟩)

end Machine

/-! ## The promises -/

/-- The event `(t, q)` was run, once, and no other under its id. -/
def Simulator.RanOnce (t q : Nat) (s : Simulator A W) : Prop :=
  s.history.count (.ran t q) = 1 ∧ ∀ t', .ran t' q ∈ s.history → t' = t

/-- `cancel` was called with `q`, and no event of that id was run before or since. -/
def Simulator.Dropped (q : Nat) (s : Simulator A W) : Prop :=
  .cancelled q ∈ s.history ∧ ∀ t, .ran t q ∉ s.history

def Mark.ran? : Mark → Option (Nat × Nat)
  | .ran t q => some (t, q)
  | _ => none

/-- What a user of the simulator may count on in a state of the machine. -/
structure InOrder (act : A → Script A W) (m : Machine A W) : Prop where
  /-- The actions were run in strictly increasing order. -/
  increasing : (m.sim.history.filterMap Mark.ran?).Pairwise Earlier
  /-- The clock does not go back. -/
  clock_le : ∀ m', Step act m m' → m'.sim.wrapped = false → m.sim.clock ≤ m'.sim.clock
  /-- From its begin on, whatever part of it has been executed, an action sees the time of its
  event. -/
  at_time : ∀ e rest ordered C, m.sim.queue = ⟨e :: rest, ordered, C⟩ → e.seq ∉ C →
    m.sim.processOne act =
        (m.sim.begin e ⟨rest, ordered.of_cons, C.erase e.seq⟩).exec (act e.action) ∧
      ∀ part : Script A W,
        ((m.sim.begin e ⟨rest, ordered.of_cons, C.erase e.seq⟩).exec part).clock = e.time
  /-- When `run_for` returns, what was to happen until then has happened. -/
  executed : ∀ D, m.mode = .running D → ¬ m.sim.Due D →
    ∀ t q, .scheduled t q ∈ m.sim.history → t ≤ D → m.sim.RanOnce t q ∨ m.sim.Dropped q
  /-- So it has, on the way, for every time the clock has left behind. -/
  passed : ∀ t q, .scheduled t q ∈ m.sim.history → t < m.sim.clock →
    m.sim.RanOnce t q ∨ m.sim.Dropped q
  /-- After `cancel`, nothing of that id is run. -/
  cancelled : ∀ q before after, m.sim.history = before ++ .cancelled q :: after →
    ∀ t, .ran t q ∉ after
  /-- To cancel what was run changes nothing of what can come. -/
  stale : ∀ t q, .ran t q ∈ m.sim.history → ∀ n,
    Steps act (m.stale q) n ↔ ∃ m', Steps act m m' ∧ n = m'.stale q

namespace Simulator

variable {s : Simulator A W}

theorem Sound.increasing (h : s.Sound) : (s.history.filterMap Mark.ran?).Pairwise Earlier := by
  refine List.Pairwise.filterMap Mark.ran? ?_ h.order
  intro a b hab p hp p' hp'
  cases a with
  | ran t q =>
    cases b with
    | ran t' q' =>
      cases hp
      cases hp'
      exact hab.1
    | scheduled => exact nomatch hp'
    | cancelled => exact nomatch hp'
  | scheduled => exact nomatch hp
  | cancelled => exact nomatch hp

/-- In a list of marks in order an event stands once, under an id of its own. -/
theorem Sound.ranOnce (h : s.Sound) {t q : Nat} (hm : .ran t q ∈ s.history) : s.RanOnce t q := by
  obtain ⟨before, after, hsplit⟩ := List.append_of_mem hm
  have hp := h.order
  rw [hsplit] at hp
  obtain ⟨-, hafter, hbefore⟩ := List.pairwise_append.mp hp
  have hno : ∀ t', .ran t' q ∉ before ∧ .ran t' q ∉ after := fun t' =>
    ⟨fun hb => (hbefore _ hb _ List.mem_cons_self).2 rfl,
      fun ha => ((List.pairwise_cons.mp hafter).1 _ ha).2 rfl⟩
  refine ⟨?_, fun t' ht' => ?_⟩
  · rw [hsplit, List.count_append, List.count_cons_self, List.count_eq_zero.mpr (hno t).1,
      List.count_eq_zero.mpr (hno t).2]
  · rw [hsplit] at ht'
    rcases List.mem_append.mp ht' with hb | ha
    · exact absurd hb (hno t').1
    · rcases List.mem_cons.mp ha with he | ha
      · cases he
        rfl
      · exact absurd ha (hno t').2

/-- An event that is no longer queued was run or dropped. -/
theorem Sound.settled (h : s.Sound) {t q : Nat} (hm : .scheduled t q ∈ s.history)
    (hno : ∀ e ∈ s.queue.heap, e.time ≠ t) : s.RanOnce t q ∨ s.Dropped q := by
  rcases h.scheduled t q hm with ⟨e, he, ht, -⟩ | hr | ⟨hc, -, hnone⟩
  · exact absurd ht (hno e he)
  · exact Or.inl (h.ranOnce hr)
  · exact Or.inr ⟨hc, hnone⟩

end Simulator

/-- **The order of execution.**  Whatever is scheduled, cancelled and run, from outside and by the
actions, as long as no time wraps. -/
theorem execution_order (act : A → Script A W) (seed : UInt64) (w : W) (m : Machine A W)
    (h : Steps act ⟨.init seed w, .idle⟩ m) (hw : m.sim.wrapped = false) : InOrder act m := by
  have hok := Machine.ok_steps h hw
  have hsound := hok.sound
  refine ⟨hsound.increasing, fun m' hstep hw' => (hok.step hstep hw').2, ?_, ?_, ?_, ?_, ?_⟩
  · intro e rest ordered C hq hc
    refine ⟨?_, fun part => ?_⟩
    · rw [Simulator.processOne_eq hq, if_neg hc]
    · rw [Simulator.exec_clock]
      rfl
  · intro D _ hdue t q hm ht
    refine hsound.settled hm fun e he => ?_
    have := Simulator.lt_of_not_due hdue e he
    omega
  · intro t q hm ht
    refine hsound.settled hm fun e he => ?_
    have := hsound.due e he
    omega
  · intro q before after hsplit t hm
    have hp := hsound.order
    rw [hsplit] at hp
    exact (List.pairwise_cons.mp (List.pairwise_append.mp hp).2.1).1 _ hm rfl
  · exact fun t q hm n => Machine.steps_stale_iff (hsound.ran t q hm).2.1 n

/-- An action that has two more events, and cancels the first of them and event 1. -/
def errands : Bool → Script Bool Nat
  | true => .schedule 0 false fun id => .schedule 2 false fun _ => .cancel id (.cancel 1 .done)
  | false => .now fun t => .write t .done

/-- An errand at 3, and another event at 4. -/
def booked : Simulator Bool Nat := (((Simulator.init 0 0).schedule 3 true).2.schedule 4 false).2

theorem execution_order_errands : ∃ s, booked.RunsFor errands 6 s ∧
    s.history = [.scheduled 3 0, .scheduled 4 1, .ran 3 0, .scheduled 3 2, .scheduled 5 3,
      .cancelled 2, .cancelled 1, .ran 5 3] ∧ s.world = 5 ∧ InOrder errands ⟨s, .idle⟩ := by
  obtain ⟨s, hs⟩ := Option.isSome_iff_exists.mp
    (show (booked.runFor errands 6 5).isSome = true by decide)
  have hmap {α : Type} {f : Simulator Bool Nat → α} {a : α}
      (h : (booked.runFor errands 6 5).map f = some a) : f s = a := by
    rw [hs] at h
    exact Option.some.inj h
  refine ⟨s, ⟨5, hs⟩, hmap (by decide), hmap (by decide),
    execution_order errands 0 0 ⟨s, .idle⟩ ?_ (hmap (f := Simulator.wrapped) (by decide))⟩
  have hrun : Steps errands ⟨booked, .idle⟩ ⟨s, .idle⟩ := runsFor_steps ⟨5, hs⟩
  exact (hrun.head (.schedule _ 4 false)).head (.schedule _ 3 true)

/-- Up to 10, where an event is run. -/
def wound : Option (Simulator Bool Nat) :=
  ((Simulator.init 0 0).schedule 10 false).2.runFor errands 10 2

/-- And on, past `2 ^ 64`. -/
def rewound : Option (Simulator Bool Nat) := wound.bind (Simulator.runFor errands (2 ^ 64 - 5) 1)

/-- `run_for` does not look whether its deadline wraps: the clock goes from 10 back to 5, and an
event at 5 is run after the one at 10. -/
theorem runFor_goes_back :
    wound.map Simulator.clock = some 10 ∧ rewound.map Simulator.clock = some 5 ∧
      (rewound.bind fun s => (s.schedule 0 false).2.runFor errands 0 2).map Simulator.history =
        some [.scheduled 10 0, .ran 10 0, .scheduled 5 1, .ran 5 1] := by
  decide

end SimKV.Sim
