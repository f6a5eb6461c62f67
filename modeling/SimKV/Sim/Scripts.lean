/-
# Scripts, and why `run_for` returns

Scripts are put together one after the other (`andThen`).

The loop of `run_for` has no bound of its own: every event it processes may schedule
others.  If no action schedules anything at once (`Waits`), an event that is processed
is replaced by finitely many that lie strictly later, and no such process goes on for
ever before a fixed time (`drain_returns`).  The order is that of the hydra: one element
of a multiset is cut off, finitely many smaller ones grow.
-/
import SimKV.Sim.Order
import Mathlib.Logic.Hydra

namespace SimKV.Sim

variable {A W : Type}

namespace Script

/-- One script after the other. -/
def andThen : Script A W → Script A W → Script A W
  | .done, q => q
  | .schedule delay action next, q => .schedule delay action fun id => (next id).andThen q
  | .cancel id next, q => .cancel id (next.andThen q)
  | .now next, q => .now fun t => (next t).andThen q
  | .draw f next, q => .draw f fun v => (next v).andThen q
  | .read next, q => .read fun w => (next w).andThen q
  | .write w next, q => .write w (next.andThen q)

/-- The scripts of a list, in order. -/
def inTurn (l : List (Script A W)) : Script A W := l.foldr andThen .done

/-- Whatever is drawn and read, all delays are within the bounds. -/
def Waits (lo hi : Nat) : Script A W → Prop
  | .done => True
  | .schedule delay _ next => (lo ≤ delay ∧ delay ≤ hi) ∧ ∀ id, (next id).Waits lo hi
  | .cancel _ next => next.Waits lo hi
  | .now next => ∀ t, (next t).Waits lo hi
  | .draw f next => ∀ p, (next (f p).1).Waits lo hi
  | .read next => ∀ w, (next w).Waits lo hi
  | .write _ next => next.Waits lo hi

variable {lo hi : Nat}

theorem Waits.andThen {p q : Script A W} (hp : p.Waits lo hi) (hq : q.Waits lo hi) :
    (p.andThen q).Waits lo hi := by
  induction p with
  | done => exact hq
  | schedule delay action next ih => exact ⟨hp.1, fun id => ih id (hp.2 id)⟩
  | cancel id next ih => exact ih hp
  | now next ih => exact fun t => ih t (hp t)
  | draw f next ih => exact fun g => ih _ (hp g)
  | read next ih => exact fun w => ih w (hp w)
  | write w next ih => exact ih hp

theorem Waits.inTurn {l : List (Script A W)} (h : ∀ p ∈ l, p.Waits lo hi) :
    (inTurn l).Waits lo hi := by
  induction l with
  | nil => trivial
  | cons p l ih =>
    exact (h p List.mem_cons_self).andThen (ih fun q hq => h q (List.mem_cons_of_mem _ hq))

end Script

namespace Simulator

variable {s : Simulator A W} {act : A → Script A W} {lo hi D : Nat}

theorem exec_andThen (p q : Script A W) (s : Simulator A W) :
    s.exec (p.andThen q) = (s.exec p).exec q := by
  induction p generalizing s with
  | done => rfl
  | schedule delay action next ih => exact ih _ _
  | cancel id next ih => exact ih _
  | now next ih => exact ih _ s
  | draw f next ih => exact ih _ _
  | read next ih => exact ih _ s
  | write w next ih => exact ih _

theorem schedule_heap (delay : Nat) (action : A) (s : Simulator A W) :
    (s.schedule delay action).2.queue.heap.Perm
      (⟨(s.clock + delay) % 2 ^ 64, s.nextSeq, action⟩ :: s.queue.heap) :=
  List.perm_orderedInsert _ _ _

/-- What a script adds to the queue lies ahead of the clock. -/
theorem exec_added (p : Script A W) (hp : p.Waits lo hi) (s : Simulator A W)
    (hclock : s.clock + hi < 2 ^ 64) :
    ∃ added : List (Event A), (s.exec p).queue.heap.Perm (added ++ s.queue.heap) ∧
      ∀ e ∈ added, s.clock + lo ≤ e.time ∧ e.time ≤ s.clock + hi := by
  induction p generalizing s with
  | done => exact ⟨[], List.Perm.refl _, fun e he => absurd he List.not_mem_nil⟩
  | schedule delay action next ih =>
    obtain ⟨⟨hlo, hhi⟩, hnext⟩ := hp
    obtain ⟨added, hperm, hadded⟩ := ih _ (hnext s.nextSeq) (s.schedule delay action).2 hclock
    refine ⟨added ++ [⟨(s.clock + delay) % 2 ^ 64, s.nextSeq, action⟩], ?_, fun e he => ?_⟩
    · rw [List.append_assoc]
      exact hperm.trans ((s.schedule_heap delay action).append_left added)
    · rcases List.mem_append.mp he with he | he
      · exact hadded e he
      · obtain rfl := List.mem_singleton.mp he
        have hmod : (s.clock + delay) % 2 ^ 64 = s.clock + delay := Nat.mod_eq_of_lt (by omega)
        change _ ≤ (s.clock + delay) % 2 ^ 64 ∧ (s.clock + delay) % 2 ^ 64 ≤ _
        omega
  | cancel id next ih => exact ih hp (s.cancel id) hclock
  | now next ih => exact ih _ (hp s.clock) s hclock
  | draw f next ih => exact ih _ (hp s.prng) _ hclock
  | read next ih => exact ih _ (hp s.world) s hclock
  | write w next ih => exact ih hp _ hclock

/-- Nothing wraps if the delays are short. -/
theorem exec_unwrapped (p : Script A W) (hp : p.Waits lo hi) (s : Simulator A W)
    (hclock : s.clock + hi < 2 ^ 64) (hw : s.wrapped = false) : (s.exec p).wrapped = false := by
  induction p generalizing s with
  | done => exact hw
  | schedule delay action next ih =>
    refine ih _ (hp.2 s.nextSeq) (s.schedule delay action).2 hclock ?_
    have hlt : s.clock + delay < 2 ^ 64 :=
      Nat.lt_of_le_of_lt (Nat.add_le_add_left hp.1.2 _) hclock
    exact Bool.or_eq_false_iff.mpr ⟨hw, decide_eq_false (Nat.not_le.mpr hlt)⟩
  | cancel id next ih => exact ih hp (s.cancel id) hclock hw
  | now next ih => exact ih _ (hp s.clock) s hclock hw
  | draw f next ih => exact ih _ (hp s.prng) _ hclock hw
  | read next ih => exact ih _ (hp s.world) s hclock hw
  | write w next ih => exact ih hp _ hclock hw

/-! ## The loop returns -/

/-- How far each of the events that are due lies ahead of the deadline. -/
def backlog (D : Nat) (l : List (Event A)) : Multiset Nat :=
  ((l.filter fun e => e.time ≤ D).map fun e => D - e.time : List Nat)

theorem backlog_cons_of_le {e : Event A} (he : e.time ≤ D) (l : List (Event A)) :
    backlog D (e :: l) = backlog D l + {D - e.time} := by
  unfold backlog
  rw [List.filter_cons_of_pos (by simpa using he), List.map_cons, ← Multiset.cons_coe,
    add_comm, Multiset.singleton_add]

theorem backlog_append (l l' : List (Event A)) :
    backlog D (l ++ l') = backlog D l + backlog D l' := by
  unfold backlog
  rw [List.filter_append, List.map_append, Multiset.coe_add]

theorem backlog_perm {l l' : List (Event A)} (h : l.Perm l') : backlog D l = backlog D l' :=
  Multiset.coe_eq_coe.mpr ((h.filter _).map _)

theorem mem_backlog {l : List (Event A)} {k : Nat} :
    k ∈ backlog D l ↔ ∃ e ∈ l, e.time ≤ D ∧ D - e.time = k := by
  unfold backlog
  simp only [Multiset.mem_coe, List.mem_map, List.mem_filter, decide_eq_true_eq, and_assoc]

/-- An event that is processed gives way to later ones. -/
theorem processOne_cutExpand (hact : ∀ a, (act a).Waits 1 hi) (hD : D + hi < 2 ^ 64)
    (hdue : s.Due D) : Relation.CutExpand (· < ·) (backlog D (s.processOne act).queue.heap)
      (backlog D s.queue.heap) := by
  obtain ⟨e, rest, ordered, C, hq, he⟩ := hdue.exists_head
  rw [processOne_eq hq, hq]
  change Relation.CutExpand _ _ (backlog D (e :: rest))
  rw [backlog_cons_of_le he]
  split
  · exact ⟨0, D - e.time, fun k hk => absurd hk (Multiset.notMem_zero k), (add_zero _).symm⟩
  · obtain ⟨added, hperm, hadded⟩ := exec_added (act e.action) (hact e.action)
      (s.begin e ⟨rest, ordered.of_cons, C.erase e.seq⟩) (by change e.time + hi < 2 ^ 64; omega)
    rw [backlog_perm hperm, backlog_append]
    refine ⟨backlog D added, D - e.time, fun k hk => ?_, ?_⟩
    · obtain ⟨e', he', hle, rfl⟩ := mem_backlog.mp hk
      have hlater : e.time + 1 ≤ e'.time := (hadded e' he').1
      omega
    · change backlog D added + backlog D rest + {D - e.time} =
        backlog D rest + {D - e.time} + backlog D added
      rw [add_assoc, add_comm]

/-- **The loop of `run_for` comes to an end.** -/
theorem drain_returns (hact : ∀ a, (act a).Waits 1 hi) (hD : D + hi < 2 ^ 64)
    (s : Simulator A W) : ∃ fuel s', drain act D fuel s = some s' := by
  have hwf : WellFounded (Relation.CutExpand (· < · : Nat → Nat → Prop)) :=
    wellFounded_lt.cutExpand
  induction hb : backlog D s.queue.heap using hwf.induction generalizing s with
  | _ b ih =>
    by_cases hdue : s.Due D
    · have hlt := processOne_cutExpand hact hD hdue
      rw [hb] at hlt
      obtain ⟨fuel, s', hs'⟩ := ih _ hlt (s.processOne act) rfl
      exact ⟨fuel + 1, s', by rw [drain, if_pos hdue, hs']⟩
    · exact ⟨1, s, by rw [drain, if_neg hdue]⟩

/-- More fuel does no harm. -/
theorem drain_mono {fuel fuel' : Nat} (hle : fuel ≤ fuel') {s s' : Simulator A W}
    (h : drain act D fuel s = some s') : drain act D fuel' s = some s' := by
  induction fuel generalizing fuel' s with
  | zero => exact absurd h (by simp [drain])
  | succ fuel ih =>
    obtain ⟨k, rfl⟩ : ∃ k, fuel' = k + 1 := ⟨fuel' - 1, by omega⟩
    rw [drain] at h ⊢
    split
    · rename_i hdue
      rw [if_pos hdue] at h
      exact ih (Nat.le_of_succ_le_succ hle) h
    · rename_i hdue
      rw [if_neg hdue] at h
      exact h

theorem runFor_mono {fuel fuel' d : Nat} (hle : fuel ≤ fuel') {s s' : Simulator A W}
    (h : s.runFor act d fuel = some s') : s.runFor act d fuel' = some s' := by
  obtain ⟨t, ht, rfl⟩ := Option.map_eq_some_iff.mp h
  unfold runFor
  rw [drain_mono hle ht]
  rfl

theorem runsFor_returns (hact : ∀ a, (act a).Waits 1 hi) (s : Simulator A W) (d : Nat)
    (hD : s.clock + d + hi < 2 ^ 64) : ∃ s', s.RunsFor act d s' := by
  have hdl : s.deadline d = s.clock + d := Nat.mod_eq_of_lt (by omega)
  obtain ⟨fuel, s', h⟩ := drain_returns hact (D := s.deadline d) (by rw [hdl]; exact hD)
    (s.enter d)
  exact ⟨_, fuel, by rw [runFor, h]; rfl⟩

end Simulator

end SimKV.Sim
