/-
# `sim/{prng,event_queue,simulator}.{hpp,cpp}`: the simulation engine

One clock, one seeded PRNG, one queue of events.  An event's action is a closure over
the rest of the program; here it is a label `A`, and `act : A → Script A W` says what
the closure with that label does: it may schedule and cancel events, read the clock,
draw from the PRNG, and read and write whatever else there is (`W`).  A script is a
tree, so every action ends; the loops of the engine are the ones of the source.

Times are `uint64_t` and wrap; `wrapped` records that an addition did, so that a
statement can be about runs in which none does.  `history` records the calls and the
actions run, in order.  No definition reads either.

`std::priority_queue` is a list kept in the order of `Cmp`, with the order as a
field; `cancelled_` is the set of ids that `cancel` was called with and `pop_min` has
not come across.
-/
import Mathlib.Algebra.GroupWithZero.Nat
import Mathlib.Data.Finset.Basic
import Mathlib.Data.List.Sort

namespace SimKV.Sim

/-! ## `prng` -/

/-- The state of `xoshiro256**`. -/
structure Prng where
  s0 : UInt64
  s1 : UInt64
  s2 : UInt64
  s3 : UInt64
deriving DecidableEq, Repr

/-- The value, and the state after it. -/
def splitmix64 (state : UInt64) : UInt64 × UInt64 :=
  let state := state + 0x9e3779b97f4a7c15
  let z := (state ^^^ (state >>> 30)) * 0xbf58476d1ce4e5b9
  let z := (z ^^^ (z >>> 27)) * 0x94d049bb133111eb
  (z ^^^ (z >>> 31), state)

def rotl64 (x k : UInt64) : UInt64 := (x <<< k) ||| (x >>> (64 - k))

namespace Prng

def ofSeed (seed : UInt64) : Prng :=
  let (s0, seed) := splitmix64 seed
  let (s1, seed) := splitmix64 seed
  let (s2, seed) := splitmix64 seed
  let (s3, _) := splitmix64 seed
  ⟨s0, s1, s2, s3⟩

def nextU64 (p : Prng) : UInt64 × Prng :=
  let result := rotl64 (p.s1 * 5) 7 * 9
  let t := p.s1 <<< 17
  let s2 := p.s2 ^^^ p.s0
  let s3 := p.s3 ^^^ p.s1
  let s1 := p.s1 ^^^ s2
  let s0 := p.s0 ^^^ s3
  (result, ⟨s0, s1, s2 ^^^ t, rotl64 s3 45⟩)

end Prng

/-! ## `event_queue` -/

variable {A W : Type}

/-- `cancelled` is not stored: `pop_min` sets it from the set of cancelled ids. -/
structure Event (A : Type) where
  time : Nat
  seq : Nat
  action : A
deriving DecidableEq, Repr

namespace Event

/-- `Cmp`: `a` comes out of the queue after `b`. -/
def cmp (a b : Event A) : Bool :=
  if a.time ≠ b.time then decide (a.time > b.time) else decide (a.seq > b.seq)

def NotAfter (a b : Event A) : Prop := a.cmp b = false

instance (a b : Event A) : Decidable (NotAfter a b) := inferInstanceAs (Decidable (_ = _))

theorem notAfter_iff {a b : Event A} :
    NotAfter a b ↔ a.time < b.time ∨ (a.time = b.time ∧ a.seq ≤ b.seq) := by
  unfold NotAfter cmp
  split
  · rw [decide_eq_false_iff_not]
    omega
  · rw [decide_eq_false_iff_not]
    omega

instance : Std.Total (NotAfter (A := A)) where
  total a b := by
    rw [notAfter_iff, notAfter_iff]
    omega

instance : IsTrans (Event A) NotAfter where
  trans a b c hab hbc := by
    rw [notAfter_iff] at hab hbc ⊢
    omega

end Event

/-- `heap_` in the order in which it is popped, and `cancelled_`. -/
structure EventQueue (A : Type) where
  heap : List (Event A)
  ordered : heap.Pairwise Event.NotAfter
  cancelled : Finset Nat

namespace EventQueue

def empty : EventQueue A := ⟨[], List.Pairwise.nil, ∅⟩

def push (time seq : Nat) (action : A) (q : EventQueue A) : EventQueue A where
  heap := q.heap.orderedInsert Event.NotAfter ⟨time, seq, action⟩
  ordered := q.ordered.orderedInsert _ _
  cancelled := q.cancelled

def cancel (id : Nat) (q : EventQueue A) : EventQueue A :=
  { q with cancelled := insert id q.cancelled }

/-- The first event, whether it was cancelled, and the rest; `none` where the source throws. -/
def popMin (q : EventQueue A) : Option (Event A × Bool × EventQueue A) :=
  match q with
  | ⟨[], _, _⟩ => none
  | ⟨e :: rest, ordered, cancelled⟩ =>
    some (e, decide (e.seq ∈ cancelled), ⟨rest, ordered.of_cons, cancelled.erase e.seq⟩)

/-- The time of the next event. -/
def peekTime (q : EventQueue A) : Option Nat := q.heap.head?.map Event.time

end EventQueue

/-! ## `simulator` -/

/-- What an action does. -/
inductive Script (A W : Type) where
  | done
  /-- `next` is given the id. -/
  | schedule (delay : Nat) (action : A) (next : Nat → Script A W)
  | cancel (id : Nat) (next : Script A W)
  | now (next : Nat → Script A W)
  /-- One of the helpers of `Prng`: a value and the state after it. -/
  | draw (f : Prng → Nat × Prng) (next : Nat → Script A W)
  | read (next : W → Script A W)
  | write (w : W) (next : Script A W)

inductive Mark where
  | scheduled (time seq : Nat)
  | cancelled (id : Nat)
  /-- The action of the event was run. -/
  | ran (time seq : Nat)
deriving DecidableEq, Repr

structure Simulator (A W : Type) where
  clock : Nat
  nextSeq : Nat
  traceHash : UInt64
  prng : Prng
  queue : EventQueue A
  world : W
  history : List Mark
  wrapped : Bool

def kFnvOffset : UInt64 := 14695981039346656037
def kFnvPrime : UInt64 := 1099511628211

/-- The eight bytes of `v`, the lowest first, go into the hash. -/
def fold (v hash : UInt64) : UInt64 :=
  ((List.range 8).foldl (fun (p : UInt64 × UInt64) _ =>
    ((p.1 ^^^ (p.2 &&& 0xFF)) * kFnvPrime, p.2 >>> 8)) (hash, v)).1

namespace Simulator

def init (seed : UInt64) (w : W) : Simulator A W where
  clock := 0
  nextSeq := 0
  traceHash := kFnvOffset
  prng := .ofSeed seed
  queue := .empty
  world := w
  history := []
  wrapped := false

def scheduleAt (time : Nat) (action : A) (s : Simulator A W) : Nat × Simulator A W :=
  (s.nextSeq, { s with
    nextSeq := s.nextSeq + 1
    queue := s.queue.push time s.nextSeq action
    history := s.history ++ [Mark.scheduled time s.nextSeq] })

/-- The id, and the simulator with the event at `clock_ + delay`. -/
def schedule (delay : Nat) (action : A) (s : Simulator A W) : Nat × Simulator A W :=
  { s with wrapped := s.wrapped || decide (2 ^ 64 ≤ s.clock + delay) }.scheduleAt
    ((s.clock + delay) % 2 ^ 64) action

def cancel (id : Nat) (s : Simulator A W) : Simulator A W :=
  { s with queue := s.queue.cancel id, history := s.history ++ [Mark.cancelled id] }

/-- The action's part of `process_one`. -/
def exec : Script A W → Simulator A W → Simulator A W
  | .done, s => s
  | .schedule delay action next, s =>
    let r := s.schedule delay action
    exec (next r.1) r.2
  | .cancel id next, s => exec next (s.cancel id)
  | .now next, s => exec (next s.clock) s
  | .draw f next, s =>
    let r := f s.prng
    exec (next r.1) { s with prng := r.2 }
  | .read next, s => exec (next s.world) s
  | .write w next, s => exec next { s with world := w }

/-- The simulator when the action of `e` begins, with the rest of the queue. -/
def begin (e : Event A) (rest : EventQueue A) (s : Simulator A W) : Simulator A W :=
  { s with
    queue := rest
    clock := e.time
    traceHash := fold (.ofNat e.seq) (fold (.ofNat e.time) s.traceHash)
    history := s.history ++ [Mark.ran e.time e.seq] }

def processOne (act : A → Script A W) (s : Simulator A W) : Simulator A W :=
  match s.queue.popMin with
  | none => s
  | some (e, cancelled, rest) =>
    if cancelled then { s with queue := rest, clock := e.time }
    else (s.begin e rest).exec (act e.action)

/-- The test of the loop of `run_for`. -/
def Due (deadline : Nat) (s : Simulator A W) : Prop :=
  match s.queue.peekTime with
  | none => False
  | some t => t ≤ deadline

instance (deadline : Nat) (s : Simulator A W) : Decidable (s.Due deadline) :=
  match h : s.queue.peekTime with
  | none => isFalse (by simp [Due, h])
  | some t => decidable_of_iff (t ≤ deadline) (by simp [Due, h])

/-- The loop of `run_for`; `none` if `fuel` rounds are not enough. -/
def drain (act : A → Script A W) (deadline : Nat) :
    Nat → Simulator A W → Option (Simulator A W)
  | 0, _ => none
  | fuel + 1, s =>
    if s.Due deadline then drain act deadline fuel (s.processOne act) else some s

/-- `clock_ + duration`. -/
def deadline (duration : Nat) (s : Simulator A W) : Nat := (s.clock + duration) % 2 ^ 64

def enter (duration : Nat) (s : Simulator A W) : Simulator A W :=
  { s with wrapped := s.wrapped || decide (2 ^ 64 ≤ s.clock + duration) }

def runFor (act : A → Script A W) (duration fuel : Nat) (s : Simulator A W) :
    Option (Simulator A W) :=
  (drain act (s.deadline duration) fuel (s.enter duration)).map fun s' =>
    { s' with clock := s.deadline duration }

/-- `run_for` returns and leaves `s'`. -/
def RunsFor (act : A → Script A W) (duration : Nat) (s s' : Simulator A W) : Prop :=
  ∃ fuel, s.runFor act duration fuel = some s'

/-! ## Time slicing -/

/-- The simulator at another time. -/
def atTime (c : Nat) (s : Simulator A W) : Simulator A W := { s with clock := c }

section Slicing

variable {act : A → Script A W} {s s' : Simulator A W} {D D' : Nat}

theorem Due.mono (h : s.Due D) (hD : D ≤ D') : s.Due D' := by
  unfold Due at h ⊢
  split at h
  · exact h.elim
  · exact Nat.le_trans h hD

/-- An event sets the clock, whatever it was. -/
theorem processOne_atTime (c : Nat) (h : s.Due D) :
    (s.atTime c).processOne act = s.processOne act := by
  have hsome : s.queue.popMin ≠ none := by
    intro hnone
    obtain ⟨clock, seq, hash, prng, ⟨heap, ordered, cancelled⟩, world, history, wrapped⟩ := s
    cases heap with
    | nil => exact h
    | cons e rest => exact nomatch hnone
  unfold processOne atTime
  split
  · rename_i hnone
    exact absurd hnone hsome
  · rename_i hpop
    rw [hpop]
    rfl

/-- The time at which the loop is entered does not matter, once the clock is set at its end. -/
theorem drain_atTime (c fuel : Nat) :
    (drain act D fuel (s.atTime c)).map (atTime D) = (drain act D fuel s).map (atTime D) := by
  cases fuel with
  | zero => rfl
  | succ fuel =>
    by_cases hdue : s.Due D
    · have hdue' : (s.atTime c).Due D := hdue
      rw [drain, drain, if_pos hdue, if_pos hdue', processOne_atTime c hdue]
    · have hdue' : ¬ (s.atTime c).Due D := hdue
      rw [drain, drain, if_neg hdue, if_neg hdue']
      rfl

/-- Up to `D` and then up to `D'` is up to `D'`. -/
theorem drain_trans (hD : D ≤ D') {k k' : Nat} {s₁ s₂ : Simulator A W}
    (h : drain act D k s = some s₁) (h' : drain act D' k' s₁ = some s₂) :
    ∃ k'', drain act D' k'' s = some s₂ := by
  induction k generalizing s with
  | zero => exact nomatch h
  | succ k ih =>
    rw [drain] at h
    split at h
    · rename_i hdue
      obtain ⟨k'', hk⟩ := ih h
      exact ⟨k'' + 1, by rw [drain, if_pos (hdue.mono hD), hk]⟩
    · cases h
      exact ⟨k', h'⟩

/-- Up to `D'` stops over at the first event past `D`. -/
theorem drain_split (hD : D ≤ D') {k : Nat} {s₂ : Simulator A W}
    (h : drain act D' k s = some s₂) :
    ∃ k₁ s₁ k₂, drain act D k₁ s = some s₁ ∧ drain act D' k₂ s₁ = some s₂ := by
  induction k generalizing s with
  | zero => exact nomatch h
  | succ k ih =>
    by_cases hdue : s.Due D
    · have hrest := h
      rw [drain, if_pos (hdue.mono hD)] at hrest
      obtain ⟨k₁, s₁, k₂, h₁, h₂⟩ := ih hrest
      exact ⟨k₁ + 1, s₁, k₂, by rw [drain, if_pos hdue, h₁], h₂⟩
    · exact ⟨1, s, k + 1, by rw [drain, if_neg hdue], h⟩

theorem enter_eq {d : Nat} (h : s.clock + d < 2 ^ 64) : s.enter d = s := by
  rw [enter, decide_eq_false (Nat.not_le.mpr h), Bool.or_false]

/-- `run_for` where nothing wraps. -/
theorem runsFor_iff {d : Nat} (h : s.clock + d < 2 ^ 64) :
    s.RunsFor act d s' ↔
      ∃ k, (drain act (s.clock + d) k s).map (atTime (s.clock + d)) = some s' := by
  have hD : s.deadline d = s.clock + d := Nat.mod_eq_of_lt h
  unfold RunsFor runFor
  rw [hD, enter_eq h]
  rfl

end Slicing

/-- Running for each of the durations in turn. -/
def RunsAll (act : A → Script A W) : List Nat → Simulator A W → Simulator A W → Prop
  | [], s, s' => s' = s
  | d :: ds, s, s' => ∃ s₁, s.RunsFor act d s₁ ∧ RunsAll act ds s₁ s'

theorem runsFor_clock {act : A → Script A W} {s s' : Simulator A W} {d : Nat}
    (h : s.RunsFor act d s') : s'.clock = s.deadline d := by
  obtain ⟨fuel, h⟩ := h
  obtain ⟨t, -, rfl⟩ := Option.map_eq_some_iff.mp h
  rfl

theorem runsFor_add {act : A → Script A W} {s s₂ : Simulator A W} {a b : Nat}
    (h : s.clock + a + b < 2 ^ 64) :
    (∃ s₁, s.RunsFor act a s₁ ∧ s₁.RunsFor act b s₂) ↔ s.RunsFor act (a + b) s₂ := by
  have ha : s.clock + a < 2 ^ 64 := by omega
  rw [runsFor_iff (d := a + b) (by omega), ← Nat.add_assoc]
  constructor
  · rintro ⟨s₁, h₁, h₂⟩
    have hclock : s₁.clock = s.clock + a := (runsFor_clock h₁).trans (Nat.mod_eq_of_lt ha)
    obtain ⟨k₁, h₁⟩ := (runsFor_iff ha).mp h₁
    obtain ⟨t, ht, rfl⟩ := Option.map_eq_some_iff.mp h₁
    obtain ⟨k₂, h₂⟩ := (runsFor_iff (by rw [hclock]; exact h)).mp h₂
    rw [hclock, drain_atTime] at h₂
    obtain ⟨t₂, ht₂, rfl⟩ := Option.map_eq_some_iff.mp h₂
    obtain ⟨k, hk⟩ := drain_trans (Nat.le_add_right _ b) ht ht₂
    exact ⟨k, by rw [hk]; rfl⟩
  · rintro ⟨k, hk⟩
    obtain ⟨t₂, ht₂, rfl⟩ := Option.map_eq_some_iff.mp hk
    obtain ⟨k₁, t, k₂, h₁, h₂⟩ := drain_split (Nat.le_add_right (s.clock + a) b) ht₂
    refine ⟨t.atTime (s.clock + a), (runsFor_iff ha).mpr ⟨k₁, by rw [h₁]; rfl⟩,
      (runsFor_iff h).mpr ⟨k₂, ?_⟩⟩
    rw [drain_atTime]
    change (drain act (s.clock + a + b) k₂ t).map _ = _
    rw [h₂]
    rfl

/-- **Time slicing does not matter.**  From any state, for any actions: running for `a` and then for
`b` leads where running for `a + b` leads, and ends if and only if that does; and so for any number
of slices.  The states are equal in every field: clock, queue, PRNG, trace hash, what the actions
have written, and the history of calls and actions. -/
theorem time_slicing (act : A → Script A W) (s : Simulator A W) :
    (∀ a b s₂, s.clock + a + b < 2 ^ 64 →
      ((∃ s₁, s.RunsFor act a s₁ ∧ s₁.RunsFor act b s₂) ↔ s.RunsFor act (a + b) s₂)) ∧
    ∀ d ds s₂, s.clock + (d :: ds).sum < 2 ^ 64 →
      (RunsAll act (d :: ds) s s₂ ↔ s.RunsFor act (d :: ds).sum s₂) := by
  refine ⟨fun a b s₂ h => runsFor_add h, fun d ds => ?_⟩
  induction ds generalizing s d with
  | nil =>
    intro s₂ _
    simp only [RunsAll, List.sum_cons, List.sum_nil, Nat.add_zero]
    exact ⟨fun ⟨s₁, h, he⟩ => he ▸ h, fun h => ⟨s₂, h, rfl⟩⟩
  | cons b ds ih =>
    intro s₂ hsum
    rw [List.sum_cons] at hsum
    rw [RunsAll, List.sum_cons, ← runsFor_add (by omega)]
    refine exists_congr fun s₁ => and_congr_right fun h₁ => ih s₁ b s₂ ?_
    rw [runsFor_clock h₁, deadline, Nat.mod_eq_of_lt (by omega)]
    omega

/-- An action that counts and schedules itself again. -/
def ticking : Unit → Script Unit Nat := fun _ =>
  .read fun n => .write (n + 1) (.schedule 3 () fun _ => .done)

def started : Simulator Unit Nat := ((init 7 0).schedule 3 ()).2

theorem time_slicing_ticking : ∃ s₂, started.RunsFor ticking 8 s₂ ∧
    ∃ s₁, started.RunsFor ticking 4 s₁ ∧ s₁.RunsFor ticking 4 s₂ := by
  obtain ⟨s₂, h⟩ := Option.isSome_iff_exists.mp
    (show (started.runFor ticking 8 5).isSome = true by decide)
  exact ⟨s₂, ⟨5, h⟩, ((time_slicing ticking started).1 4 4 s₂ (by decide)).mpr ⟨5, h⟩⟩

end Simulator

end SimKV.Sim
