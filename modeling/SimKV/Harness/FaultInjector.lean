/-
# `harness/fault_injector.cpp`: spikes of loss and duplication

`inject_drop_spike` and `inject_dup_spike` raise a probability of the network, draw a
duration, and schedule an event that writes back the value they found.  They run inside
the simulator of `SimKV.Sim`, so a spike here is a script, and the order in which the
restorations run is the order of the queue.  Probabilities are rationals.

A restoration writes an absolute value.  So what is left when all of them have run is
what the last of them writes: the value that the spike that ends last found when it
began.  That is the value from before all spikes unless that spike began inside another
one (`leftover_loss`).  `Kept` says just this about the queue, and it holds as long as no
spike outlasts all the spikes of its kind that it began in (`contained`).

Ticks, partitions and crashes do not touch the probabilities; `SimKV.Harness.Runner` has them.
-/
import SimKV.Sim.Order
import Mathlib.Data.Rat.Defs
import Mathlib.Algebra.Order.Ring.Rat

namespace SimKV.FaultInjector

open Sim

/-! ## The network's probabilities -/

/-- Of the fields of `NetworkConfig`, the two probabilities. -/
structure NetworkConfig where
  dropProb : Rat
  dupProb : Rat
deriving DecidableEq, Repr

inductive Prob where
  | drop
  | dup
deriving DecidableEq, Repr

namespace NetworkConfig

def setDropProb (p : Rat) (cfg : NetworkConfig) : NetworkConfig := { cfg with dropProb := p }

def setDupProb (p : Rat) (cfg : NetworkConfig) : NetworkConfig := { cfg with dupProb := p }

def get (cfg : NetworkConfig) : Prob → Rat
  | .drop => cfg.dropProb
  | .dup => cfg.dupProb

def set (k : Prob) (p : Rat) (cfg : NetworkConfig) : NetworkConfig :=
  match k with
  | .drop => cfg.setDropProb p
  | .dup => cfg.setDupProb p

@[simp] theorem get_set (cfg : NetworkConfig) (k : Prob) (p : Rat) : (cfg.set k p).get k = p := by
  cases k <;> rfl

theorem get_set_of_ne (cfg : NetworkConfig) {k k' : Prob} (p : Rat) (h : k ≠ k') :
    (cfg.set k' p).get k = cfg.get k := by
  cases k <;> cases k' <;> first | rfl | exact absurd rfl h

end NetworkConfig

/-! ## Spikes -/

/-- The events: a call of `inject_drop_spike` or `inject_dup_spike`, which draws its duration with
`range`, and the restoration of a value. -/
inductive Fault where
  | dropSpike (range : Prng → Nat × Prng)
  | dupSpike (range : Prng → Nat × Prng)
  | restore (k : Prob) (old : Rat)

abbrev FaultScript := Script Fault NetworkConfig

/-- Raise a probability, up to a limit, and have the old value restored. -/
def injectSpike (k : Prob) (raise limit : Rat) (range : Prng → Nat × Prng) : FaultScript :=
  .read fun cfg => .write (cfg.set k (min (cfg.get k + raise) limit))
    (.draw range fun dur => .schedule dur (.restore k (cfg.get k)) fun _ => .done)

def injectDropSpike : (Prng → Nat × Prng) → FaultScript := injectSpike .drop (3 / 10) (6 / 10)

def injectDupSpike : (Prng → Nat × Prng) → FaultScript := injectSpike .dup (2 / 10) (4 / 10)

/-- What the events do. -/
def injector : Fault → FaultScript
  | .dropSpike range => injectDropSpike range
  | .dupSpike range => injectDupSpike range
  | .restore k old => .read fun cfg => .write (cfg.set k old) .done

namespace Fault

/-- The value that the event restores, if it restores that of `k`. -/
def restores? (k : Prob) : Fault → Option Rat
  | .restore k' old => if k' = k then some old else none
  | _ => none

/-- Which probability the event raises, and how it draws its duration. -/
def spike? : Fault → Option (Prob × (Prng → Nat × Prng))
  | .dropSpike range => some (.drop, range)
  | .dupSpike range => some (.dup, range)
  | .restore _ _ => none

/-- A spike is the general script at its own values. -/
theorem injector_spike {a : Fault} {k : Prob} {range : Prng → Nat × Prng}
    (h : a.spike? = some (k, range)) :
    ∃ raise limit, injector a = injectSpike k raise limit range := by
  cases a with
  | dropSpike range' =>
    simp only [spike?, Option.some.injEq, Prod.mk.injEq] at h
    obtain ⟨rfl, rfl⟩ := h
    exact ⟨_, _, rfl⟩
  | dupSpike range' =>
    simp only [spike?, Option.some.injEq, Prod.mk.injEq] at h
    obtain ⟨rfl, rfl⟩ := h
    exact ⟨_, _, rfl⟩
  | restore k' old => exact nomatch h

theorem restores?_of_spike {a : Fault} {p : Prob × (Prng → Nat × Prng)} (h : a.spike? = some p)
    (k : Prob) : a.restores? k = none := by
  cases a with
  | restore k' old => exact nomatch h
  | _ => rfl

end Fault

/-- The values that the queued events restore for `k`, in the order in which they will run. -/
def restorations (k : Prob) (heap : List (Sim.Event Fault)) : List Rat :=
  heap.filterMap fun e => e.action.restores? k

/-! ## Runs -/

abbrev FaultSim := Simulator Fault NetworkConfig

/-- The spike that is next, if one is, ends before some restoration of its kind that is queued; or
none is. -/
def contained (s : FaultSim) : Bool :=
  match s.queue.popMin with
  | none => true
  | some (e, _, rest) =>
    match e.action.spike? with
    | none => true
    | some (k, range) =>
      (restorations k rest.heap).isEmpty || rest.heap.any fun e' =>
        (e'.action.restores? k).isSome &&
          decide ((e.time + (range s.prng).1) % 2 ^ 64 < e'.time)

/-- A step of the simulator in which the calls from outside are spikes, at any delay, and calls of
`run_for`; no spike outlasts all those of its kind that it begins in. -/
inductive SpikeStep : Machine Fault NetworkConfig → Machine Fault NetworkConfig → Prop
  | spike (s : FaultSim) (delay : Nat) (a : Fault) (ha : a.spike?.isSome = true) :
      SpikeStep ⟨s, .idle⟩ ⟨(s.schedule delay a).2, .idle⟩
  | runFor (s : FaultSim) (duration : Nat) :
      SpikeStep ⟨s, .idle⟩ ⟨s.enter duration, .running (s.deadline duration)⟩
  | process (s : FaultSim) (D : Nat) (h : s.Due D) (hc : contained s = true) :
      SpikeStep ⟨s, .running D⟩ ⟨s.processOne injector, .running D⟩
  | finish (s : FaultSim) (D : Nat) (h : ¬ s.Due D) :
      SpikeStep ⟨s, .running D⟩ ⟨s.atTime D, .idle⟩

/-- These are steps of the simulator. -/
theorem SpikeStep.step {m m' : Machine Fault NetworkConfig} (h : SpikeStep m m') :
    Step injector m m' := by
  cases h with
  | spike s delay a _ => exact .schedule s delay a
  | runFor s duration => exact .runFor s duration
  | process s D h _ => exact .process s D h
  | finish s D h => exact .finish s D h

/-! ## The value that will be left -/

/-- What is left of `k` when the queued restorations have run is `p`. -/
structure Kept (k : Prob) (p : Rat) (s : FaultSim) : Prop where
  uncancelled : s.queue.cancelled = ∅
  last : (restorations k s.queue.heap).getLast?.getD (s.world.get k) = p

/-- An event that restores nothing of `k` does not change what is restored. -/
theorem restorations_orderedInsert_none {k : Prob} {e : Sim.Event Fault}
    (he : e.action.restores? k = none) (heap : List (Sim.Event Fault)) :
    restorations k (heap.orderedInsert Sim.Event.NotAfter e) = restorations k heap := by
  induction heap with
  | nil => simp [restorations, he]
  | cons b heap ih =>
    rw [List.orderedInsert_cons]
    split
    · simp [restorations, he]
    · simp only [restorations, List.filterMap_cons] at ih ⊢
      rw [ih]

theorem getLast?_cons_of_ne {α : Type} (a : α) {l : List α} (h : l ≠ []) :
    (a :: l).getLast? = l.getLast? := by
  cases l with
  | nil => exact absurd rfl h
  | cons b l => exact List.getLast?_cons_cons

/-- A restoration in front of another one is not the last. -/
theorem restorations_orderedInsert_last {k : Prob} {e e' : Sim.Event Fault}
    {heap : List (Sim.Event Fault)} (hmem : e' ∈ heap) (he' : (e'.action.restores? k).isSome = true)
    (hlt : e.NotAfter e') :
    (restorations k (heap.orderedInsert Sim.Event.NotAfter e)).getLast? =
      (restorations k heap).getLast? := by
  have hne : ∀ {l : List (Sim.Event Fault)}, e' ∈ l → restorations k l ≠ [] := by
    intro l hl
    obtain ⟨old, hold⟩ := Option.isSome_iff_exists.mp he'
    exact List.ne_nil_of_mem (List.mem_filterMap.mpr ⟨e', hl, hold⟩)
  induction heap with
  | nil => exact nomatch hmem
  | cons b heap ih =>
    rw [List.orderedInsert_cons]
    split
    · -- in front of everything
      change (restorations k (e :: b :: heap)).getLast? = _
      rw [restorations, List.filterMap_cons]
      cases e.action.restores? k with
      | none => rfl
      | some old => exact getLast?_cons_of_ne _ (hne hmem)
    · rename_i hb
      have hmem' : e' ∈ heap := by
        rcases List.mem_cons.mp hmem with rfl | h
        · exact absurd hlt hb
        · exact h
      have hins : e' ∈ heap.orderedInsert Sim.Event.NotAfter e :=
        (List.mem_orderedInsert _).mpr (Or.inr hmem')
      have ih := ih hmem'
      rw [restorations, restorations, List.filterMap_cons, List.filterMap_cons]
      cases b.action.restores? k with
      | none => exact ih
      | some old =>
        exact (getLast?_cons_of_ne _ (hne hins)).trans
          (ih.trans (getLast?_cons_of_ne _ (hne hmem')).symm)

/-- With nothing to restore, what is inserted is the last. -/
theorem restorations_orderedInsert_nil {k : Prob} {e : Sim.Event Fault} {old : Rat}
    (he : e.action.restores? k = some old) {heap : List (Sim.Event Fault)}
    (hnil : restorations k heap = []) :
    restorations k (heap.orderedInsert Sim.Event.NotAfter e) = [old] := by
  induction heap with
  | nil => simp [restorations, he]
  | cons b heap ih =>
    have hb : b.action.restores? k = none :=
      List.filterMap_eq_nil_iff.mp hnil b List.mem_cons_self
    have hheap : restorations k heap = [] := by
      rw [restorations, List.filterMap_cons, hb] at hnil
      exact hnil
    rw [List.orderedInsert_cons]
    split
    · rw [restorations, List.filterMap_cons, he]
      exact congrArg (old :: ·) hnil
    · rw [restorations, List.filterMap_cons, hb]
      exact ih hheap

section Kept

variable {k : Prob} {p : Rat} {s : FaultSim}

theorem kept_init (seed : UInt64) (cfg : NetworkConfig) (k : Prob) :
    Kept k (cfg.get k) (.init seed cfg) := ⟨rfl, rfl⟩

/-- What is queued and what the probabilities are decides it. -/
theorem Kept.of_eq {s' : FaultSim} (h : Kept k p s) (hq : s'.queue = s.queue)
    (hw : s'.world = s.world) : Kept k p s' := by
  refine ⟨?_, ?_⟩
  · rw [hq]
    exact h.uncancelled
  · rw [hq, hw]
    exact h.last

theorem Kept.schedule (h : Kept k p s) (delay : Nat) {a : Fault} (ha : a.restores? k = none) :
    Kept k p (s.schedule delay a).2 := by
  refine ⟨h.uncancelled, ?_⟩
  have hins := restorations_orderedInsert_none
    (e := ⟨(s.clock + delay) % 2 ^ 64, s.nextSeq, a⟩) ha s.queue.heap
  exact (congrArg (fun l => l.getLast?.getD (s.world.get k)) hins).trans h.last

/-- A spike of another kind. -/
theorem Kept.spike_other (h : Kept k p s) {k' : Prob} (hk : k ≠ k') (raise limit : Rat)
    (range : Prng → Nat × Prng) : Kept k p (s.exec (injectSpike k' raise limit range)) := by
  have hworld : Kept k p { s with
      world := s.world.set k' (min (s.world.get k' + raise) limit), prng := (range s.prng).2 } := by
    refine ⟨h.uncancelled, ?_⟩
    rw [← h.last, NetworkConfig.get_set_of_ne _ _ hk]
  exact hworld.schedule _ (if_neg (Ne.symm hk))

/-- A spike that begins with no restoration queued: it saves the value itself. -/
theorem Kept.spike_first (h : Kept k p s) (hnil : restorations k s.queue.heap = [])
    (raise limit : Rat) (range : Prng → Nat × Prng) :
    Kept k p (s.exec (injectSpike k raise limit range)) := by
  have hold : s.world.get k = p := by
    have := h.last
    rwa [hnil] at this
  have hins := restorations_orderedInsert_nil (k := k)
    (e := ⟨(s.clock + (range s.prng).1) % 2 ^ 64, s.nextSeq, .restore k (s.world.get k)⟩)
    (if_pos rfl) hnil
  refine ⟨h.uncancelled, ?_⟩
  change (restorations k (List.orderedInsert _ _ _)).getLast?.getD _ = p
  rw [hins]
  exact hold

/-- A spike that ends before one that is under way: the last restoration is the same. -/
theorem Kept.spike_inside (h : Kept k p s) {e' : Sim.Event Fault} (hmem : e' ∈ s.queue.heap)
    (he' : (e'.action.restores? k).isSome = true) (raise limit : Rat) (range : Prng → Nat × Prng)
    (hlt : (s.clock + (range s.prng).1) % 2 ^ 64 < e'.time) :
    Kept k p (s.exec (injectSpike k raise limit range)) := by
  have hins := restorations_orderedInsert_last (k := k)
    (e := ⟨(s.clock + (range s.prng).1) % 2 ^ 64, s.nextSeq, .restore k (s.world.get k)⟩)
    hmem he' (Sim.Event.notAfter_iff.mpr (Or.inl hlt))
  obtain ⟨old, hold⟩ := Option.isSome_iff_exists.mp he'
  have hne : restorations k s.queue.heap ≠ [] :=
    List.ne_nil_of_mem (List.mem_filterMap.mpr ⟨e', hmem, hold⟩)
  have hlast := h.last
  rw [List.getLast?_eq_some_getLast hne] at hlast hins
  refine ⟨h.uncancelled, ?_⟩
  change (restorations k (List.orderedInsert _ _ _)).getLast?.getD _ = p
  rw [hins]
  exact hlast

/-- The first of the queued events restores a value. -/
theorem Kept.restore {e : Sim.Event Fault} {rest : List (Sim.Event Fault)}
    {ordered : (e :: rest).Pairwise Sim.Event.NotAfter} {k' : Prob} {old : Rat} (h : Kept k p s)
    (hq : s.queue = ⟨e :: rest, ordered, ∅⟩) (he : e.action = .restore k' old) :
    Kept k p ((s.begin e ⟨rest, ordered.of_cons, ∅⟩).exec (injector e.action)) := by
  have hlast := h.last
  rw [hq, restorations, List.filterMap_cons, he] at hlast
  rw [he]
  refine ⟨rfl, ?_⟩
  change (restorations k rest).getLast?.getD ((s.world.set k' old).get k) = p
  by_cases hk : k' = k
  · subst hk
    rw [Fault.restores?, if_pos rfl] at hlast
    rw [NetworkConfig.get_set, ← hlast]
    exact (congrArg (Option.getD · _) List.getLast?_cons).symm
  · rw [Fault.restores?, if_neg hk] at hlast
    rw [NetworkConfig.get_set_of_ne _ _ (Ne.symm hk)]
    exact hlast

/-- The first of the queued events is a spike, and does not outlast what it begins in. -/
theorem Kept.spike {e : Sim.Event Fault} {rest : List (Sim.Event Fault)}
    {ordered : (e :: rest).Pairwise Sim.Event.NotAfter} {k' : Prob} {range : Prng → Nat × Prng}
    (h : Kept k p s) (hq : s.queue = ⟨e :: rest, ordered, ∅⟩)
    (he : e.action.spike? = some (k', range)) (hc : contained s = true) :
    Kept k p ((s.begin e ⟨rest, ordered.of_cons, ∅⟩).exec (injector e.action)) := by
  have hbegun : Kept k p (s.begin e ⟨rest, ordered.of_cons, ∅⟩) := by
    have hlast := h.last
    rw [hq, restorations, List.filterMap_cons, Fault.restores?_of_spike he k] at hlast
    exact ⟨rfl, hlast⟩
  obtain ⟨raise, limit, hscript⟩ := Fault.injector_spike he
  rw [hscript]
  by_cases hk : k = k'
  · subst hk
    rw [contained, hq] at hc
    simp only [EventQueue.popMin, he, Bool.or_eq_true, List.isEmpty_iff, List.any_eq_true,
      Bool.and_eq_true, decide_eq_true_eq] at hc
    rcases hc with hnil | ⟨e', hmem, he', hlt⟩
    · exact hbegun.spike_first hnil raise limit range
    · exact hbegun.spike_inside hmem he' raise limit range hlt
  · exact hbegun.spike_other hk raise limit range

theorem Kept.process {D : Nat} (h : Kept k p s) (hdue : s.Due D) (hc : contained s = true) :
    Kept k p (s.processOne injector) := by
  obtain ⟨e, rest, ordered, C, hq, -⟩ := hdue.exists_head
  have hC : C = ∅ := by
    have := h.uncancelled
    rwa [hq] at this
  subst hC
  rw [Simulator.processOne_eq hq, if_neg (Finset.notMem_empty _), Finset.erase_empty]
  cases hspike : e.action.spike? with
  | some ks => exact h.spike hq hspike hc
  | none =>
    cases he : e.action with
    | dropSpike range => rw [he] at hspike; exact nomatch hspike
    | dupSpike range => rw [he] at hspike; exact nomatch hspike
    | restore k' old =>
      rw [← he]
      exact h.restore hq he

theorem Kept.step {m m' : Machine Fault NetworkConfig} (h : Kept k p m.sim)
    (hstep : SpikeStep m m') : Kept k p m'.sim := by
  cases hstep with
  | spike s delay a ha =>
    obtain ⟨ks, hks⟩ := Option.isSome_iff_exists.mp ha
    exact h.schedule delay (Fault.restores?_of_spike hks k)
  | runFor s duration => exact h.of_eq rfl rfl
  | process s D hdue hc => exact h.process hdue hc
  | finish s D hdue => exact h.of_eq rfl rfl

theorem Kept.steps {m m' : Machine Fault NetworkConfig} (h : Kept k p m.sim)
    (hsteps : Relation.ReflTransGen SpikeStep m m') : Kept k p m'.sim := by
  induction hsteps with
  | refl => exact h
  | tail _ hstep ih => exact ih.step hstep

/-- When no restoration is queued, the value is there. -/
theorem Kept.get_eq (h : Kept k p s) (hnone : ∀ e ∈ s.queue.heap, e.action.restores? k = none) :
    s.world.get k = p := by
  have hnil : restorations k s.queue.heap = [] := List.filterMap_eq_nil_iff.mpr hnone
  have hlast := h.last
  rwa [hnil] at hlast

end Kept

/-- **A spike is temporary.**  Whatever spikes are called, at whatever times and for whatever
durations, if none outlasts all the spikes of its kind that it begins in, then whenever no
restoration is queued both probabilities are what they were at the start. -/
theorem spikes_are_temporary {seed : UInt64} {cfg : NetworkConfig} {s : FaultSim} {mode : Mode}
    (hrun : Relation.ReflTransGen SpikeStep ⟨.init seed cfg, .idle⟩ ⟨s, mode⟩)
    (hdone : ∀ e ∈ s.queue.heap, ∀ k, e.action.restores? k = none) :
    s.world.dropProb = cfg.dropProb ∧ s.world.dupProb = cfg.dupProb := by
  refine ⟨?_, ?_⟩
  · exact ((kept_init seed cfg .drop).steps hrun).get_eq fun e he => hdone e he .drop
  · exact ((kept_init seed cfg .dup).steps hrun).get_eq fun e he => hdone e he .dup

/-- `contained` at every event of the loop of `run_for`. -/
def allContained (D : Nat) : Nat → FaultSim → Bool
  | 0, _ => true
  | fuel + 1, s =>
    if s.Due D then contained s && allContained D fuel (s.processOne injector) else true

theorem drain_spikeSteps {D fuel : Nat} {s s' : FaultSim} (h : s.drain injector D fuel = some s')
    (hc : allContained D fuel s = true) :
    Relation.ReflTransGen SpikeStep ⟨s, .running D⟩ ⟨s'.atTime D, .idle⟩ := by
  induction fuel generalizing s with
  | zero => exact nomatch h
  | succ fuel ih =>
    rw [Simulator.drain] at h
    rw [allContained] at hc
    split at h
    · rename_i hdue
      rw [if_pos hdue, Bool.and_eq_true] at hc
      exact (ih h hc.2).head (.process s D hdue hc.1)
    · rename_i hdue
      cases h
      exact .single (.finish _ D hdue)

/-- A duration that is drawn. -/
def lasting (dur : Nat) (prng : Prng) : Nat × Prng := (dur, prng)

/-- Loss from 200 ms to 599 ms and, inside, from 300 ms to 400 ms; duplication from 350 ms to
550 ms. -/
def nestedSpikes : FaultSim :=
  ((((Simulator.init 0 ⟨1 / 10, 0⟩).schedule 200000 (.dropSpike (lasting 399000))).2.schedule 300000
    (.dropSpike (lasting 100000))).2.schedule 350000 (.dupSpike (lasting 200000))).2

theorem spikes_are_temporary_nested : ∃ s : FaultSim,
    nestedSpikes.RunsFor injector 1000000 s ∧ s.queue.heap.length = 0 ∧
      s.world.dropProb = 1 / 10 ∧ s.world.dupProb = 0 := by
  obtain ⟨t, ht⟩ := Option.isSome_iff_exists.mp
    (show ((nestedSpikes.enter 1000000).drain injector (nestedSpikes.deadline 1000000) 7).isSome =
      true by decide)
  have hempty : t.queue.heap.length = 0 := by
    have h : ((nestedSpikes.enter 1000000).drain injector (nestedSpikes.deadline 1000000) 7).map
        (·.queue.heap.length) = some 0 := by decide
    rw [ht] at h
    exact Option.some.inj h
  have hcalls : Relation.ReflTransGen SpikeStep ⟨.init 0 ⟨1 / 10, 0⟩, .idle⟩
      ⟨nestedSpikes, .idle⟩ := ((Relation.ReflTransGen.refl.tail
      (.spike _ 200000 (.dropSpike (lasting 399000)) rfl)).tail
      (.spike _ 300000 (.dropSpike (lasting 100000)) rfl)).tail
      (.spike _ 350000 (.dupSpike (lasting 200000)) rfl)
  have hrun := (hcalls.tail (.runFor nestedSpikes 1000000)).trans
    (drain_spikeSteps ht (by decide))
  refine ⟨t.atTime (nestedSpikes.deadline 1000000), ⟨7, ?_⟩, hempty,
    spikes_are_temporary hrun fun e he => ?_⟩
  · rw [Simulator.runFor, ht]
    rfl
  · have hnil : t.queue.heap = [] := List.eq_nil_of_length_eq_zero hempty
    change e ∈ t.queue.heap at he
    rw [hnil] at he
    exact nomatch he

/-- Loss from 200 ms to 500 ms and from 400 ms to 799 ms: two ticks of the injector, and durations
within the bounds of the source. -/
def overlappingSpikes : FaultSim :=
  (((Simulator.init 0 ⟨0, 0⟩).schedule 200000 (.dropSpike (lasting 300000))).2.schedule 400000
    (.dropSpike (lasting 399000))).2

/-- The second spike saves what the first one set, and restores it when the first has ended. -/
theorem leftover_loss : (overlappingSpikes.runFor injector 1000000 5).map
    (fun s => (s.queue.heap.length, s.world)) = some (0, ⟨3 / 10, 0⟩) := by
  decide +kernel

end SimKV.FaultInjector
