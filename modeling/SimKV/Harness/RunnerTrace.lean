/-
# The events of a simulated run

A seed decides a simulated run, and with it what the run is for the clients and the cluster:
here the harness is carried along (`Shadow`), and each entry of the queue gives it the
events that the entry stands for (`nextEvents`).  The events of the whole run are `trace`,
a function of the configuration.

So what was shown of runs of the harness under conditions on its events can be said of
what `run_once` reports, with the conditions on its own events (`runOnce_history`).
-/
import SimKV.Harness.RunnerRefines

namespace SimKV.Runner

open Sim

variable {M : Medium} {cfg : RunConfig} {s s' : Sim M} {ph : Phase}

/-! ## A harness that is carried along -/

/-- A harness, and the events that led to it. -/
structure Shadow (M : Medium) (cfg : RunConfig) where
  events : List HarnessEvent
  harness : Harness M
  harness_eq : harness = (cfg.harness M).run events

namespace Shadow

def init (M : Medium) (cfg : RunConfig) : Shadow M cfg := ⟨[], cfg.harness M, rfl⟩

def extend (es : List HarnessEvent) (sh : Shadow M cfg) : Shadow M cfg where
  events := sh.events ++ es
  harness := sh.harness.run es
  harness_eq := by rw [sh.harness_eq, Harness.run_append]

variable (T : Tagging M)

/-- The shadow of the next entry of the queue. -/
def next (s s' : Sim M) (sh : Shadow M cfg) : Shadow M cfg :=
  sh.extend (nextEvents T cfg.ids sh.harness.cluster.net s s')

/-- `Simulator.drain`. -/
def drain (D : Nat) : Nat → Shadow M cfg → Sim M → Option (Shadow M cfg × Sim M)
  | 0, _, _ => none
  | fuel + 1, sh, s =>
    if s.Due D then
      drain D fuel (sh.next T s (s.processOne (act cfg))) (s.processOne (act cfg))
    else some (sh, s)

/-- `Simulator.runFor`. -/
def runFor (d fuel : Nat) (sh : Shadow M cfg) (s : Sim M) : Option (Shadow M cfg × Sim M) :=
  (drain T (s.deadline d) fuel sh (s.enter d)).map fun (sh', s') =>
    (sh'.extend [.tick (s.deadline d - s'.clock)], s'.atTime (s.deadline d))

/-- `Runner.runSlices`. -/
def runSlices (fuel deadline : Nat) :
    Nat → Shadow M cfg → Sim M → Option (Shadow M cfg × Sim M)
  | 0, _, _ => none
  | rounds + 1, sh, s =>
    if !done s.world.workload && decide (s.clock < deadline) then
      (runFor T (100 * kMsec) fuel sh s).bind fun (sh', s') =>
        runSlices fuel deadline rounds sh' s'
    else some (sh, s)

/-- `Runner.runOnce`, up to the moment at which the fault injector is stopped. -/
def runOnce (cfg : RunConfig) (fuel : Nat) : Option (Shadow M cfg × Sim M) := do
  let (sh, s) ← runFor T kSec fuel (.init M cfg) (boot M cfg)
  let s := s.exec ((startWorkload cfg).andThen (startFaults cfg))
  runSlices T fuel (s.clock + kMaxRunTime) fuel sh s

/-! The run is the same with the harness and without it. -/

theorem drain_snd (D fuel : Nat) (sh : Shadow M cfg) (s : Sim M) :
    (drain T D fuel sh s).map Prod.snd = s.drain (act cfg) D fuel := by
  induction fuel generalizing sh s with
  | zero => rfl
  | succ fuel ih =>
    rw [drain, Simulator.drain]
    split
    · exact ih _ _
    · rfl

theorem runFor_snd (d fuel : Nat) (sh : Shadow M cfg) (s : Sim M) :
    (runFor T d fuel sh s).map Prod.snd = s.runFor (act cfg) d fuel := by
  rw [runFor, Simulator.runFor, ← drain_snd T _ _ sh, Option.map_map, Option.map_map]
  rfl

theorem runSlices_snd (fuel deadline rounds : Nat) (sh : Shadow M cfg) (s : Sim M) :
    (runSlices T fuel deadline rounds sh s).map Prod.snd =
      Runner.runSlices cfg fuel deadline rounds s := by
  induction rounds generalizing sh s with
  | zero => rfl
  | succ rounds ih =>
    rw [runSlices, Runner.runSlices]
    split
    · rw [← runFor_snd T _ _ sh, Option.map_bind, Option.bind_map]
      exact Option.bind_congr fun x _ => ih _ _
    · rfl

theorem runOnce_snd (cfg : RunConfig) (fuel : Nat) :
    (runOnce T cfg fuel).map (fun x => outcome (x.2.exec stopFaults)) =
      Runner.runOnce M cfg fuel := by
  rw [Runner.runOnce, ← runFor_snd T _ _ (.init M cfg), runOnce]
  simp only [Option.bind_eq_bind, Option.bind_map, Option.map_bind]
  refine Option.bind_congr fun x _ => ?_
  change Option.map _ (runSlices T fuel _ fuel x.1 _) = _
  rw [Function.comp_apply, ← runSlices_snd T _ _ _ x.1, Option.bind_map, Option.map_eq_bind]
  rfl

end Shadow

/-- The events that `run_once` is for the clients and the cluster. -/
def trace (T : Tagging M) (cfg : RunConfig) (fuel : Nat) : List HarnessEvent :=
  ((Shadow.runOnce T cfg fuel).map fun x => x.1.events).getD []

/-! ## The shadow keeps up -/

structure Follows (ph : Phase) (sh : Shadow M cfg) (s : Sim M) : Prop where
  moment : Moment cfg ph s
  refines : Refines cfg ph sh.events s
  once : cfg.Single → Once cfg sh.events [] s

namespace Follows

variable {T : Tagging M} {sh sh' : Shadow M cfg} {D fuel : Nat}

theorem boot (hs : cfg.Sane) : Follows .warmup (.init M cfg) (boot M cfg) := by
  obtain ⟨es, hr, ho, hnil⟩ := (boot_booting M cfg).refines hs
  obtain rfl := hnil _ rfl
  exact ⟨boot_moment M cfg,
    hr.phase fun n hn _ => decide_eq_true (RunConfig.mem_ids.mp hn).2, ho⟩

theorem next (hs : cfg.Sane) (h : Follows ph sh s) (hph : ph.runs = true) (hdue : s.Due D)
    (hD : D ≤ kEnd) :
    Follows ph (sh.next T s (s.processOne (act cfg))) (s.processOne (act cfg)) := by
  obtain ⟨hr, ho⟩ := refines_processOne T hs h.moment hph hdue h.refines rfl
  rw [← sh.harness_eq] at hr ho
  exact ⟨.event h.moment hph hdue hD, hr,
    fun hsingle => ho (h.moment.unspiked hsingle).1 (h.once hsingle)⟩

theorem drain (hs : cfg.Sane) (h : Follows ph sh s) (hph : ph.runs = true) (hD : D ≤ kEnd)
    (hle : s.clock ≤ D) (hs' : Shadow.drain T D fuel sh s = some (sh', s')) :
    Follows ph sh' s' ∧ ¬ s'.Due D ∧ s'.clock ≤ D := by
  induction fuel generalizing sh s with
  | zero => exact absurd hs' (by simp [Shadow.drain])
  | succ fuel ih =>
    rw [Shadow.drain] at hs'
    split at hs'
    · rename_i hdue
      exact ih (h.next hs hph hdue hD) (processOne_clock hdue) hs'
    · rename_i hdue
      cases hs'
      exact ⟨h, hdue, hle⟩

theorem runFor (hs : cfg.Sane) {d : Nat} (h : Follows ph sh s) (hph : ph.runs = true)
    (hD : s.clock + d ≤ kEnd) (hs' : Shadow.runFor T d fuel sh s = some (sh', s')) :
    Follows ph sh' s' ∧ s'.clock = s.clock + d ∧ ¬ s'.Due s'.clock := by
  have hlt : s.clock + d < 2 ^ 64 := Nat.lt_of_le_of_lt hD (by decide)
  have hdl : s.deadline d = s.clock + d := Nat.mod_eq_of_lt hlt
  rw [Shadow.runFor, hdl, Simulator.enter_eq hlt] at hs'
  obtain ⟨⟨sh₁, t⟩, ht, hs'⟩ := Option.map_eq_some_iff.mp hs'
  obtain ⟨hf, hdue, hle⟩ := h.drain hs hph hD (Nat.le_add_right _ _) ht
  cases hs'
  exact ⟨⟨.pass hf.moment hph hdue hle hD,
    hf.refines.tick (t := t.atTime (s.clock + d)) rfl hle fun _ he => he,
    fun hsingle => (hf.once hsingle).tick _ _⟩, rfl, hdue⟩

theorem start (h : Follows .warmup sh s) (hclock : s.clock = kSec) :
    Follows .working sh (s.exec ((startWorkload cfg).andThen (startFaults cfg))) := by
  rw [Simulator.exec_andThen]
  have hall := startWorkload_induction (I := fun k => Follows (.starting k) sh)
    ⟨.opened h.moment hclock, h.refines.phase fun _ _ _ => rfl, h.once⟩
    fun k hk t ht => ⟨.startClient ht.moment hk, ht.refines.startClient hk,
      fun hsingle => (ht.once hsingle).startClient k⟩
  exact ⟨.startFaults hall.moment, hall.refines.startFaults,
    fun hsingle => (hall.once hsingle).startFaults⟩

theorem runSlices (hs : cfg.Sane) {rounds : Nat} (h : Follows .working sh s)
    (hle : s.clock ≤ kEnd)
    (hs' : Shadow.runSlices T fuel kDeadline rounds sh s = some (sh', s')) :
    Follows .working sh' s' := by
  induction rounds generalizing sh s with
  | zero => exact absurd hs' (by simp [Shadow.runSlices])
  | succ rounds ih =>
    rw [Shadow.runSlices] at hs'
    split at hs'
    · rename_i hgo
      rw [Bool.and_eq_true, decide_eq_true_eq] at hgo
      obtain ⟨⟨sh₁, t⟩, ht, hs'⟩ := Option.bind_eq_some_iff.mp hs'
      have hend : s.clock + 100 * kMsec ≤ kEnd := Nat.add_le_add_right (Nat.le_of_lt hgo.2) _
      obtain ⟨hf, hclock, -⟩ := h.runFor hs rfl hend ht
      exact ih hf (hclock ▸ hend) hs'
    · cases hs'
      exact h

theorem runOnce (hs : cfg.Sane) (hs' : Shadow.runOnce T cfg fuel = some (sh, s)) :
    Follows .working sh s := by
  obtain ⟨⟨sh₁, t⟩, ht, hs'⟩ := Option.bind_eq_some_iff.mp hs'
  have hend : (Runner.boot M cfg).clock + kSec ≤ kEnd := by
    rw [boot_clock]
    decide
  obtain ⟨hf, hclock, -⟩ := (boot hs).runFor hs rfl hend ht
  rw [boot_clock, Nat.zero_add] at hclock
  have hclock' : (t.exec ((startWorkload cfg).andThen (startFaults cfg))).clock = kSec := by
    rw [Simulator.exec_clock, hclock]
  dsimp only at hs'
  rw [hclock'] at hs'
  exact (hf.start hclock).runSlices hs (by rw [hclock']; decide) hs'

end Follows

end SimKV.Runner
