/-
# Time in a simulated run

With delays that are neither zero nor enormous (`Sane`), no event is scheduled at the time
at which it is scheduled, no time wraps, and so what `SimKV.Sim.Order` says of the
simulator holds at every moment (`Moment.sound`) and each `run_for` comes to an end.
`run_once` then returns, whatever is drawn and whatever the nodes do (`exists_runOnce`).
-/
import SimKV.Harness.RunnerSteps

namespace SimKV.Runner

open Sim

variable {M : Medium}

/-- More than any delay. -/
def kLongest : Nat := 2 ^ 62

/-- A configuration that makes sense. -/
structure RunConfig.Sane (cfg : RunConfig) : Prop where
  range : cfg.range.Bounded
  nodes : 0 < cfg.numNodes ∧ cfg.numNodes < 100
  latency : 0 < cfg.netCfg.minLatency ∧ cfg.netCfg.minLatency ≤ cfg.netCfg.maxLatency ∧
    cfg.netCfg.maxLatency < kLongest
  think : 0 < cfg.workloadCfg.thinkTime ∧ cfg.workloadCfg.thinkTime ≤ kLongest ∧
    cfg.workloadCfg.thinkTime * cfg.workload.numClients ≤ kLongest
  partitions : 2 ≤ cfg.fault.partitionDuration ∧ cfg.fault.partitionDuration * 2 ≤ kLongest
  downtime : 0 < cfg.fault.crashMinDown ∧ cfg.fault.crashMinDown < cfg.fault.crashMaxDown ∧
    cfg.fault.crashMaxDown ≤ kLongest
  check : 0 < cfg.fault.checkInterval ∧ cfg.fault.checkInterval ≤ kLongest

theorem sane_default : ({} : RunConfig).Sane where
  range := Prng.bounded_bounded 64
  nodes := by decide
  latency := by decide
  think := by decide
  partitions := by decide
  downtime := by decide
  check := by decide

/-- Two nodes, two clients, three operations, and a network that does its work. -/
def calm : RunConfig where
  seed := 5
  numNodes := 2
  totalOps := 3
  faultRate := 0
  netCfg := { minLatency := 1 * kMsec, maxLatency := 1 * kMsec }
  workloadCfg := { numClients := 2, numKeys := 1 }
  faultCfg := { dupRaiseProb := 0 }

theorem calm_sane : calm.Sane where
  range := Prng.bounded_bounded 64
  nodes := by decide
  latency := by decide
  think := by decide
  partitions := by decide
  downtime := by decide
  check := by decide

variable {cfg : RunConfig}

/-! ## Delays -/

section Waits

variable (hs : cfg.Sane)

include hs

/-- A delay that is drawn between bounds. -/
theorem RunConfig.Sane.drawn {lo hi : Nat} (hlo : 0 < lo) (hlt : lo < hi) (hhi : hi ≤ kLongest)
    (g : Prng) : 1 ≤ (cfg.range lo hi g).1 ∧ (cfg.range lo hi g).1 ≤ kLongest := by
  obtain ⟨h₁, h₂⟩ := hs.range lo hi g hlt (Nat.lt_of_le_of_lt hhi (by decide))
  exact ⟨Nat.le_trans hlo h₁, Nat.le_trans (Nat.le_of_lt h₂) hhi⟩

theorem sendCopy_waits (src dst : NodeId) (m : Msg M.Blob) :
    (sendCopy cfg src dst m).Waits 1 kLongest := by
  unfold sendCopy
  intro w
  dsimp only
  split
  · trivial
  · obtain ⟨h₁, h₂, h₃⟩ := hs.latency
    exact fun g => ⟨hs.drawn h₁ (Nat.lt_succ_of_le h₂) h₃ g, fun _ => trivial⟩

theorem send_waits (src dst : NodeId) (m : Msg M.Blob) :
    (send cfg src dst m).Waits 1 kLongest := by
  intro w
  change Script.Waits 1 kLongest (if w.net.cutOff src dst then _ else _)
  split
  · trivial
  · intro g
    change Script.Waits 1 kLongest (if _ then _ else _)
    split
    · trivial
    · refine (sendCopy_waits hs src dst m).andThen fun g => ?_
      change Script.Waits 1 kLongest (if _ then _ else _)
      split
      · exact sendCopy_waits hs src dst m
      · trivial

omit hs in
theorem arm_waits {delay : Nat} {a : Action M} {x : Slot} (h : 1 ≤ delay ∧ delay ≤ kLongest) :
    (arm delay a x).Waits 1 kLongest :=
  ⟨h, fun _ _ => trivial⟩

theorem timer_waits (n : NodeId) (op : TimerOp) :
    (timer cfg n op : Prog M).Waits 1 kLongest := by
  cases op with
  | scheduleElection gen =>
    exact fun g => arm_waits (hs.drawn (by decide) (by decide) (by decide) g)
  | cancelElection => exact fun w => trivial
  | scheduleHeartbeat => exact arm_waits (by decide)
  | cancelHeartbeat => exact fun w => trivial
  | scheduleRead round => exact arm_waits (by decide)
  | cancelRead round => exact fun w => trivial

theorem perform_waits (n : NodeId) (out : List (Effect M)) :
    (perform cfg n out).Waits 1 kLongest := by
  refine .inTurn fun p hp => ?_
  obtain ⟨e, -, rfl⟩ := List.mem_map.mp hp
  cases e with
  | send dst m => exact send_waits hs n dst m
  | timer op => exact timer_waits hs n op
  | _ => trivial

theorem sendOp_waits (ci : Nat) (kind : OpKind) (key value expected : Str) :
    (sendOp cfg ci kind key value expected : Prog M).Waits 1 kLongest := by
  unfold sendOp
  intro t w
  dsimp only
  split
  · exact (send_waits hs _ _ _).andThen (arm_waits (by decide))
  · trivial

theorem issueOp_waits (ci : Nat) : (issueOp cfg ci : Prog M).Waits 1 kLongest := by
  intro w
  change Script.Waits 1 kLongest (if _ then _ else if _ then _ else _)
  split
  · trivial
  · split
    · trivial
    · intro g
      change Script.Waits 1 kLongest (if _ then _ else if _ then _ else _)
      split
      · exact fun _ _ => sendOp_waits hs ci .put _ _ _
      · split
        · exact fun _ => sendOp_waits hs ci .get _ _ _
        · exact fun _ _ _ => sendOp_waits hs ci .cas _ _ _

theorem think_waits (ci : Nat) : (Script.schedule cfg.workloadCfg.thinkTime (.issueOp ci)
    fun _ => .done : Prog M).Waits 1 kLongest :=
  ⟨⟨hs.think.1, hs.think.2.1⟩, fun _ => trivial⟩

theorem onReply_waits (ci : Nat) (m : Msg M.Blob) : (onReply cfg ci m).Waits 1 kLongest := by
  intro w
  change Script.Waits 1 kLongest (if _ then _ else _)
  split
  · trivial
  · cases m with
    | clientReply reply =>
      change Script.Waits 1 kLongest (if _ then _ else _)
      split
      · trivial
      · exact Script.Waits.andThen (fun _ => trivial) fun _ => think_waits hs ci
    | _ => trivial

theorem onTimeout_waits (ci : Nat) : (onTimeout cfg ci : Prog M).Waits 1 kLongest := by
  intro w
  change Script.Waits 1 kLongest (if _ then _ else _)
  split
  · trivial
  · exact fun _ => think_waits hs ci

omit hs in
theorem shuffle_waits (range : Prng.Range) (k : Nat) (v : List NodeId)
    {next : List NodeId → Prog M} (h : ∀ v, (next v).Waits 1 kLongest) :
    (shuffle range k v next).Waits 1 kLongest := by
  induction k generalizing v with
  | zero => exact h v
  | succ k ih => exact fun g => ih _

theorem injectFault_waits (r : Rat) : (injectFault cfg r : Prog M).Waits 1 kLongest := by
  have hspike : ∀ k raise limit, (injectSpike cfg k raise limit : Prog M).Waits 1 kLongest :=
    fun k raise limit w g =>
      ⟨hs.drawn (by decide) (by decide) (by decide) g, fun _ => trivial⟩
  unfold injectFault
  split
  · unfold injectPartition
    split
    · trivial
    · obtain ⟨h₁, h₂⟩ := hs.partitions
      refine shuffle_waits _ _ _ fun ids g w g' => ⟨hs.drawn (by omega) (by omega) h₂ g', ?_⟩
      exact fun _ => trivial
  · split
    · exact hspike _ _ _
    · split
      · exact hspike _ _ _
      · unfold injectCrashRestart
        split
        · trivial
        · intro g w
          dsimp only
          split
          · trivial
          · split
            · trivial
            · obtain ⟨h₁, h₂, h₃⟩ := hs.downtime
              refine Script.Waits.andThen (fun w' w'' => perform_waits hs _ _) fun g' => ?_
              exact ⟨hs.drawn h₁ h₂ h₃ g', fun _ => trivial⟩

theorem tick_waits : (tick cfg : Prog M).Waits 1 kLongest := by
  intro w
  change Script.Waits 1 kLongest (if _ then _ else _)
  split
  · trivial
  · refine Script.Waits.andThen (fun g => ?_) (arm_waits hs.check)
    change Script.Waits 1 kLongest (if _ then _ else _)
    split
    · exact fun g' => injectFault_waits hs _
    · trivial

/-- No action schedules anything at once, or too far ahead. -/
theorem act_waits (a : Action M) : (act cfg a).Waits 1 kLongest := by
  cases a with
  | deliver fn src dst m =>
    cases fn with
    | node n => exact fun w => perform_waits hs n _
    | client ci => exact onReply_waits hs ci m
  | electionTimer n gen => exact fun w => perform_waits hs n _
  | heartbeatTimer n => exact fun w => perform_waits hs n _
  | readTimer n round => exact fun w => perform_waits hs n _
  | issueOp ci => exact issueOp_waits hs ci
  | opTimeout ci => exact onTimeout_waits hs ci
  | tick => exact tick_waits hs
  | heal => exact fun w => trivial
  | restart n => exact fun w => perform_waits hs n _
  | restore k old => exact fun w => trivial

end Waits

/-! ## Every moment -/

section Sound

variable {ph : Phase} {s : Sim M}

/-- A script that is run between two moments. -/
theorem exec_sound (lo : Nat) {p : Prog M} (hp : p.Waits lo kLongest) (hle : s.clock ≤ kEnd)
    (h : s.Sound ∧ s.wrapped = false) : (s.exec p).Sound ∧ (s.exec p).wrapped = false := by
  have hlt : s.clock + kLongest < 2 ^ 64 :=
    Nat.lt_of_le_of_lt (Nat.add_le_add_right hle _) (by decide)
  have hw := s.exec_unwrapped p hp hlt h.2
  exact ⟨h.1.exec p hw, hw⟩

/-- Nothing has wrapped, and the queue is in order. -/
theorem Moment.sound (hs : cfg.Sane) (h : Moment cfg ph s) :
    (s.Sound ∧ s.wrapped = false) ∧ s.clock ≤ kEnd := by
  induction h with
  | init => exact ⟨⟨Simulator.sound_init _ _, rfl⟩, Nat.zero_le _⟩
  | startNode _ hk ih =>
    obtain ⟨ih, hle⟩ := ih
    refine ⟨exec_sound 1 (p := Runner.startNode cfg _) (fun w => perform_waits hs _ _) hle ih, ?_⟩
    rw [Simulator.exec_clock]
    exact hle
  | booted _ ih => exact ih
  | @event ph s D _ _ hdue hD ih =>
    have hclock : (s.processOne (act cfg)).clock ≤ kEnd := Nat.le_trans (processOne_clock hdue) hD
    obtain ⟨e, rest, ordered, C, hq, he⟩ := hdue.exists_head
    have hw : (s.processOne (act cfg)).wrapped = false := by
      rw [Simulator.processOne_eq hq]
      split
      · exact ih.1.2
      · refine Simulator.exec_unwrapped _ (act_waits hs e.action) _ ?_ ih.1.2
        exact Nat.lt_of_le_of_lt (Nat.add_le_add_right (Nat.le_trans he hD) kLongest) (by decide)
    exact ⟨⟨(ih.1.1.processOne hdue hw).1, hw⟩, hclock⟩
  | pass _ _ hdue hle hD ih => exact ⟨⟨ih.1.1.atTime hle hdue, ih.1.2⟩, hD⟩
  | opened _ _ ih => exact ih
  | @startClient k s _ hk ih =>
    obtain ⟨ih, hle⟩ := ih
    refine ⟨exec_sound 0 (p := Runner.startClient cfg k) (fun w => ?_) hle ih, ?_⟩
    · refine ⟨⟨Nat.zero_le _, Nat.le_trans (Nat.mul_le_mul_left _ (Nat.le_of_lt hk)) ?_⟩,
        fun _ => trivial⟩
      exact hs.think.2.2
    · rw [Simulator.exec_clock]
      exact hle
  | startFaults _ ih =>
    obtain ⟨ih, hle⟩ := ih
    refine ⟨exec_sound 1 (p := Runner.startFaults cfg) (fun w => arm_waits (a := .tick) hs.check)
      hle ih, ?_⟩
    rw [Simulator.exec_clock]
    exact hle

end Sound

/-! ## `run_once` returns -/

section Returns

variable {s s' : Sim M}

theorem runSlices_mono {fuel fuel' D rounds rounds' : Nat} (hle : fuel ≤ fuel')
    (hrounds : rounds ≤ rounds') (h : runSlices cfg fuel D rounds s = some s') :
    runSlices cfg fuel' D rounds' s = some s' := by
  induction rounds generalizing rounds' s with
  | zero => exact absurd h (by simp [runSlices])
  | succ rounds ih =>
    obtain ⟨k, rfl⟩ : ∃ k, rounds' = k + 1 := ⟨rounds' - 1, by omega⟩
    rw [runSlices] at h ⊢
    split
    · rename_i hgo
      rw [if_pos hgo] at h
      obtain ⟨t, ht, h⟩ := Option.bind_eq_some_iff.mp h
      rw [Simulator.runFor_mono hle ht]
      exact ih (Nat.le_of_succ_le_succ hrounds) h
    · rename_i hgo
      rw [if_neg hgo] at h
      exact h

theorem runFor_returns (hs : cfg.Sane) {d : Nat} (s : Sim M) (hle : s.clock + d ≤ kEnd) :
    ∃ fuel s', s.runFor (act cfg) d fuel = some s' ∧ s'.clock = s.clock + d := by
  have hlt : s.clock + d + kLongest < 2 ^ 64 :=
    Nat.lt_of_le_of_lt (Nat.add_le_add_right hle _) (by decide)
  obtain ⟨s', fuel, h⟩ := Simulator.runsFor_returns (act_waits hs) s d hlt
  refine ⟨fuel, s', h, ?_⟩
  rw [Simulator.runsFor_clock ⟨fuel, h⟩]
  exact Nat.mod_eq_of_lt (Nat.lt_of_le_of_lt (Nat.le_add_right _ kLongest) hlt)

/-- Each slice brings the deadline nearer. -/
theorem runSlices_returns (hs : cfg.Sane) (s : Sim M) :
    ∃ fuel rounds s', runSlices cfg fuel kDeadline rounds s = some s' := by
  induction hd : kDeadline - s.clock using Nat.strong_induction_on generalizing s with
  | _ d ih =>
    by_cases hgo : (!done s.world.workload && decide (s.clock < kDeadline)) = true
    · have hlt : s.clock < kDeadline := of_decide_eq_true (Bool.and_eq_true _ _ ▸ hgo).2
      obtain ⟨fuel, t, ht, hclock⟩ := runFor_returns hs (d := 100 * kMsec) s
        (Nat.add_le_add_right (Nat.le_of_lt hlt) _)
      have hless : kDeadline - t.clock < d := by
        have hpos : 0 < 100 * kMsec := by decide
        omega
      obtain ⟨fuel', rounds, s', h⟩ := ih _ hless t rfl
      refine ⟨max fuel fuel', rounds + 1, s', ?_⟩
      rw [runSlices, if_pos hgo, Simulator.runFor_mono (Nat.le_max_left _ _) ht]
      exact runSlices_mono (Nat.le_max_right _ _) (Nat.le_refl _) h
    · exact ⟨0, 1, s, by rw [runSlices, if_neg hgo]⟩

/-- `run_once` comes to an end. -/
theorem exists_runOnce (hs : cfg.Sane) : ∃ fuel o, runOnce M cfg fuel = some o := by
  obtain ⟨fuel, s₁, h₁, hclock⟩ := runFor_returns hs (d := kSec) (boot M cfg)
    (by rw [boot_clock]; decide)
  rw [boot_clock, Nat.zero_add] at hclock
  obtain ⟨fuel', rounds, s₂, h₂⟩ := runSlices_returns hs
    (s₁.exec ((startWorkload cfg).andThen (startFaults cfg)))
  refine ⟨max fuel (max fuel' rounds), outcome (s₂.exec stopFaults), ?_⟩
  unfold runOnce
  rw [Simulator.runFor_mono (Nat.le_max_left _ _) h₁, Option.bind_eq_bind, Option.bind_some]
  change (runSlices cfg _ (Simulator.clock (s₁.exec _) + kMaxRunTime) _ _).bind _ = _
  rw [Simulator.exec_clock, hclock, show kSec + kMaxRunTime = kDeadline from rfl,
    runSlices_mono (by omega) (by omega) h₂]
  rfl

end Returns

end SimKV.Runner
