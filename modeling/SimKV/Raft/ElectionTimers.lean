/-
# No node loses its election timer

Every node has a clock of its own, which knows the election callbacks the node has
set and cancelled (`SimKV.Lib.Alarm`); the timer operations among the effects of a
step tell it what to do.  A callback that was cancelled may still run.

`Timed` ties the clock to the node.  A node that runs and does not lead has its
timer set; one that leads has not.  The flag, the generation and the clock are
changed by few acts (`SimKV.Raft.Acts`), and each of them is one operation of the
alarm.  Two steps fall out of the pattern.  When the current callback runs, the
clock has lost it before the node takes its flag down.  And `crash` takes the flag
down without telling the clock: the old callback stays, with a generation that the
restart leaves behind.
-/
import SimKV.Lib.Alarm
import SimKV.Raft.Acts
import SimKV.Runs

namespace SimKV

variable {M : Medium} {inp : Input M} {t : Nat}

/-! ## The alarm of a node -/

/-- What an effect asks of the clock of the election timer. -/
def Effect.alarmOp? : Effect M → Option Alarm.Op
  | .timer (.scheduleElection gen) => some (.schedule gen)
  | .timer .cancelElection => some .cancel
  | _ => none

def alarmOps (es : List (Effect M)) : List Alarm.Op := es.filterMap Effect.alarmOp?

@[simp] theorem alarmOps_append (es es' : List (Effect M)) :
    alarmOps (es ++ es') = alarmOps es ++ alarmOps es' := List.filterMap_append

theorem alarmOps_eq_nil {es : List (Effect M)} (h : ∀ e ∈ es, e.alarmOp? = none) :
    alarmOps es = [] := List.filterMap_eq_nil_iff.mpr h

theorem Effect.alarmOp?_mute {e : Effect M} (h : e.mute = true) : e.alarmOp? = none := by
  cases e with
  | timer op =>
    cases op with
    | scheduleElection gen => exact nomatch h
    | cancelElection => exact nomatch h
    | _ => rfl
  | _ => rfl

theorem alarmOps_mute {es : List (Effect M)} (h : ∀ e ∈ es, e.mute = true) : alarmOps es = [] :=
  alarmOps_eq_nil fun e he => Effect.alarmOp?_mute (h e he)

def Desk.alarm (d : Desk) : Alarm.Owner := ⟨d.electionScheduled, d.electionGeneration⟩

namespace Node

/-- The flag and the counter of the election timer. -/
def alarm (s : Node M) : Alarm.Owner :=
  ⟨s.timers.electionScheduled, s.timers.electionGeneration⟩

/-- The clock that was `c` when the step began. -/
def clockIn (c : Alarm.Clock) (s : Node M) : Alarm.Clock := c.ops (alarmOps s.out)

/-- The election timer of node `n` is set exactly while it runs and does not lead. -/
structure Timed (n : NodeId) (c : Alarm.Clock) (s : Node M) : Prop where
  id : s.id = n
  sound : Alarm.Sound s.alarm (s.clockIn c)
  armed : s.running = true → (s.timers.electionScheduled = true ↔ s.role ≠ .leader)
  idle : s.running = true → s.timers.electionScheduled = false →
    s.timers.electionGeneration ∉ (s.clockIn c).live
  vote : s.role ≠ .follower → s.votedFor = some n
  down : s.running = false → s.role = .follower ∧ s.timers.electionScheduled = false

/-- From `s` to `s'` nothing happened that the election timer depends on. -/
structure Untimed (s s' : Node M) : Prop where
  id : s'.id = s.id
  running : s'.running = s.running
  role : s'.role = s.role
  alarm : s'.alarm = s.alarm
  vote : s.role ≠ .follower → s'.votedFor = s.votedFor
  out : ∃ es, s'.out = s.out ++ es ∧ alarmOps es = []

namespace Untimed

variable {s s' s'' : Node M}

theorem trans (h : Untimed s s') (h' : Untimed s' s'') : Untimed s s'' := by
  obtain ⟨es, ho, hes⟩ := h.out
  obtain ⟨es', ho', hes'⟩ := h'.out
  exact ⟨h'.id.trans h.id, h'.running.trans h.running, h'.role.trans h.role,
    h'.alarm.trans h.alarm, fun hr => (h'.vote (h.role ▸ hr)).trans (h.vote hr), es ++ es',
    by rw [ho', ho, List.append_assoc], by rw [alarmOps_append, hes, hes', List.append_nil]⟩

theorem refl (s : Node M) : Untimed s s :=
  ⟨rfl, rfl, rfl, rfl, fun _ => rfl, [], (List.append_nil _).symm, rfl⟩

theorem of_desk {d : Desk} {es : List (Effect M)} (hd : s'.desk = d) (hid : d.id = s.id)
    (hrun : d.running = s.running) (hrole : d.role = s.role) (halarm : d.alarm = s.alarm)
    (hv : s.role ≠ .follower → s'.votedFor = s.votedFor) (ho : s'.out = s.out ++ es)
    (hes : ∀ e ∈ es, e.mute = true) : Untimed s s' := by
  subst hd
  exact ⟨hid, hrun, hrole, halarm, hv, es, ho, alarmOps_mute hes⟩

theorem clockIn (h : Untimed s s') (c : Alarm.Clock) : s'.clockIn c = s.clockIn c := by
  obtain ⟨es, ho, hes⟩ := h.out
  rw [Node.clockIn, ho, alarmOps_append, hes, List.append_nil]
  rfl

end Untimed

theorem Elsewhere.untimed {s s' : Node M} (h : Elsewhere s s') : Untimed s s' := by
  obtain ⟨es, ho, hes⟩ := h.out
  exact .of_desk h.desk rfl rfl rfl rfl h.vote ho hes

theorem Timed.untimed {n : NodeId} {c : Alarm.Clock} {s s' : Node M} (h : Timed n c s)
    (hu : Untimed s s') : Timed n c s' := by
  have hflag : s'.timers.electionScheduled = s.timers.electionScheduled :=
    congrArg Alarm.Owner.armed hu.alarm
  have hgen : s'.timers.electionGeneration = s.timers.electionGeneration :=
    congrArg Alarm.Owner.gen hu.alarm
  refine ⟨hu.id.trans h.id, ?_, ?_, ?_, ?_, ?_⟩
  · rw [hu.alarm, hu.clockIn]
    exact h.sound
  · rw [hu.running, hflag, hu.role]
    exact h.armed
  · rw [hu.running, hflag, hgen, hu.clockIn]
    exact h.idle
  · intro hr
    rw [hu.role] at hr
    rw [hu.vote hr]
    exact h.vote hr
  · rw [hu.running, hu.role, hflag]
    exact h.down

/-! ## Acts that do not concern the timer -/

theorem invoke_untimed (s : Node M) (cb : Callback) (r : CmdResult) :
    Untimed s (s.invoke cb r) := by
  unfold invoke
  cases cb.origin with
  | none => exact ⟨rfl, rfl, rfl, rfl, fun _ => rfl, [.clientDone cb r], rfl, rfl⟩
  | some p =>
    exact ⟨rfl, rfl, rfl, rfl, fun _ => rfl, [.clientDone cb r, _],
      by simp only [send, emit, List.append_assoc]; rfl, rfl⟩

theorem answer_untimed (s : Node M) (r : CmdResult) : Untimed s (s.answer r) := by
  unfold answer
  split
  · exact ⟨rfl, rfl, rfl, rfl, fun _ => rfl, [], (List.append_nil _).symm, rfl⟩
  · rename_i cb _
    have h := s.invoke_untimed cb r
    exact ⟨h.id, h.running, h.role, h.alarm, h.vote, h.out⟩

theorem alarmOps_flatMap (prs : List PendingRead) (ok : Bool) (f : PendingRead → Option Str) :
    alarmOps (M := M) (prs.flatMap fun pr =>
      [.timer (.cancelRead pr.round), .readDone pr.ticket ok (f pr)]) = [] :=
  alarmOps_eq_nil (forall_closedReads prs ok f (fun _ => rfl) fun _ _ => rfl)

theorem drain_untimed (s : Node M) : Untimed s s.drainPendingReads :=
  ⟨rfl, rfl, rfl, rfl, fun _ => rfl, _, rfl, alarmOps_flatMap _ _ _⟩

theorem readTimeout_untimed (s : Node M) (round : Nat) : Untimed s (s.readTimeout round) := by
  unfold readTimeout
  split
  · exact .refl s
  · exact ⟨rfl, rfl, rfl, rfl, fun _ => rfl, _, rfl, rfl⟩

theorem dropClients_untimed (s : Node M) : Untimed s s.dropClients := by
  have hall : ∀ (ps : List (Nat × Callback)) (s : Node M),
      Untimed s (ps.foldl (fun s p => s.invoke p.2 nodeCrashed) s) := by
    intro ps
    induction ps with
    | nil => exact fun s => .refl s
    | cons p ps ih => exact fun s => (s.invoke_untimed p.2 nodeCrashed).trans (ih _)
  unfold dropClients
  refine (hall s.pendingClients.toList s).trans ⟨rfl, rfl, rfl, rfl, fun _ => rfl, _, rfl, ?_⟩
  refine alarmOps_eq_nil fun e he => ?_
  obtain ⟨pr, -, rfl⟩ := List.mem_map.mp he
  rfl

end Node

theorem Opening.untimed {s s' : Node M} (h : Opening t s s') : s.Untimed s' := by
  cases h with
  | none => exact .refl s
  | place cmd cb hcb =>
    obtain ⟨hd, hv, es, ho, hes⟩ := s.placeEntry_desk cmd cb
    exact .of_desk hd rfl rfl rfl rfl (fun _ => hv) ho hes
  | readNow key =>
    exact ⟨rfl, rfl, rfl, rfl, fun _ => rfl, [.readBegun t s.commitIndex,
      .readDone t true (s.kv.get key)], by simp [Node.readNow, Node.emit], rfl⟩
  | beginRead key =>
    obtain ⟨hd, hv, es, ho, hes⟩ := s.beginRead_desk key t
    exact .of_desk hd rfl rfl rfl rfl (fun _ => hv) ho hes

namespace Node

/-! ## Acts of the timer -/

variable {n : NodeId} {c : Alarm.Clock}

theorem clockIn_emit (s : Node M) (e : Effect M) {op : Alarm.Op} (he : e.alarmOp? = some op) :
    (s.emit e).clockIn c = (s.clockIn c).op op := by
  have hops : alarmOps [e] = [op] := by simp [alarmOps, he]
  rw [clockIn, emit, alarmOps_append, hops, Alarm.Clock.ops_append]
  rfl

/-- `schedule_election_timeout` raises the flag. -/
theorem schedule_sound {s : Node M} (h : Alarm.Sound s.alarm (s.clockIn c)) :
    Alarm.Sound s.scheduleElectionTimeout.alarm (s.scheduleElectionTimeout.clockIn c) ∧
      s.scheduleElectionTimeout.timers.electionScheduled = true := by
  unfold scheduleElectionTimeout
  split
  · rename_i hflag
    exact ⟨h, hflag⟩
  · dsimp only
    rw [clockIn_emit _ _ rfl]
    exact ⟨h.schedule, rfl⟩

/-- `cancel_election_timeout` takes it down. -/
theorem cancel_sound {s : Node M} (h : Alarm.Sound s.alarm (s.clockIn c)) :
    Alarm.Sound s.cancelElectionTimeout.alarm (s.cancelElectionTimeout.clockIn c) ∧
      s.cancelElectionTimeout.timers.electionScheduled = false ∧
      (s.timers.electionScheduled = true → s.cancelElectionTimeout.timers.electionGeneration ∉
        (s.cancelElectionTimeout.clockIn c).live) := by
  unfold cancelElectionTimeout
  split
  · rename_i hflag
    rw [clockIn_emit _ _ rfl]
    obtain ⟨hs, hnone⟩ := h.cancel hflag
    exact ⟨hs, rfl, fun _ => hnone⟩
  · rename_i hflag
    exact ⟨h, by simpa using hflag, fun h => absurd h hflag⟩

/-- Cancel and schedule: what keeps the timer of a node that does not lead going. -/
theorem timed_reset {s : Node M} (hid : s.id = n) (h : Alarm.Sound s.alarm (s.clockIn c))
    (hrun : s.running = true) (hrole : s.role ≠ .leader)
    (hvote : s.role ≠ .follower → s.votedFor = some n) :
    Timed n c s.cancelElectionTimeout.scheduleElectionTimeout ∧
      s.cancelElectionTimeout.scheduleElectionTimeout.running = true := by
  obtain ⟨hsound, hflag⟩ := schedule_sound (cancel_sound h).1
  obtain ⟨tm, es, -, -, he⟩ := s.quietStep_resetElection
  have hrun' : s.cancelElectionTimeout.scheduleElectionTimeout.running = true := by
    rw [he]
    exact hrun
  have hrole' : s.cancelElectionTimeout.scheduleElectionTimeout.role = s.role := by rw [he]
  refine ⟨⟨by rw [he]; exact hid, hsound, fun _ => ?_,
    fun _ hf => (nomatch hflag.symm.trans hf), ?_,
    fun hdown => (nomatch hrun'.symm.trans hdown)⟩, hrun'⟩
  · rw [hrole']
    exact iff_of_true hflag hrole
  · rw [hrole', he]
    exact hvote

theorem sound_of_desk {s s₁ : Node M} {r : Role} {prs : List PendingRead} {es : List (Effect M)}
    (h : Alarm.Sound s.alarm (s.clockIn c))
    (hd : s₁.desk = { s.desk with role := r, pendingReads := prs })
    (ho : s₁.out = s.out ++ es) (hes : alarmOps es = []) :
    Alarm.Sound s₁.alarm (s₁.clockIn c) := by
  have halarm : s₁.alarm = s.alarm := congrArg Desk.alarm hd
  rw [halarm, clockIn, ho, alarmOps_append, hes, List.append_nil]
  exact h

/-- `inp` is not a request for a vote by `n`. -/
def NotAsked (n : NodeId) (inp : Input M) : Prop :=
  ∀ src rv, inp = .message src (.requestVote rv) → rv.candidateId ≠ n

/-- A node that stands or leads has voted for itself and grants nobody else's request. -/
theorem Timed.follower_of_grants {s : Node M} (h : Timed n c s) {src : NodeId} {rv : RequestVote}
    (hinp : inp = .message src (.requestVote rv)) (hask : NotAsked n inp)
    (hg : s.grants rv = true) : s.role = .follower := by
  by_contra hr
  simp only [grants, h.vote hr, Bool.and_eq_true, Bool.or_eq_true, Option.isNone_some,
    Bool.false_eq_true, false_or, beq_iff_eq, Option.some.injEq] at hg
  exact hask src rv hinp hg.1.2.symm

end Node

/-- An act of a running node, other than those of its election callback, a crash and a restart. -/
theorem Act.timed {n : NodeId} {c : Alarm.Clock} {s s' : Node M} (h : Act inp s s')
    (htimer : ∀ gen, inp ≠ .electionTimer gen) (hcrash : inp ≠ .crash) (hboot : inp ≠ .restart)
    (hask : Node.NotAsked n inp) (hs : s.Timed n c) (hrun : s.running = true) :
    s'.Timed n c ∧ s'.running = true := by
  have untimed : s.Untimed s' → s'.Timed n c ∧ s'.running = true := fun hu =>
    ⟨hs.untimed hu, hu.running.trans hrun⟩
  cases h with
  | elsewhere h => exact untimed h.untimed
  | stepDown T l hT =>
    obtain ⟨s₁, dropped, es, es', he, hd, -, ho, hes, hes'⟩ := s.becomeFollower_reset T l
    have hrole : s₁.role = .follower := congrArg Desk.role hd
    have hops : alarmOps (es ++ Node.cancelReads dropped ++ es') = [] := by
      rw [alarmOps_append, alarmOps_append, alarmOps_mute hes, alarmOps_mute hes',
        Node.cancelReads, Node.alarmOps_flatMap]
      rfl
    rw [he]
    exact Node.timed_reset ((congrArg Desk.id hd).trans hs.id)
      (Node.sound_of_desk hs.sound hd ho hops) ((congrArg Desk.running hd).trans hrun)
      (by rw [hrole]; decide) fun h => absurd hrole h
  | grant src rv hinp hg =>
    obtain ⟨s₁, es, he, hd, ho, hes⟩ := s.grantVote_reset rv.candidateId
    have hrole : s₁.role = .follower :=
      (congrArg Desk.role hd).trans (hs.follower_of_grants hinp hask hg)
    rw [he]
    exact Node.timed_reset ((congrArg Desk.id hd).trans hs.id)
      (Node.sound_of_desk hs.sound hd ho (alarmOps_mute hes))
      ((congrArg Desk.running hd).trans hrun) (by rw [hrole]; decide) fun h => absurd hrole h
  | expire hinp hidle => exact absurd hinp (htimer _)
  | campaign hinp hrun hrole => exact absurd hinp (htimer _)
  | win hrole =>
    obtain ⟨s₁, helse, hd, hv, ho⟩ := s.takeOffice_cancel
    have hflag : s.timers.electionScheduled = true :=
      (hs.armed hrun).mpr (by rw [hrole]; decide)
    have hs₁ := Node.sound_of_desk hs.sound hd (ho.trans (List.append_nil _).symm) rfl
    obtain ⟨hsound, hdown, hidle⟩ := Node.cancel_sound hs₁
    have hrole₁ : s₁.role = .leader := congrArg Desk.role hd
    have hflag₁ : s₁.timers.electionScheduled = true :=
      (congrArg Desk.electionScheduled hd).trans hflag
    have hrun₁ : s₁.running = true := (congrArg Desk.running hd).trans hrun
    have hid₁ : s₁.id = n := (congrArg Desk.id hd).trans hs.id
    obtain ⟨tm, es, -, -, he⟩ := s₁.quietStep_cancelElection
    have htimed : s₁.cancelElectionTimeout.Timed n c := by
      refine ⟨by rw [he]; exact hid₁, hsound, fun _ => ?_, fun _ _ => hidle hflag₁,
        fun _ => ?_, fun hd => ?_⟩
      · have hrole' : s₁.cancelElectionTimeout.role = .leader := by
          rw [he]
          exact hrole₁
        exact iff_of_false (by rw [hdown]; decide) (not_not_intro hrole')
      · rw [he]
        exact hv.trans (hs.vote (by rw [hrole]; decide))
      · rw [he] at hd
        cases hrun₁.symm.trans hd
    exact ⟨htimed.untimed helse.untimed, helse.untimed.running.trans (by rw [he]; exact hrun₁)⟩
  | answer r => exact untimed (s.answer_untimed r)
  | drain => exact untimed s.drain_untimed
  | ackRead round =>
    exact untimed ⟨rfl, rfl, rfl, rfl, fun _ => rfl, [], (List.append_nil _).symm, rfl⟩
  | readTimeout round => exact untimed (s.readTimeout_untimed round)
  | stop hinp => exact absurd hinp hcrash
  | dropClients hinp => exact absurd hinp hcrash
  | boot hinp => exact absurd hinp hboot
  | wake hinp => exact absurd hinp hboot

theorem Acts.timed {n : NodeId} {c : Alarm.Clock} {s s' : Node M} (h : Acts inp s s')
    (htimer : ∀ gen, inp ≠ .electionTimer gen) (hcrash : inp ≠ .crash) (hboot : inp ≠ .restart)
    (hask : Node.NotAsked n inp) (hs : s.Timed n c) (hrun : s.running = true) :
    s'.Timed n c ∧ s'.running = true := by
  induction h with
  | refl => exact ⟨hs, hrun⟩
  | tail _ ha ih => exact ha.timed htimer hcrash hboot hask ih.1 ih.2

namespace Node

variable {n : NodeId} {c : Alarm.Clock}

/-! ## Steps -/

/-- A callback of another generation changes nothing. -/
theorem electionTimer_stale (s : Node M) {gen : Nat} (h : gen ≠ s.timers.electionGeneration) :
    s.electionTimer gen = .ok s := by
  unfold electionTimer
  exact if_pos h

/-- Between steps no effect waits to be told to the clock. -/
theorem clockIn_of_out {s : Node M} (h : s.out = []) (c : Alarm.Clock) : s.clockIn c = c := by
  rw [clockIn, h]
  rfl

theorem Timed.run_stale {s : Node M} (h : Timed n c s) (hout : s.out = []) {gen : Nat}
    (hne : gen ≠ s.timers.electionGeneration) : Timed n (c.run gen) s := by
  have hsound := h.sound
  have hidle := h.idle
  rw [clockIn_of_out hout] at hsound hidle
  refine ⟨h.id, ?_, h.armed, fun hrun hflag => ?_, h.vote, h.down⟩
  · rw [clockIn_of_out hout]
    exact hsound.run_other hne
  · rw [clockIn_of_out hout]
    exact fun hmem => hidle hrun hflag (List.mem_of_mem_erase hmem)

/-- What the current callback does before it looks at the node. -/
def lowerFlag (s : Node M) : Node M :=
  { s with timers := { s.timers with electionScheduled := false } }

theorem Timed.lowerFlag_sound {s : Node M} (h : Timed n c s) (hout : s.out = []) :
    Alarm.Sound s.lowerFlag.alarm (s.lowerFlag.clockIn (c.run s.timers.electionGeneration)) ∧
      s.timers.electionGeneration ∉
        (s.lowerFlag.clockIn (c.run s.timers.electionGeneration)).live := by
  have hsound := h.sound
  rw [clockIn_of_out hout] at hsound
  rw [clockIn_of_out (s := s.lowerFlag) hout]
  exact hsound.run_current

/-- The current callback runs: the node stands, unless it is down. -/
theorem Timed.run_current {s : Node M} (h : Timed n c s) (hout : s.out = []) :
    Timed n (c.run s.timers.electionGeneration)
      (s.electionTimer s.timers.electionGeneration).state := by
  obtain ⟨hsound, hnone⟩ := h.lowerFlag_sound hout
  unfold electionTimer
  simp only [ne_eq, not_true_eq_false, if_false]
  split
  · rename_i hdown
    have hdown' : s.running = false := by simpa using hdown
    have hnot : ¬ s.running = true := by rw [hdown']; decide
    exact ⟨h.id, hsound, fun hrun => absurd hrun hnot, fun hrun => absurd hrun hnot, h.vote,
      fun _ => ⟨(h.down hdown').1, rfl⟩⟩
  · rename_i hrun
    have hrun' : s.running = true := by simpa using hrun
    have hup : ¬ s.running = false := by rw [hrun']; decide
    unfold onElectionTimeout
    split
    · rename_i hrole
      have hrole' : s.role = .leader := hrole
      exact ⟨h.id, hsound, fun _ => iff_of_false (by simp [Res.state]) (not_not_intro hrole'),
        fun _ _ => hnone, h.vote, fun hdown => absurd hdown hup⟩
    · unfold becomeCandidate
      rw [if_neg hrun]
      obtain ⟨s₁, es, he, hd, hv, ho, hes⟩ := s.lowerFlag.standForElection_reset
      have hs₁ : Alarm.Sound s₁.alarm (s₁.clockIn (c.run s.timers.electionGeneration)) :=
        sound_of_desk hsound hd ho (alarmOps_mute hes)
      have hrole : s₁.role = .candidate := congrArg Desk.role hd
      obtain ⟨hstand, hrun₁⟩ := timed_reset ((congrArg Desk.id hd).trans h.id) hs₁
        ((congrArg Desk.running hd).trans hrun') (by rw [hrole]; decide)
        fun _ => hv.trans (congrArg some h.id)
      unfold lowerFlag at he
      simp only [he]
      split
      · obtain ⟨tm, es', -, -, he'⟩ := s₁.quietStep_resetElection
        have hrole' : s₁.cancelElectionTimeout.scheduleElectionTimeout.role = .candidate := by
          rw [he']
          exact hrole
        have hacts : Acts (.heartbeatTimer : Input M) _ _ := becomeLeader_acts _ hrole'
        exact (hacts.timed (by simp) (by simp) (by simp) (by simp [NotAsked]) hstand hrun₁).1
      · exact hstand

/-- `crash` takes the flag down; the clock is not told. -/
theorem Timed.crash {s : Node M} (h : Timed n c s) : Timed n c s.crash.state := by
  have hstop : Timed n c s.stop :=
    ⟨h.id, h.sound.drop, fun hrun => (nomatch hrun), fun hrun => (nomatch hrun),
      fun hr => absurd rfl hr, fun _ => ⟨rfl, rfl⟩⟩
  unfold Node.crash
  simp only
  split
  · exact hstop.untimed (dropClients_untimed _)
  · split
    · exact hstop
    · rename_i kv _
      have hkv : Elsewhere s.stop { s.stop with kv := kv } := .of_eq rfl (fun _ => rfl) rfl
      exact (hstop.untimed hkv.untimed).untimed (dropClients_untimed _)

/-- A `restart` that returns has loaded the stores and, everything committed being applied, only
gone through the end of the apply loop. -/
theorem restart_ok {s s' : Node M} (hrest : s.Rested) (hok : s.restart = .ok s') :
    ∃ s₁ s₂, Reloads { s with running := true } s₁ ∧ Untimed s₁ s₂ ∧
      s₂.scheduleElectionTimeout = s' := by
  rw [restart_eq] at hok
  have hrest₁ := s.reboot_rested hrest
  cases hr₁ : s.reboot with
  | error e => rw [hr₁] at hok; cases hok
  | ok s₁ =>
    rw [hr₁] at hok hrest₁
    have hle : s₁.commitIndex ≤ s₁.lastApplied := hrest₁.2
    have happly : s₁.applyCommittedEntries = s₁.afterApply := by
      rw [applyCommittedEntries, Nat.sub_eq_zero_of_le hle]
      rfl
    have hafter : Untimed s₁ s₁.afterApply.state := by
      unfold afterApply
      simp only
      split
      · exact s₁.drain_untimed.trans (takeSnapshot_elsewhere _).untimed
      · exact s₁.drain_untimed
    have hok' : (s₁.applyCommittedEntries >>= fun s => pure s.scheduleElectionTimeout) =
      Except.ok s' := hok
    rw [happly] at hok'
    cases hr₂ : s₁.afterApply with
    | error e => rw [hr₂] at hok'; cases hok'
    | ok s₂ =>
      rw [hr₂] at hok' hafter
      exact ⟨s₁, s₂, .of_boot (congrArg Res.state hr₁), hafter, Except.ok.inj hok'⟩

/-- The timer is set again, under a new generation. -/
theorem Timed.restart {s s' : Node M} (h : Timed n c s) (hrest : s.Rested)
    (hdown : s.running = false) (hok : s.restart = .ok s') : Timed n c s' := by
  obtain ⟨s₁, s₂, ⟨T, v, l, kv, i, tm, d, ci, la, rfl, -⟩, hu, rfl⟩ := restart_ok hrest hok
  have hrole : s₂.role = .follower := hu.role.trans (h.down hdown).1
  have hrun : s₂.running = true := hu.running
  have hid : s₂.id = n := hu.id.trans h.id
  have hsound₂ : Alarm.Sound s₂.alarm (s₂.clockIn c) := by
    rw [hu.alarm, hu.clockIn]
    exact h.sound
  obtain ⟨hsound, hflag⟩ := schedule_sound hsound₂
  obtain ⟨tm', es, -, -, he⟩ := s₂.quietStep_scheduleElection
  have hrole' : s₂.scheduleElectionTimeout.role = .follower := by rw [he]; exact hrole
  have hrun' : s₂.scheduleElectionTimeout.running = true := by rw [he]; exact hrun
  exact ⟨by rw [he]; exact hid, hsound, fun _ => iff_of_true hflag (by rw [hrole']; decide),
    fun _ hf => (nomatch hflag.symm.trans hf), fun hr => absurd hrole' hr,
    fun hd => (nomatch hrun'.symm.trans hd)⟩

/-- A node that is down ignores everything but its timers and a restart. -/
theorem handle_down_untimed {s : Node M} (hdown : s.running = false)
    (htimer : ∀ gen, inp ≠ .electionTimer gen) (hboot : inp ≠ .restart) :
    Untimed s (s.handle t inp) := by
  cases inp with
  | message src m => rw [handle, onMessage, hdown]; exact .refl s
  | electionTimer gen => exact absurd rfl (htimer gen)
  | heartbeatTimer =>
    have hset : Elsewhere s { s with timers := { s.timers with heartbeatScheduled := false } } :=
      .of_eq rfl (fun _ => rfl) rfl
    simp only [handle, heartbeatTimer]
    rw [if_pos (by simp [hdown])]
    exact hset.untimed
  | readTimer round => exact s.readTimeout_untimed round
  | submit cid rid cmd =>
    simp only [handle, submit, hdown, Bool.not_false, true_or, if_true]
    exact .refl s
  | readIndex key =>
    simp only [handle, readIndex, hdown, Bool.not_false, true_or, if_true]
    exact .refl s
  | crash =>
    simp only [handle, hdown, Bool.false_eq_true, if_false]
    exact .refl s
  | restart => exact absurd rfl hboot

theorem Timed.handle_other {s : Node M} (h : Timed n c s)
    (htimer : ∀ gen, inp ≠ .electionTimer gen) (hcrash : inp ≠ .crash) (hboot : inp ≠ .restart)
    (hask : NotAsked n inp) : Timed n c (s.handle t inp) := by
  cases hrun : s.running with
  | true =>
    obtain ⟨s₁, ho, ha⟩ := s.handle_acts t inp
    exact (ha.timed htimer hcrash hboot hask (h.untimed ho.untimed)
      (ho.untimed.running.trans hrun)).1
  | false => exact h.untimed (handle_down_untimed hrun htimer hboot)

/-- The clock of a node that is about to handle `inp`. -/
def fired (inp : Input M) (c : Alarm.Clock) : Alarm.Clock :=
  match inp with
  | .electionTimer gen => c.run gen
  | _ => c

/-- **Every step keeps the timer**, if a `restart` returns and nobody asks a node for a vote in its
own name. -/
theorem handle_timed {s : Node M} (h : Timed n c s) (hout : s.out = []) (hrest : s.Rested)
    (hask : NotAsked n inp)
    (hboot : inp = .restart → s.running = true ∨ ∃ s', s.restart = .ok s') :
    Timed n (fired inp c) (s.handle t inp) := by
  cases inp with
  | electionTimer gen =>
    rw [handle]
    by_cases hgen : gen = s.timers.electionGeneration
    · subst hgen
      exact h.run_current hout
    · rw [s.electionTimer_stale hgen]
      exact h.run_stale hout hgen
  | crash =>
    rw [handle]
    split
    · exact h.crash
    · exact h
  | restart =>
    rw [handle]
    split
    · exact h
    · rename_i hrun
      obtain ⟨s', hs'⟩ := (hboot rfl).resolve_left hrun
      rw [hs']
      exact h.restart hrest (by simpa using hrun) hs'
  | message src m => exact h.handle_other (by simp) (by simp) (by simp) hask
  | heartbeatTimer => exact h.handle_other (by simp) (by simp) (by simp) hask
  | readTimer round => exact h.handle_other (by simp) (by simp) (by simp) hask
  | submit cid rid cmd => exact h.handle_other (by simp) (by simp) (by simp) hask
  | readIndex key => exact h.handle_other (by simp) (by simp) (by simp) hask

end Node

/-- The end of a step: the effects go to the clock. -/
theorem Node.Timed.settle {n : NodeId} {c : Alarm.Clock} {s : Node M} (h : s.Timed n c) :
    ({ s with out := [], applying := none } : Node M).Timed n (c.ops (alarmOps s.out)) :=
  ⟨h.id, h.sound, h.armed, h.idle, h.vote, h.down⟩

/-! ## Clusters with clocks -/

namespace Cluster

theorem input_restart {C : Cluster M} {e : Event} {n : NodeId}
    (h : C.input e = some (n, .restart)) : e = .restart n := by
  cases e with
  | deliver k =>
    simp only [input, Option.map_eq_some_iff, Prod.mk.injEq] at h
    obtain ⟨p, -, -, hp⟩ := h
    cases hp
  | restart m =>
    simp only [input, Option.some.injEq, Prod.mk.injEq] at h
    rw [h.1]
  | _ => simp [input] at h

/-- A request for a vote is in the name of its sender, who does not ask itself. -/
theorem requestVote_from (M : Medium) (r : Roster) (cfg : NodeId → RaftConfig) (es : List Event)
    {p : Packet M} (hp : p ∈ ((launch M r cfg).run es).net) {rv : RequestVote}
    (hmsg : p.msg = .requestVote rv) : rv.candidateId ≠ p.dst := by
  obtain ⟨es', e, k, -, hsent⟩ := exists_sentBy rfl hp
  rcases hsent.emitted (settled_run (settled_launch M r cfg) es') with
    ⟨inp, s, s', -, hn, -, hem, -, hrest⟩ | ⟨cr, hcr, -⟩
  · have hbasic := (fresh_launch M r cfg).basic_run es' p.src (by rwa [run_members] at hn)
    have hstep := (Node.handle_moves _ ((launch M r cfg).run es').now inp
      (settled_run (settled_launch M r cfg) es' p.src).2).1
    have hid : s'.id = p.src := hrest.kept.id.symm.trans (hstep.kept.id.trans hbasic.id)
    rw [hmsg] at hem
    cases hem with
    | requestVote d hd hpeers hrole =>
      rw [hpeers] at hd
      intro heq
      have hself : p.src = p.dst := hid.symm.trans heq
      exact hbasic.self (hself ▸ hd)
  · rw [hmsg] at hcr
    exact nomatch hcr

end Cluster

/-- A cluster, and the clock of the election timer of each node. -/
structure Clocked (M : Medium) where
  cluster : Cluster M
  clock : NodeId → Alarm.Clock

namespace Clocked

/-- All servers constructed and started. -/
def launch (M : Medium) (r : Roster) (cfg : NodeId → RaftConfig) : Clocked M where
  cluster := .launch M r cfg
  clock n := Alarm.Clock.empty.ops
    (alarmOps (Node.init M n (r.peers n) (cfg n)).start.state.out)

/-- An event; the clock of the node that takes it hears of what the node did. -/
def exec (X : Clocked M) (e : Event) : Clocked M where
  cluster := X.cluster.exec e
  clock :=
    match X.cluster.input e with
    | some (n, inp) =>
      if n ∈ X.cluster.members then
        Function.update X.clock n ((Node.fired inp (X.clock n)).ops
          (alarmOps ((X.cluster.node n).handle X.cluster.now inp).out))
      else X.clock
    | none => X.clock

/-- The clock runs callbacks it has, cancelled ones included; and a `restart` returns: an exception
that leaves it is not caught. -/
def Possible (X : Clocked M) : Event → Prop
  | .electionTimer n gen => (X.clock n).mayRun gen = true
  | .restart n =>
    (X.cluster.node n).running = true ∨ (X.cluster.node n).restart.isOk = true
  | _ => True

def run (X : Clocked M) (es : List Event) : Clocked M := es.foldl exec X

/-- Every event of the run is possible when it happens. -/
def Runs (X : Clocked M) : List Event → Prop
  | [] => True
  | e :: es => X.Possible e ∧ (X.exec e).Runs es

instance (X : Clocked M) : ∀ e, Decidable (X.Possible e)
  | .electionTimer n gen => inferInstanceAs (Decidable ((X.clock n).mayRun gen = true))
  | .restart n => inferInstanceAs (Decidable ((X.cluster.node n).running = true ∨
      (X.cluster.node n).restart.isOk = true))
  | .deliver _ | .clientSend _ _ _ | .heartbeatTimer _ | .readTimer _ _ | .submit _ _ _ _
  | .readIndex _ _ | .crash _ => .isTrue trivial

instance : ∀ (es : List Event) (X : Clocked M), Decidable (X.Runs es)
  | [], _ => .isTrue trivial
  | _ :: es, X => @instDecidableAnd _ _ _ (instDecidableRuns es (X.exec _))

theorem run_cluster (X : Clocked M) (es : List Event) :
    (X.run es).cluster = X.cluster.run es := by
  induction es generalizing X with
  | nil => rfl
  | cons e es ih => exact ih (X.exec e)

/-- Every node keeps its timer. -/
def AllTimed (X : Clocked M) : Prop :=
  ∀ n ∈ X.cluster.members, (X.cluster.node n).Timed n (X.clock n)

theorem allTimed_launch (M : Medium) (r : Roster) (cfg : NodeId → RaftConfig) :
    (launch M r cfg).AllTimed := by
  intro n _
  change ((Cluster.launch M r cfg).node n).Timed n (Alarm.Clock.empty.ops
    (alarmOps (Node.init M n (r.peers n) (cfg n)).start.state.out))
  rw [Cluster.launch_node, Cluster.start_init]
  exact ⟨rfl, (Alarm.Sound.empty 0).schedule, fun _ => iff_of_true rfl (by simp [Node.init]),
    fun _ hf => (nomatch hf), fun hr => absurd rfl hr, fun hd => (nomatch hd)⟩

theorem AllTimed.exec {X : Clocked M} (h : X.AllTimed) (hC : X.cluster.Settled) {e : Event}
    (hp : X.Possible e)
    (hask : ∀ n inp, X.cluster.input e = some (n, inp) → Node.NotAsked n inp) :
    (X.exec e).AllTimed := by
  intro n hn
  have hn' : n ∈ X.cluster.members := by rwa [← X.cluster.exec_members e]
  have keep : (X.cluster.exec e).node n = X.cluster.node n → (X.exec e).clock n = X.clock n →
      ((X.exec e).cluster.node n).Timed n ((X.exec e).clock n) := by
    intro hnode hclock
    rw [hclock]
    change ((X.cluster.exec e).node n).Timed n _
    rw [hnode]
    exact h n hn'
  cases hinp : X.cluster.input e with
  | none =>
    refine keep (Cluster.exec_node_of_none hinp n) ?_
    simp only [Clocked.exec, hinp]
  | some q =>
    obtain ⟨m, inp⟩ := q
    by_cases hmn : n = m
    · subst hmn
      have hboot : inp = .restart → (X.cluster.node n).running = true ∨
          ∃ s', (X.cluster.node n).restart = .ok s' := by
        intro hr
        subst hr
        obtain rfl := Cluster.input_restart hinp
        refine hp.imp_right fun hok => ?_
        cases hres : (X.cluster.node n).restart with
        | ok s' => exact ⟨s', rfl⟩
        | error err => rw [hres] at hok; exact nomatch hok
      have hstep := Node.handle_timed (t := X.cluster.now) (h n hn') (hC n).1 (hC n).2
        (hask n inp hinp) hboot
      have hclock : (X.exec e).clock n = (Node.fired inp (X.clock n)).ops
          (alarmOps ((X.cluster.node n).handle X.cluster.now inp).out) := by
        simp only [Clocked.exec, hinp, if_pos hn', Function.update_self]
      rw [hclock]
      change ((X.cluster.exec e).node n).Timed n _
      rw [Cluster.exec_node hinp hn']
      exact hstep.settle
    · refine keep (Cluster.exec_node_of_ne hinp hmn) ?_
      simp only [Clocked.exec, hinp]
      split
      · exact Function.update_of_ne hmn _ _
      · rfl

theorem runs_concat {X : Clocked M} {es : List Event} {e : Event} (h : X.Runs (es ++ [e])) :
    X.Runs es ∧ (X.run es).Possible e := by
  induction es generalizing X with
  | nil => exact ⟨trivial, h.1⟩
  | cons e' es ih =>
    obtain ⟨hes, he⟩ := ih h.2
    exact ⟨⟨h.1, hes⟩, he⟩

theorem settled_run (M : Medium) (r : Roster) (cfg : NodeId → RaftConfig) (es : List Event) :
    ((launch M r cfg).run es).cluster.Settled := by
  rw [run_cluster]
  exact Cluster.settled_run (Cluster.settled_launch M r cfg) es

theorem allTimed_run (M : Medium) (r : Roster) (cfg : NodeId → RaftConfig) (es : List Event)
    (hp : (launch M r cfg).Runs es) : ((launch M r cfg).run es).AllTimed := by
  induction es using List.reverseRecOn with
  | nil => exact allTimed_launch M r cfg
  | append_singleton es e ih =>
    obtain ⟨hes, he⟩ := runs_concat hp
    have hrun : (launch M r cfg).run (es ++ [e]) = ((launch M r cfg).run es).exec e :=
      List.foldl_append
    rw [hrun]
    refine (ih hes).exec (settled_run M r cfg es) he ?_
    rintro n inp hinp src rv rfl
    obtain ⟨k, p, -, hpk, -, rfl, hmsg⟩ := Cluster.input_message hinp
    rw [run_cluster] at hpk
    exact Cluster.requestVote_from M r cfg es (List.mem_of_getElem? hpk) hmsg

/-- **No node loses its election timer.**  In every run of a cluster whose clocks may still run
callbacks that were cancelled, a node that runs and does not lead has its flag up and exactly one
pending callback, not cancelled, of the current generation; a node that runs and leads has none; and
a callback of any other generation, cancelled ones included, changes nothing. -/
theorem election_timer_kept (M : Medium) (r : Roster) (cfg : NodeId → RaftConfig)
    (es : List Event) (hp : (launch M r cfg).Runs es) (n : NodeId) (hn : n ∈ r.members)
    (s : Node M) (hs : ((launch M r cfg).run es).cluster.node n = s)
    (c : Alarm.Clock) (hc : ((launch M r cfg).run es).clock n = c) :
    (s.running = true → s.role ≠ .leader →
      s.timers.electionScheduled = true ∧ c.live.count s.timers.electionGeneration = 1) ∧
    (s.running = true → s.role = .leader → s.timers.electionGeneration ∉ c.live) ∧
    (∀ gen ∈ c.late, gen ≠ s.timers.electionGeneration) ∧
    ∀ gen t, gen ≠ s.timers.electionGeneration → s.handle t (.electionTimer gen) = s := by
  have h := allTimed_run M r cfg es hp n (by
    rw [run_cluster, Cluster.run_members]
    exact hn)
  rw [hs, hc] at h
  have hclock : s.clockIn c = c := by
    have hout := (settled_run M r cfg es n).1
    rw [hs] at hout
    rw [Node.clockIn, hout]
    rfl
  have hsound := h.sound
  have hidle := h.idle
  rw [hclock] at hsound hidle
  refine ⟨fun hrun hrole => ?_, fun hrun hrole => ?_, fun gen hgen => ?_, fun gen t hgen => ?_⟩
  · have hflag := (h.armed hrun).mpr hrole
    exact ⟨hflag, hsound.count_eq_one hflag⟩
  · refine hidle hrun ?_
    by_contra hflag
    exact (h.armed hrun).mp (by simpa using hflag) hrole
  · exact Nat.ne_of_lt (hsound.late_lt gen hgen)
  · rw [Node.handle, s.electionTimer_stale hgen]
    rfl

/-- Node 1 is elected; node 2, which voted, is given its cancelled callback; node 3 crashes and
restarts before its first callback runs. -/
def restlessRun : List Event :=
  [.electionTimer 1 1, .deliver 0, .electionTimer 2 1, .deliver 2, .crash 3, .restart 3,
    .electionTimer 3 1]

theorem election_timer_kept_restless :
    (((launch Medium.bytes (.ofList [1, 2, 3]) fun _ => {}).run restlessRun).clock 3).live = [2] ∧
    (((launch Medium.bytes (.ofList [1, 2, 3]) fun _ => {}).run restlessRun).clock 3).live.count
      (((launch Medium.bytes (.ofList [1, 2, 3]) fun _ => {}).run
        restlessRun).cluster.node 3).timers.electionGeneration = 1 := by
  have hruns : (launch Medium.bytes (.ofList [1, 2, 3]) fun _ => {}).Runs restlessRun := by
    decide +kernel
  refine ⟨by decide +kernel, ?_⟩
  exact ((election_timer_kept Medium.bytes (.ofList [1, 2, 3]) (fun _ => {}) restlessRun hruns 3
    (by decide) _ rfl _ rfl).1 (by decide +kernel) (by decide +kernel)).2

end Clocked

end SimKV
