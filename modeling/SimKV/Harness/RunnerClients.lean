/-
# Every operation comes to an end

A client that waits has one timer, and the timer is set for the operation that it waits
for: `on_reply` cancels it by the id that it was scheduled under, so no timer of an earlier
operation ever ends a later one (`Attended`).  A client that does not wait has its next
operation in the queue, unless all operations were issued.

So no operation is outstanding for longer than the timeout (`no_operation_overdue`), and the
clients cannot fall behind: by when the `i`-th operation is issued can be computed from the
configuration (`Timely`).  If that leaves enough time, all operations are completed before
`run_once` runs out of it (`runOnce_completes`), unless an exception of a node ends it.
-/
import SimKV.Harness.RunnerRefines

namespace SimKV.Runner

open Sim

variable {M : Medium} {cfg : RunConfig} {s s' : Sim M} {ph : Phase}

/-- By when client `ci` has issued its operation number `r`, however long it waits for answers. -/
def RunConfig.latest (cfg : RunConfig) (ci r : Nat) : Nat :=
  kSec + cfg.workloadCfg.thinkTime * ci + r * (kOpTimeout + cfg.workloadCfg.thinkTime)

theorem RunConfig.latest_succ (cfg : RunConfig) (ci r : Nat) :
    cfg.latest ci (r + 1) = cfg.latest ci r + kOpTimeout + cfg.workloadCfg.thinkTime := by
  unfold latest
  rw [Nat.succ_mul]
  omega

theorem RunConfig.latest_mono (cfg : RunConfig) {ci cj r q : Nat} (hc : ci ≤ cj) (hr : r ≤ q) :
    cfg.latest ci r ≤ cfg.latest cj q :=
  Nat.add_le_add (Nat.add_le_add_left (Nat.mul_le_mul_left _ hc) _) (Nat.mul_le_mul_right _ hr)

/-! ## What is queued for a client -/

/-- The timer and the next operation of client `ci`. -/
def Action.concerns (ci : Nat) : Action M → Bool
  | .opTimeout cj => cj == ci
  | .issueOp cj => cj == ci
  | _ => false

/-- A call that leaves the events of client `ci` alone. -/
def Call.spares (ci : Nat) : Call M → Bool
  | .schedule _ a => !a.concerns ci
  | .cancel x => x != .timeout ci
  | .draw _ => true

theorem Action.slot?_ne {a : Action M} {ci : Nat} (h : a.concerns ci = false) :
    a.slot? ≠ some (.timeout ci) := by
  intro hx
  cases a with
  | opTimeout cj =>
    cases hx
    rw [concerns, beq_self_eq_true] at h
    cases h
  | _ => cases hx

theorem remember_of_ne {o : Option Slot} {x : Slot} (h : o ≠ some x) (id : Nat)
    (ids : Slot → Nat) : remember o id ids x = ids x := by
  cases o with
  | none => rfl
  | some y => exact Function.update_of_ne (fun heq => h (congrArg some heq.symm)) _ _

theorem Sending.spares {net : Network Handler} {src dst : NodeId} {m : Msg M.Blob} {c : Call M}
    (h : Sending cfg net src dst m c) (ci : Nat) : c.spares ci = true := by
  cases h with
  | draw g => rfl
  | copy fn g _ _ => rfl

theorem Emission.spares {net : Network Handler} {n : NodeId} {out : List (Effect M)} {c : Call M}
    (h : Emission cfg net n out c) (ci : Nat) : c.spares ci = true := by
  cases h with
  | send _ hc => exact hc.spares ci
  | timer _ hc => cases hc <;> rfl

/-- The queue, and before it the event that is being processed. -/
def atHand (x : Option (Sim.Event (Action M))) (s : Sim M) : List (Sim.Event (Action M)) :=
  x.toList ++ s.queue.heap

theorem mem_atHand_schedule {x : Option (Sim.Event (Action M))} {delay : Nat} {a : Action M}
    {e : Sim.Event (Action M)} : e ∈ atHand x (call s (.schedule delay a)) ↔
      e = ⟨(s.clock + delay) % 2 ^ 64, s.nextSeq, a⟩ ∨ e ∈ atHand x s := by
  unfold atHand
  rw [List.mem_append, List.mem_append, mem_call_schedule]
  exact or_left_comm

/-- Client `ci` as the simulator sees it. -/
structure Attended (cfg : RunConfig) (x : Option (Sim.Event (Action M))) (s : Sim M) (ci : Nat) :
    Prop where
  /-- A timer that will go off is that of the operation that the client waits for. -/
  live : ∀ e ∈ atHand x s, e.action = .opTimeout ci → e.seq ∉ s.queue.cancelled →
    e.seq ≠ 0 ∧ e.seq = s.world.ids (.timeout ci) ∧
      (s.world.workload.clients ci).waiting = true ∧
      e.time = (s.world.workload.clients ci).sentAt + kOpTimeout
  armed : (s.world.workload.clients ci).waiting = true →
    ∃ e ∈ atHand x s, e.action = .opTimeout ci ∧ e.seq ∉ s.queue.cancelled
  next : ∀ e ∈ atHand x s, e.action = .issueOp ci →
    (s.world.workload.clients ci).waiting = false ∧
      e.time ≤ cfg.latest ci (s.world.workload.clients ci).nextRequestId
  once : ∀ e ∈ atHand x s, ∀ e' ∈ atHand x s, e.action = .issueOp ci → e'.action = .issueOp ci →
    e.seq = e'.seq
  idle : (s.world.workload.clients ci).waiting = false →
    s.world.workload.cfg.totalOps ≤ s.world.workload.opsIssued ∨
      ∃ e ∈ atHand x s, e.action = .issueOp ci
  paced : (s.world.workload.clients ci).waiting = true →
    (s.world.workload.clients ci).sentAt + kOpTimeout + cfg.workloadCfg.thinkTime ≤
      cfg.latest ci (s.world.workload.clients ci).nextRequestId

/-- Nothing that is at hand is for client `ci`, unless it is cancelled. -/
def Clear (x : Option (Sim.Event (Action M))) (s : Sim M) (ci : Nat) : Prop :=
  ∀ e ∈ atHand x s, e.action ≠ .issueOp ci ∧
    (e.action = .opTimeout ci → e.seq ∈ s.queue.cancelled)

namespace Attended

variable {x : Option (Sim.Event (Action M))} {ci : Nat}

theorem put (h : Attended cfg x s ci) {w : World M} (hids : w.ids = s.world.ids)
    (hclient : w.workload.clients ci = s.world.workload.clients ci)
    (hcfg : w.workload.cfg = s.world.workload.cfg)
    (hops : s.world.workload.opsIssued ≤ w.workload.opsIssued) :
    Attended cfg x (put w s) ci := by
  refine ⟨?_, ?_, ?_, h.once, ?_, ?_⟩
  · change ∀ e ∈ atHand x s, _ → _ → _ ∧ _ = w.ids _ ∧ (w.workload.clients ci).waiting = true ∧
      _ = (w.workload.clients ci).sentAt + _
    rw [hids, hclient]
    exact h.live
  · change (w.workload.clients ci).waiting = true → _
    rw [hclient]
    exact h.armed
  · change ∀ e ∈ atHand x s, _ → (w.workload.clients ci).waiting = false ∧
      _ ≤ cfg.latest ci (w.workload.clients ci).nextRequestId
    rw [hclient]
    exact h.next
  · change (w.workload.clients ci).waiting = false → w.workload.cfg.totalOps ≤ _ ∨ _
    rw [hclient, hcfg]
    exact fun hw => (h.idle hw).imp_left fun hle => Nat.le_trans hle hops
  · change (w.workload.clients ci).waiting = true → (w.workload.clients ci).sentAt + _ + _ ≤
      cfg.latest ci (w.workload.clients ci).nextRequestId
    rw [hclient]
    exact h.paced

/-- A timer that is not the client's is cancelled. -/
theorem cancel (h : Attended cfg x s ci) (hb : Booked s) {y : Slot} (hy : y ≠ .timeout ci) :
    Attended cfg x (Runner.call s (.cancel y)) ci := by
  refine ⟨fun e he ha hc => ?_, fun hw => ?_, h.next, h.once, h.idle, h.paced⟩
  · exact h.live e he ha fun hq => hc (Finset.mem_insert_of_mem hq)
  · obtain ⟨e, he, ha, hc⟩ := h.armed hw
    obtain ⟨hpos, hid, -⟩ := h.live e he ha hc
    refine ⟨e, he, ha, fun hq => ?_⟩
    rcases Finset.mem_insert.mp hq with hq | hq
    · exact hy (hb.inj y (.timeout ci) (hq.symm.trans hid) (hq ▸ hpos))
    · exact hc hq

/-- Something is scheduled that does not concern the client. -/
theorem schedule (h : Attended cfg x s ci) {delay : Nat} {a : Action M}
    (ha : a.concerns ci = false) : Attended cfg x (Runner.call s (.schedule delay a)) ci := by
  have hold : ∀ {e}, e ∈ atHand x (Runner.call s (.schedule delay a)) →
      e.action.concerns ci = true → e ∈ atHand x s := by
    intro e he hc
    rcases mem_atHand_schedule.mp he with rfl | he
    · rw [ha] at hc
      cases hc
    · exact he
  have hnew : ∀ {e}, e ∈ atHand x s → e ∈ atHand x (Runner.call s (.schedule delay a)) :=
    fun he => mem_atHand_schedule.mpr (.inr he)
  have htimeout : ∀ {e : Sim.Event (Action M)}, e.action = .opTimeout ci →
      e.action.concerns ci = true := fun he => he ▸ beq_self_eq_true ci
  have hissue : ∀ {e : Sim.Event (Action M)}, e.action = .issueOp ci →
      e.action.concerns ci = true := fun he => he ▸ beq_self_eq_true ci
  have hids := remember_of_ne (Action.slot?_ne ha) s.nextSeq s.world.ids
  refine ⟨fun e he hact hc => ?_, fun hw => ?_, fun e he hact => ?_,
    fun e he e' he' hact hact' => ?_, fun hw => ?_, h.paced⟩
  · obtain ⟨hpos, hid, hrest⟩ := h.live e (hold he (htimeout hact)) hact hc
    exact ⟨hpos, hid.trans hids.symm, hrest⟩
  · obtain ⟨e, he, hact, hc⟩ := h.armed hw
    exact ⟨e, hnew he, hact, hc⟩
  · exact h.next e (hold he (hissue hact)) hact
  · exact h.once e (hold he (hissue hact)) e' (hold he' (hissue hact')) hact hact'
  · refine (h.idle hw).imp_right ?_
    rintro ⟨e, he, hact⟩
    exact ⟨e, hnew he, hact⟩

theorem call (h : Attended cfg x s ci) (hb : Booked s) {c : Call M} (hc : c.spares ci = true) :
    Attended cfg x (Runner.call s c) ci := by
  cases c with
  | draw g => exact ⟨h.live, h.armed, h.next, h.once, h.idle, h.paced⟩
  | cancel y => exact h.cancel hb (bne_iff_ne.mp hc)
  | schedule delay a => exact h.schedule (by simpa [Call.spares] using hc)

/-- The event that was processed did not concern the client. -/
theorem drop {e : Sim.Event (Action M)} (h : Attended cfg (some e) s ci)
    (he : e.action.concerns ci = false) : Attended cfg none s ci := by
  have hin : ∀ {e'}, e' ∈ s.queue.heap → e' ∈ atHand (some e) s := fun h => List.mem_cons_of_mem _ h
  have hout : ∀ {e'}, e' ∈ atHand (some e) s → e'.action.concerns ci = true →
      e' ∈ s.queue.heap := by
    intro e' he' hc
    rcases List.mem_cons.mp he' with rfl | he'
    · rw [he] at hc
      cases hc
    · exact he'
  refine ⟨fun e' he' => h.live e' (hin he'), fun hw => ?_, fun e' he' => h.next e' (hin he'),
    fun e₁ h₁ e₂ h₂ => h.once e₁ (hin h₁) e₂ (hin h₂), fun hw => ?_, h.paced⟩
  · obtain ⟨e', he', hact, hc⟩ := h.armed hw
    exact ⟨e', hout he' (hact ▸ beq_self_eq_true ci), hact, hc⟩
  · refine (h.idle hw).imp_right ?_
    rintro ⟨e', he', hact⟩
    exact ⟨e', hout he' (hact ▸ beq_self_eq_true ci), hact⟩

/-- The next operation of the client has come up. -/
theorem clear_of_issue {e : Sim.Event (Action M)} (h : Attended cfg (some e) s ci)
    (ha : e.action = .issueOp ci) (hfresh : ∀ e' ∈ s.queue.heap, e'.seq ≠ e.seq) :
    (s.world.workload.clients ci).waiting = false ∧ Clear none s ci := by
  have hw := (h.next e List.mem_cons_self ha).1
  refine ⟨hw, fun e' he' => ?_⟩
  have hin : e' ∈ atHand (some e) s := List.mem_cons_of_mem _ he'
  refine ⟨fun ha' => ?_, fun ha' => ?_⟩
  · exact hfresh e' he' (h.once e' hin e List.mem_cons_self ha' ha)
  · by_contra hc
    exact Bool.noConfusion (hw.symm.trans (h.live e' hin ha' hc).2.2.1)

/-- The timer of the client has gone off. -/
theorem clear_of_timeout {e : Sim.Event (Action M)} (h : Attended cfg (some e) s ci)
    (ha : e.action = .opTimeout ci) (hlive : e.seq ∉ s.queue.cancelled)
    (hfresh : ∀ e' ∈ s.queue.heap, e'.seq ≠ e.seq) :
    (s.world.workload.clients ci).waiting = true ∧
      e.time = (s.world.workload.clients ci).sentAt + kOpTimeout ∧ Clear none s ci := by
  obtain ⟨-, hid, hw, htime⟩ := h.live e List.mem_cons_self ha hlive
  refine ⟨hw, htime, fun e' he' => ?_⟩
  have hin : e' ∈ atHand (some e) s := List.mem_cons_of_mem _ he'
  refine ⟨fun ha' => ?_, fun ha' => ?_⟩
  · exact Bool.noConfusion ((h.next e' hin ha').1.symm.trans hw)
  · by_contra hc
    exact hfresh e' he' ((h.live e' hin ha' hc).2.1.trans hid.symm)

/-- The client has its answer and cancels its timer. -/
theorem clear_of_cancel (h : Attended cfg none s ci)
    (hw : (s.world.workload.clients ci).waiting = true) :
    Clear none (Runner.call s (.cancel (.timeout ci))) ci := by
  refine fun e he => ⟨fun ha => ?_, fun ha => ?_⟩
  · exact Bool.noConfusion ((h.next e he ha).1.symm.trans hw)
  · by_contra hc
    have hid := (h.live e he ha fun hq => hc (Finset.mem_insert_of_mem hq)).2.1
    exact hc (hid ▸ Finset.mem_insert_self _ _)

/-- While a client waits, its timer has not gone off. -/
theorem not_overdue (h : Attended cfg x s ci) (hdue : ∀ e ∈ atHand x s, s.clock ≤ e.time)
    (hw : (s.world.workload.clients ci).waiting = true) :
    s.clock ≤ (s.world.workload.clients ci).sentAt + kOpTimeout := by
  obtain ⟨e, he, ha, hc⟩ := h.armed hw
  exact (h.live e he ha hc).2.2.2 ▸ hdue e he

/-- As long as there are operations to issue, the client is not late. -/
theorem clock_le (h : Attended cfg x s ci) (hdue : ∀ e ∈ atHand x s, s.clock ≤ e.time)
    (hroom : s.world.workload.opsIssued < s.world.workload.cfg.totalOps) :
    s.clock ≤ cfg.latest ci (s.world.workload.clients ci).nextRequestId := by
  cases hw : (s.world.workload.clients ci).waiting with
  | true =>
    have hle := h.not_overdue hdue hw
    have hpaced := h.paced hw
    omega
  | false =>
    obtain ⟨e, he, ha⟩ := (h.idle hw).resolve_left (Nat.not_le.mpr hroom)
    exact Nat.le_trans (hdue e he) (h.next e he ha).2

end Attended

namespace Clear

variable {x : Option (Sim.Event (Action M))} {ci : Nat}

theorem call {c : Call M} (h : Clear x s ci) (hc : c.spares ci = true) :
    Clear x (Runner.call s c) ci := by
  cases c with
  | draw g => exact h
  | cancel x => exact fun e he => ⟨(h e he).1, fun ha => Finset.mem_insert_of_mem ((h e he).2 ha)⟩
  | schedule delay a =>
    intro e he
    rcases mem_atHand_schedule.mp he with rfl | he
    · refine ⟨?_, ?_⟩
      · rintro rfl
        simp [Call.spares, Action.concerns] at hc
      · rintro rfl
        simp [Call.spares, Action.concerns] at hc
    · exact h e he

/-- The client has nothing left to do. -/
theorem finished (h : Clear none s ci) (hw : (s.world.workload.clients ci).waiting = false)
    (hall : s.world.workload.cfg.totalOps ≤ s.world.workload.opsIssued) :
    Attended cfg none s ci := by
  refine ⟨fun e he ha hc => absurd ((h e he).2 ha) hc, fun hw' => ?_,
    fun e he ha => absurd ha (h e he).1, fun e he _ _ ha => absurd ha (h e he).1,
    fun _ => .inl hall, fun hw' => ?_⟩
  · exact Bool.noConfusion (hw.symm.trans hw')
  · exact Bool.noConfusion (hw.symm.trans hw')

/-- The client gets its next operation. -/
theorem issue {delay : Nat} (h : Clear none s ci)
    (hw : (s.world.workload.clients ci).waiting = false)
    (hle : s.clock + delay ≤ cfg.latest ci (s.world.workload.clients ci).nextRequestId) :
    Attended cfg none (Runner.call s (.schedule delay (.issueOp ci))) ci := by
  refine ⟨fun e he hact hc => ?_, fun hw' => ?_, fun e he hact => ?_,
    fun e he e' he' hact hact' => ?_, fun _ => ?_, fun hw' => ?_⟩
  · rcases mem_call_schedule.mp he with rfl | he
    · cases hact
    · exact absurd ((h e he).2 hact) hc
  · exact Bool.noConfusion (hw.symm.trans hw')
  · rcases mem_call_schedule.mp he with rfl | he
    · exact ⟨hw, Nat.le_trans (Nat.mod_le _ _) hle⟩
    · exact absurd hact (h e he).1
  · rcases mem_call_schedule.mp he with rfl | he
    · rcases mem_call_schedule.mp he' with rfl | he'
      · rfl
      · exact absurd hact' (h e' he').1
    · exact absurd hact (h e he).1
  · exact .inr ⟨⟨_, s.nextSeq, _⟩, mem_call_schedule.mpr (.inl rfl), rfl⟩
  · exact Bool.noConfusion (hw.symm.trans hw')

/-- The client has sent an operation and sets its timer. -/
theorem arm (h : Clear none s ci) (hb : Booked s) (hpos : 0 < s.nextSeq)
    (hw : (s.world.workload.clients ci).waiting = true)
    (hsent : (s.world.workload.clients ci).sentAt = s.clock) (hend : s.clock ≤ kEnd)
    (hle : s.clock + kOpTimeout + cfg.workloadCfg.thinkTime ≤
      cfg.latest ci (s.world.workload.clients ci).nextRequestId) :
    Attended cfg none (Runner.call s (.schedule kOpTimeout (.opTimeout ci))) ci := by
  have hmod : (s.clock + kOpTimeout) % 2 ^ 64 = s.clock + kOpTimeout :=
    Nat.mod_eq_of_lt (Nat.lt_of_le_of_lt (Nat.add_le_add_right hend _) (by decide))
  have hid : (Runner.call s (.schedule kOpTimeout (.opTimeout ci))).world.ids (.timeout ci) =
      s.nextSeq := Function.update_self _ _ _
  have hnone : ∀ {e}, e ∈ (Runner.call s (.schedule kOpTimeout (.opTimeout ci))).queue.heap →
      e.action ≠ .issueOp ci := by
    intro e he hact
    rcases mem_call_schedule.mp he with rfl | he
    · cases hact
    · exact (h e he).1 hact
  refine ⟨fun e he hact hc => ?_, fun _ => ?_, fun e he hact => absurd hact (hnone he),
    fun e he e' _ hact _ => absurd hact (hnone he), fun hw' => ?_, fun _ => ?_⟩
  · rcases mem_call_schedule.mp he with rfl | he
    · exact ⟨Nat.ne_of_gt hpos, hid.symm, hw, hmod.trans (congrArg (· + kOpTimeout) hsent.symm)⟩
    · exact absurd ((h e he).2 hact) hc
  · exact ⟨⟨_, s.nextSeq, _⟩, mem_call_schedule.mpr (.inl rfl), rfl,
      fun hq => Booked.ne_next (hb.cancelled_lt _ hq) hpos rfl⟩
  · exact Bool.noConfusion (hw.symm.trans hw')
  · change (s.world.workload.clients ci).sentAt + _ + _ ≤ _
    rw [hsent]
    exact hle

end Clear

/-! ## Steps -/

/-- Client `ci`, if the first `k` clients are started. -/
structure Client (cfg : RunConfig) (k : Nat) (x : Option (Sim.Event (Action M))) (s : Sim M)
    (ci : Nat) : Prop where
  booked : Booked s
  pos : 0 < s.nextSeq
  attended : ci < k → Attended cfg x s ci
  unopened : k ≤ ci → Clear x s ci ∧ (s.world.workload.clients ci).waiting = false

namespace Client

variable {x : Option (Sim.Event (Action M))} {ci k : Nat}

theorem put (h : Client cfg k x s ci) {w : World M} (hids : w.ids = s.world.ids)
    (hclient : w.workload.clients ci = s.world.workload.clients ci)
    (hcfg : w.workload.cfg = s.world.workload.cfg)
    (hops : s.world.workload.opsIssued ≤ w.workload.opsIssued) :
    Client cfg k x (put w s) ci := by
  refine ⟨h.booked.put hids, h.pos, fun hk => (h.attended hk).put hids hclient hcfg hops,
    fun hk => ⟨(h.unopened hk).1, ?_⟩⟩
  change (w.workload.clients ci).waiting = false
  rw [hclient]
  exact (h.unopened hk).2

theorem call (h : Client cfg k x s ci) {c : Call M} (hc : c.spares ci = true) :
    Client cfg k x (Runner.call s c) ci := by
  refine ⟨h.booked.call h.pos c, Nat.lt_of_lt_of_le h.pos (call_nextSeq s c),
    fun hk => (h.attended hk).call h.booked hc, fun hk => ⟨(h.unopened hk).1.call hc, ?_⟩⟩
  cases c <;> exact (h.unopened hk).2

theorem calls {P : Call M → Prop} (h : Client cfg k x s ci) (hcalls : Calls P s s')
    (hP : ∀ c, P c → c.spares ci = true) : Client cfg k x s' ci :=
  hcalls.keeps (I := fun t => Client cfg k x t ci) (fun _ c hc ht => ht.call (hP c hc)) h

theorem drop {e : Sim.Event (Action M)} (h : Client cfg k (some e) s ci)
    (he : e.action.concerns ci = false) : Client cfg k none s ci :=
  ⟨h.booked, h.pos, fun hk => (h.attended hk).drop he,
    fun hk => ⟨fun e' he' => (h.unopened hk).1 e' (List.mem_cons_of_mem _ he'), (h.unopened hk).2⟩⟩

/-- The first event of the queue is taken to be processed. -/
theorem begin {e : Sim.Event (Action M)} {rest : List (Sim.Event (Action M))}
    {ordered : (e :: rest).Pairwise Sim.Event.NotAfter} {C : Finset Nat}
    (h : Client cfg k none s ci) (hq : s.queue = ⟨e :: rest, ordered, C⟩) (hc : e.seq ∉ C) :
    Client cfg k (some e) (s.begin e ⟨rest, ordered.of_cons, C.erase e.seq⟩) ci := by
  have hheap : atHand none s = e :: rest := congrArg EventQueue.heap hq
  have hC : C.erase e.seq = s.queue.cancelled := by
    rw [Finset.erase_eq_of_notMem hc, hq]
  have hbooked : Booked (s.begin e ⟨rest, ordered.of_cons, C.erase e.seq⟩) := by
    refine h.booked.popped (fun e' he' => ?_) (fun q hq' => ?_) rfl rfl
    · change e' ∈ atHand none s
      rw [hheap]
      exact List.mem_cons_of_mem _ he'
    · exact hC ▸ hq'
  refine ⟨hbooked, h.pos, fun hk => ?_, fun hk => ?_⟩
  · obtain ⟨h₁, h₂, h₃, h₄, h₅, h₆⟩ := h.attended hk
    rw [hheap, ← hC] at h₁ h₂
    rw [hheap] at h₃ h₄ h₅
    exact ⟨h₁, h₂, h₃, h₄, h₅, h₆⟩
  · obtain ⟨h₁, h₂⟩ := h.unopened hk
    unfold Clear at h₁
    rw [hheap, ← hC] at h₁
    exact ⟨h₁, h₂⟩

/-- The first event of the queue was cancelled. -/
theorem skip {e : Sim.Event (Action M)} {t : Sim M} (h : Client cfg k none s ci)
    (hheap : s.queue.heap = e :: t.queue.heap) (hc : e.seq ∈ s.queue.cancelled)
    (hC : t.queue.cancelled = s.queue.cancelled.erase e.seq) (hn : t.nextSeq = s.nextSeq)
    (hw : t.world = s.world) (hfresh : ∀ e' ∈ t.queue.heap, e'.seq ≠ e.seq) :
    Client cfg k none t ci := by
  have hin : ∀ {e'}, e' ∈ t.queue.heap → e' ∈ s.queue.heap :=
    fun he' => hheap ▸ List.mem_cons_of_mem _ he'
  have hback : ∀ {e'}, e' ∈ s.queue.heap → e' = e ∨ e' ∈ t.queue.heap := by
    intro e' he'
    rw [hheap] at he'
    exact List.mem_cons.mp he'
  have hcancelled : ∀ {e'}, e' ∈ t.queue.heap →
      (e'.seq ∈ t.queue.cancelled ↔ e'.seq ∈ s.queue.cancelled) := by
    intro e' he'
    rw [hC, Finset.mem_erase]
    exact and_iff_right (hfresh e' he')
  refine ⟨h.booked.popped (fun e' => hin) (fun q hq => ?_) hn hw, hn ▸ h.pos, fun hk => ?_,
    fun hk => ⟨fun e' he' => ?_, ?_⟩⟩
  · rw [hC] at hq
    exact Finset.mem_of_mem_erase hq
  · have ha := h.attended hk
    refine ⟨fun e' he' hact hc' => ?_, fun hw' => ?_, fun e' he' => ?_,
      fun e₁ h₁ e₂ h₂ => ha.once e₁ (hin h₁) e₂ (hin h₂), fun hw' => ?_, ?_⟩
    · rw [hw]
      exact ha.live e' (hin he') hact fun hq => hc' ((hcancelled he').mpr hq)
    · rw [hw] at hw'
      obtain ⟨e', he', hact, hc'⟩ := ha.armed hw'
      rcases hback he' with rfl | he'
      · exact absurd hc hc'
      · exact ⟨e', he', hact, fun hq => hc' ((hcancelled he').mp hq)⟩
    · rw [hw]
      exact ha.next e' (hin he')
    · rw [hw] at hw' ⊢
      refine (ha.idle hw').imp_right ?_
      rintro ⟨e', he', hact⟩
      rcases hback he' with rfl | he''
      -- nobody cancels a client's next operation
      · exact absurd hc (h.booked.free e' he' (by rw [hact]; rfl)).2.1
      · exact ⟨e', he'', hact⟩
    · rw [hw]
      exact ha.paced
  · obtain ⟨h₁, h₂⟩ := (h.unopened hk).1 e' (hin he')
    exact ⟨h₁, fun hact => (hcancelled he').mpr (h₂ hact)⟩
  · rw [hw]
    exact (h.unopened hk).2

end Client

theorem issueOp_some {w wl : Workload} {now ci : Nat} {kind : OpKind} {key value expected : Str}
    {req : NodeId × ClientRequest}
    (h : w.issueOp now ci kind key value expected = (wl, some req)) :
    w.opsIssued < w.cfg.totalOps ∧ ∃ val exp, wl = w.register now ci kind key val exp := by
  unfold Workload.issueOp at h
  split at h
  · cases h
  · rename_i hroom
    split at h
    · cases h
    · cases h
      exact ⟨Nat.not_le.mp hroom, _, _, rfl⟩

theorem acceptReply_eq {w : Workload} (ht : w.Tracked) {ci : Nat}
    (hw : (w.clients ci).waiting = true) (now : Nat) (reply : ClientReply) :
    ∃ ok r leader, w.acceptReply now ci reply = w.complete now ci ok r leader := by
  obtain ⟨y, hy, -⟩ := ht.pending ci hw
  unfold Workload.acceptReply
  dsimp only
  rw [hy]
  split
  · exact ⟨_, _, _, rfl⟩
  · exact ⟨_, _, _, rfl⟩

theorem onTimeout_eq {w : Workload} {ci : Nat} (hw : (w.clients ci).waiting = true) (now : Nat) :
    ∃ ok r leader, w.onTimeout now ci = w.complete now ci ok r leader := by
  unfold Workload.onTimeout
  dsimp only
  rw [hw]
  exact ⟨_, _, _, rfl⟩

/-- An event that is processed: the clock shows its time, no later one has its number, and what is
queued is not overdue. -/
structure Processed (e : Sim.Event (Action M)) (s : Sim M) : Prop where
  time : e.time = s.clock
  live : e.seq ∉ s.queue.cancelled
  fresh : ∀ e' ∈ s.queue.heap, e'.seq ≠ e.seq
  due : ∀ e' ∈ atHand (some e) s, s.clock ≤ e'.time
  inTime : s.clock ≤ kEnd

section Step

variable {e : Sim.Event (Action M)} {ci k : Nat}

/-- The operation of client `ci` is over, and it thinks about the next one. -/
theorem Clear.think {w : World M} (h : Clear none s ci) (hb : Booked s) (hpos : 0 < s.nextSeq)
    (hk : ci < k) {now : Nat} {ok : Bool} {r : Str} {leader : NodeId}
    (hids : w.ids = s.world.ids)
    (hwl : w.workload = s.world.workload.complete now ci ok r leader)
    (hle : s.clock + cfg.workloadCfg.thinkTime ≤
      cfg.latest ci (s.world.workload.clients ci).nextRequestId) :
    Client cfg k none
      (Runner.call (put w s) (.schedule cfg.workloadCfg.thinkTime (.issueOp ci))) ci := by
  have hclient : w.workload.clients ci = { s.world.workload.clients ci with
      waiting := false, believedLeader := leader } := by
    rw [hwl]
    exact Function.update_self _ _ _
  refine ⟨(hb.put hids).call hpos _, Nat.succ_pos _, fun _ => ?_,
    fun hk' => absurd hk (Nat.not_lt.mpr hk')⟩
  refine Clear.issue (s := put w s) h ?_ ?_
  · change (w.workload.clients ci).waiting = false
    rw [hclient]
  · change s.clock + _ ≤ cfg.latest ci (w.workload.clients ci).nextRequestId
    rw [hclient]
    exact hle

theorem Injected.client (h : Injected cfg s s') (hc : Client cfg k none s ci) :
    Client cfg k none s' ci := by
  cases h with
  | nothing g => exact hc.call rfl
  | partition ids split g g' _ _ _ _ =>
    refine Client.call ?_ rfl
    exact (hc.call (c := .draw g') rfl).put rfl rfl rfl (Nat.le_refl _)
  | crash n g g' g'' t _ _ hcalls =>
    refine Client.call (Client.call ?_ rfl) rfl
    refine Client.calls ?_ hcalls fun c hc => hc.spares ci
    exact (hc.call (c := .draw g) rfl).put rfl rfl rfl (Nat.le_refl _)
  | spike j p g g' _ =>
    refine Client.call ?_ rfl
    exact (hc.call (c := .draw g') rfl).put rfl rfl rfl (Nat.le_refl _)

/-- What another client does, or a node, or the fault injector. -/
theorem Outcome.client_of_other {a : Action M} (h : Outcome cfg s a s')
    (ht : s.world.workload.Tracked) (ha : a.concerns ci = false)
    (hreply : ∀ src dst m, a ≠ .deliver (.client ci) src dst m)
    (hc : Client cfg k none s ci) : Client cfg k none s' ci := by
  have hne : ∀ {cj}, (cj == ci) = false → ci ≠ cj := fun hne heq => by simp [heq] at hne
  cases h with
  | node _ hcalls =>
    refine Client.calls ?_ hcalls fun c hc => hc.spares ci
    exact hc.put rfl rfl rfl (Nat.le_refl _)
  | restart hcalls =>
    refine Client.calls ?_ hcalls fun c hc => hc.spares ci
    exact hc.put rfl rfl rfl (Nat.le_refl _)
  | @issued cj _ kind key value expected g wl dst cr hissue hcalls _ =>
    obtain ⟨-, val, exp, rfl⟩ := issueOp_some hissue
    refine Client.call (Client.calls ?_ hcalls fun c hc => hc.spares ci) ?_
    · refine (hc.call (c := .draw g) rfl).put rfl ?_ rfl (Nat.le_succ _)
      exact Workload.register_client_of_ne (hne ha) _ _ _ _ _
    · rw [Call.spares, show Action.concerns ci (.opTimeout cj : Action M) = false from ha]
      rfl
  | notIssued _ => exact hc
  | @answered cj src dst reply hwait _ =>
    obtain ⟨ok, r, leader, heq⟩ := acceptReply_eq ht hwait s.clock reply
    have hj : ci ≠ cj := by
      rintro rfl
      exact hreply _ _ _ rfl
    rw [heq]
    have hcancel : Client cfg k none (call s (.cancel (.timeout cj))) ci :=
      hc.call (bne_iff_ne.mpr fun heq => hj (Slot.timeout.inj heq).symm)
    refine Client.call ?_ ?_
    · exact hcancel.put rfl (Workload.complete_client_of_ne hj _ _ _ _) rfl (Nat.le_refl _)
    · rw [Call.spares, Action.concerns, beq_false_of_ne (Ne.symm hj)]
      rfl
  | ignored _ => exact hc
  | @gaveUp cj hwait =>
    obtain ⟨ok, r, leader, heq⟩ := onTimeout_eq hwait s.clock
    rw [heq]
    refine Client.call ?_ ?_
    · exact hc.put rfl (Workload.complete_client_of_ne (hne ha) _ _ _ _) rfl (Nat.le_refl _)
    · rw [Call.spares, show Action.concerns ci (.issueOp cj : Action M) = false from ha]
      rfl
  | late _ => exact hc
  | tick _ hinj => exact (hinj.client hc).call rfl
  | noTick _ => exact hc
  | heal => exact hc.put rfl rfl rfl (Nat.le_refl _)
  | restore => exact hc.put rfl rfl rfl (Nat.le_refl _)

/-- Client `ci` issues an operation. -/
theorem Client.issued {t : Sim M} {src dst : NodeId} {m : Msg M.Blob} {w : World M}
    {kind : OpKind} {key val exp : Str} {g : Prng} (h : Client cfg k (some e) s ci) (hk : ci < k)
    (ha : e.action = .issueOp ci) (hp : Processed e s)
    (hcalls : Calls (Sending cfg s.world.net src dst m)
      (Runner.put w (Runner.call s (.draw g))) t)
    (hids : w.ids = s.world.ids)
    (hwl : w.workload = s.world.workload.register s.clock ci kind key val exp) :
    Client cfg k none (Runner.call t (.schedule kOpTimeout (.opTimeout ci))) ci := by
  obtain ⟨-, hclear⟩ := (h.attended hk).clear_of_issue ha hp.fresh
  have htime := ((h.attended hk).next e List.mem_cons_self ha).2
  -- sending leaves the client's events alone
  obtain ⟨⟨hb, hpos⟩, hclear'⟩ := hcalls.keeps
    (I := fun t => (Booked t ∧ 0 < t.nextSeq) ∧ Clear none t ci)
    (fun t c hc ht => ⟨⟨ht.1.1.call ht.1.2 c, Nat.lt_of_lt_of_le ht.1.2 (call_nextSeq t c)⟩,
      ht.2.call (hc.spares ci)⟩)
    ⟨⟨(h.booked.call h.pos (.draw g)).put hids, h.pos⟩, hclear⟩
  obtain ⟨hworld, hclock⟩ := hcalls.frame
  have hclient : t.world.workload.clients ci = { s.world.workload.clients ci with
      waiting := true, nextRequestId := (s.world.workload.clients ci).nextRequestId + 1
      historyHandle := s.world.workload.history.entries.length, sentAt := s.clock } := by
    rw [hworld]
    change w.workload.clients ci = _
    rw [hwl]
    exact Function.update_self _ _ _
  refine ⟨hb.call hpos _, Nat.succ_pos _, fun _ => ?_, fun hk' => absurd hk (Nat.not_lt.mpr hk')⟩
  refine hclear'.arm hb hpos ?_ ?_ ?_ ?_
  · rw [hclient]
  · rw [hclient, hclock]
    rfl
  · rw [hclock]
    exact hp.inTime
  · rw [hclient, hclock, cfg.latest_succ]
    refine Nat.add_le_add_right (Nat.add_le_add_right ?_ _) _
    exact hp.time ▸ htime

/-- **What an event does to a client**: its timer, its next operation, a message that arrives, or
an event that does not concern it. -/
theorem Outcome.client (h : Outcome cfg s e.action s') (hp : Processed e s)
    (ht : s.world.workload.Tracked) (hc : Client cfg k (some e) s ci) :
    Client cfg k none s' ci := by
  have hopen : e.action.concerns ci = true → ci < k := by
    intro hcon
    by_contra hk
    obtain ⟨hissue, htimeout⟩ := (hc.unopened (Nat.not_lt.mp hk)).1 e List.mem_cons_self
    cases hact : e.action with
    | issueOp cj =>
      rw [hact] at hcon
      exact hissue (by rw [hact, beq_iff_eq.mp hcon])
    | opTimeout cj =>
      rw [hact] at hcon
      exact hp.live (htimeout (by rw [hact, beq_iff_eq.mp hcon]))
    | _ =>
      rw [hact] at hcon
      cases hcon
  cases hcon : e.action.concerns ci with
  | true =>
    have hk := hopen hcon
    have hatt := hc.attended hk
    cases hact : e.action with
    | issueOp cj =>
      rw [hact] at h hcon
      obtain rfl : cj = ci := beq_iff_eq.mp hcon
      obtain ⟨hidle, hclear⟩ := hatt.clear_of_issue hact hp.fresh
      cases h with
      | node ha _ => cases ha
      | issued kind key value expected g hissue hcalls _ =>
        obtain ⟨-, val, exp, rfl⟩ := issueOp_some hissue
        exact hc.issued hk hact hp hcalls rfl rfl
      | notIssued hnot =>
        have hall := hnot.resolve_right fun hw => Bool.noConfusion (hidle.symm.trans hw)
        exact ⟨hc.booked, hc.pos, fun _ => hclear.finished hidle hall,
          fun hk' => absurd hk (Nat.not_lt.mpr hk')⟩
    | opTimeout cj =>
      rw [hact] at h hcon
      obtain rfl : cj = ci := beq_iff_eq.mp hcon
      obtain ⟨hw, htime, hclear⟩ := hatt.clear_of_timeout hact hp.live hp.fresh
      cases h with
      | node ha _ => cases ha
      | gaveUp _ =>
        obtain ⟨ok, r, leader, heq⟩ := onTimeout_eq hw s.clock
        have hpaced := hatt.paced hw
        rw [← htime, hp.time] at hpaced
        exact hclear.think hc.booked hc.pos hk rfl heq hpaced
      | late hidle => exact Bool.noConfusion (hidle.symm.trans hw)
    | _ =>
      rw [hact] at hcon
      cases hcon
  | false =>
    have hc' := hc.drop hcon
    by_cases hreply : ∃ src dst m, e.action = .deliver (.client ci) src dst m
    · obtain ⟨src, dst, m, hact⟩ := hreply
      rw [hact] at h
      cases h with
      | node ha _ => cases ha
      | @answered _ _ _ reply hwait _ =>
        have hk : ci < k := by
          by_contra hk
          exact Bool.noConfusion ((hc.unopened (Nat.not_lt.mp hk)).2.symm.trans hwait)
        obtain ⟨ok, r, leader, heq⟩ := acceptReply_eq ht hwait s.clock reply
        have hle := (hc.attended hk).not_overdue hp.due hwait
        refine Clear.think ((hc'.attended hk).clear_of_cancel hwait)
          (hc.booked.call hc.pos _) hc.pos hk rfl heq ?_
        exact Nat.le_trans (Nat.add_le_add_right hle _) ((hc.attended hk).paced hwait)
      | ignored _ => exact hc'
    · exact h.client_of_other ht hcon (fun src dst m heq => hreply ⟨src, dst, m, heq⟩) hc'

end Step

/-! ## The history -/

/-- When the operations were issued, and how long they took. -/
structure Timely (cfg : RunConfig) (w : Workload) : Prop where
  sent : ∀ ci x, (w.clients ci).waiting = true →
    w.history.entries[(w.clients ci).historyHandle]? = some x → x.invoke = (w.clients ci).sentAt
  returned : ∀ (i : Nat) x, w.history.entries[i]? = some x → x.pending = false →
    x.ret ≤ x.invoke + kOpTimeout
  total : ∑ ci ∈ Finset.range cfg.workload.numClients, (w.clients ci).nextRequestId = w.opsIssued
  length : w.history.entries.length = w.opsIssued
  invoked : ∀ (i : Nat) x, w.history.entries[i]? = some x →
    x.invoke ≤ cfg.latest cfg.workload.numClients (i / cfg.workload.numClients)

namespace Timely

variable {w : Workload} {now ci : Nat}

theorem init (cfg : RunConfig) : Timely cfg (.init cfg.workload cfg.ids) where
  sent ci x h := absurd h Bool.false_ne_true
  returned i x h := absurd h (by simp [Workload.init, History.empty])
  total := Finset.sum_const_zero
  length := rfl
  invoked i x h := absurd h (by simp [Workload.init, History.empty])

theorem register (h : Timely cfg w) (ht : w.Tracked) (hci : ci < cfg.workload.numClients)
    (hle : now ≤ cfg.latest cfg.workload.numClients (w.opsIssued / cfg.workload.numClients))
    (kind : OpKind) (key val exp : Str) : Timely cfg (w.register now ci kind key val exp) := by
  let x₀ : HistoryEntry := ⟨kClientIdBase + ci, (w.clients ci).nextRequestId, kind, key, val, exp,
    now, 0, Str.lit "", false, true⟩
  have hentry : ∀ {i : Nat} {x}, (w.register now ci kind key val exp).history.entries[i]? = some x →
      w.history.entries[i]? = some x ∨ (i = w.history.entries.length ∧ x = x₀) :=
    fun hx => Session.register_entry (s := ⟨w, now⟩) hx
  have hself : (w.register now ci kind key val exp).clients ci = { w.clients ci with
      waiting := true, nextRequestId := (w.clients ci).nextRequestId + 1
      historyHandle := w.history.entries.length, sentAt := now } := Function.update_self _ _ _
  refine ⟨fun cj x hw hx => ?_, fun i x hx hp => ?_, ?_, ?_, fun i x hx => ?_⟩
  · by_cases hj : cj = ci
    · subst hj
      rw [hself] at hx ⊢
      rcases hentry hx with hx | ⟨-, rfl⟩
      · exact absurd (List.getElem?_eq_some_iff.mp hx).1 (Nat.lt_irrefl _)
      · rfl
    · rw [Workload.register_client_of_ne hj] at hw hx ⊢
      obtain ⟨y, hy, -⟩ := ht.pending cj hw
      rcases hentry hx with hx | ⟨hi, -⟩
      · exact h.sent cj x hw hx
      · exact absurd (List.getElem?_eq_some_iff.mp hy).1 (hi ▸ Nat.lt_irrefl _)
  · rcases hentry hx with hx | ⟨-, rfl⟩
    · exact h.returned i x hx hp
    · cases hp
  · have hothers : ∀ cj ∈ (Finset.range cfg.workload.numClients).erase ci,
        ((w.register now ci kind key val exp).clients cj).nextRequestId =
          (w.clients cj).nextRequestId := fun cj hj => by
      rw [Workload.register_client_of_ne (Finset.ne_of_mem_erase hj)]
    have hmem := Finset.mem_range.mpr hci
    have htotal := h.total
    rw [← Finset.add_sum_erase _ _ hmem] at htotal ⊢
    rw [Finset.sum_congr rfl hothers, hself]
    change _ = w.opsIssued + 1
    rw [← htotal]
    exact Nat.add_right_comm _ _ _
  · change (w.history.entries ++ [x₀]).length = w.opsIssued + 1
    rw [List.length_append, h.length]
    rfl
  · rcases hentry hx with hx | ⟨hi, rfl⟩
    · exact h.invoked i x hx
    · rw [hi, h.length]
      exact hle

theorem complete (h : Timely cfg w) (hw : (w.clients ci).waiting = true)
    (hle : now ≤ (w.clients ci).sentAt + kOpTimeout) (ok : Bool) (r : Str) (leader : NodeId) :
    Timely cfg (w.complete now ci ok r leader) := by
  -- entries only get their answers
  have hentry : ∀ {i : Nat} {x}, (w.complete now ci ok r leader).history.entries[i]? = some x →
      w.history.entries[i]? = some x ∨ i = (w.clients ci).historyHandle ∧
        ∃ y, w.history.entries[i]? = some y ∧ x = y.answered now ok r :=
    fun hx => (Session.complete_entry (s := ⟨w, now⟩) hx).imp_left And.left
  have hold : ∀ {i : Nat} {x}, (w.complete now ci ok r leader).history.entries[i]? = some x →
      ∃ y, w.history.entries[i]? = some y ∧ y.invoke = x.invoke := by
    intro i x hx
    rcases hentry hx with hx | ⟨-, y, hy, rfl⟩
    · exact ⟨x, hx, rfl⟩
    · exact ⟨y, hy, rfl⟩
  have hnumber : ∀ cj, ((w.complete now ci ok r leader).clients cj).nextRequestId =
      (w.clients cj).nextRequestId := by
    intro cj
    by_cases hj : cj = ci
    · subst hj
      simp [Workload.complete]
    · rw [Workload.complete_client_of_ne hj]
  refine ⟨fun cj x hw' hx => ?_, fun i x hx hp => ?_, ?_, ?_, fun i x hx => ?_⟩
  · have hj : cj ≠ ci := by
      rintro rfl
      rw [Workload.complete_idle] at hw'
      cases hw'
    obtain ⟨y, hy, hinv⟩ := hold hx
    rw [Workload.complete_client_of_ne hj] at hw' hy ⊢
    exact hinv ▸ h.sent cj y hw' hy
  · rcases hentry hx with hx | ⟨rfl, y, hy, rfl⟩
    · exact h.returned i x hx hp
    · change now ≤ y.invoke + kOpTimeout
      rw [h.sent ci y hw hy]
      exact hle
  · rw [Finset.sum_congr rfl fun cj _ => hnumber cj]
    exact h.total
  · exact (List.length_modify ..).trans h.length
  · obtain ⟨y, hy, hinv⟩ := hold hx
    exact hinv ▸ h.invoked i y hy

/-- Some client has issued no more than its share. -/
theorem exists_behind (h : Timely cfg w) (hn : 0 < cfg.workload.numClients) :
    ∃ ci < cfg.workload.numClients,
      (w.clients ci).nextRequestId ≤ w.opsIssued / cfg.workload.numClients := by
  have hlt : ∑ ci ∈ Finset.range cfg.workload.numClients, (w.clients ci).nextRequestId <
      ∑ _ci ∈ Finset.range cfg.workload.numClients,
        (w.opsIssued / cfg.workload.numClients + 1) := by
    rw [h.total, Finset.sum_const, Finset.card_range, smul_eq_mul]
    exact Nat.lt_mul_div_succ _ hn
  obtain ⟨ci, hci, hlt⟩ := Finset.exists_lt_of_sum_lt hlt
  exact ⟨ci, Finset.mem_range.mp hci, Nat.le_of_lt_succ hlt⟩

end Timely

section Step

variable {e : Sim.Event (Action M)}

/-- As long as there are operations to issue, the next one is not late. -/
theorem Timely.clock_le {x : Option (Sim.Event (Action M))} (h : Timely cfg s.world.workload)
    (hn : 0 < cfg.workload.numClients)
    (hc : ∀ ci < cfg.workload.numClients, Attended cfg x s ci)
    (hdue : ∀ e ∈ atHand x s, s.clock ≤ e.time)
    (hroom : s.world.workload.opsIssued < s.world.workload.cfg.totalOps) :
    s.clock ≤ cfg.latest cfg.workload.numClients
      (s.world.workload.opsIssued / cfg.workload.numClients) := by
  obtain ⟨ci, hci, hle⟩ := h.exists_behind hn
  exact Nat.le_trans ((hc ci hci).clock_le hdue hroom)
    (cfg.latest_mono (Nat.le_of_lt hci) hle)

theorem Calls.workload {P : Call M → Prop} (h : Calls P s s') :
    s'.world.workload = s.world.workload := by
  rw [h.frame.1]

theorem Injected.workload (h : Injected cfg s s') : s'.world.workload = s.world.workload := by
  cases h with
  | crash n g g' g'' t _ _ hcalls => exact hcalls.workload
  | _ => rfl

theorem Outcome.timely {k : Nat} (h : Outcome cfg s e.action s') (hp : Processed e s)
    (ht : s.world.workload.Tracked) (hk : 0 < k → k = cfg.workload.numClients)
    (hc : ∀ ci, Client cfg k (some e) s ci) (hw : Timely cfg s.world.workload) :
    Timely cfg s'.world.workload := by
  have hopen : ∀ {ci}, (s.world.workload.clients ci).waiting = true → ci < k := by
    intro ci hwait
    by_contra hk
    exact Bool.noConfusion (((hc ci).unopened (Nat.not_lt.mp hk)).2.symm.trans hwait)
  have hsame : s'.world.workload = s.world.workload → Timely cfg s'.world.workload :=
    fun heq => heq ▸ hw
  generalize hact : e.action = a at h
  cases h with
  | node _ hcalls => exact hsame hcalls.workload
  | restart hcalls => exact hsame hcalls.workload
  | @issued ci t kind key value expected g wl dst cr hissue hcalls _ =>
    obtain ⟨hroom, val, exp, rfl⟩ := issueOp_some hissue
    have hci : ci < k := by
      by_contra hk
      exact (((hc ci).unopened (Nat.not_lt.mp hk)).1 e List.mem_cons_self).1 hact
    obtain rfl := hk (Nat.zero_lt_of_lt hci)
    have heq : t.world.workload = s.world.workload.register s.clock ci kind key val exp :=
      hcalls.workload
    change Timely cfg t.world.workload
    rw [heq]
    refine hw.register ht hci (hw.clock_le (Nat.zero_lt_of_lt hci)
      (fun cj hcj => (hc cj).attended hcj) hp.due hroom) kind key val exp
  | notIssued _ => exact hw
  | @answered ci _ _ reply hwait _ =>
    obtain ⟨ok, r, leader, heq⟩ := acceptReply_eq ht hwait s.clock reply
    change Timely cfg (s.world.workload.acceptReply s.clock ci reply)
    rw [heq]
    have hle := ((hc ci).attended (hopen hwait)).not_overdue hp.due hwait
    exact hw.complete hwait hle ok r leader
  | ignored _ => exact hw
  | @gaveUp ci hwait =>
    obtain ⟨ok, r, leader, heq⟩ := onTimeout_eq hwait s.clock
    change Timely cfg (s.world.workload.onTimeout s.clock ci)
    rw [heq]
    have hle := ((hc ci).attended (hopen hwait)).not_overdue hp.due hwait
    exact hw.complete hwait hle ok r leader
  | late _ => exact hw
  | tick _ hinj => exact hsame hinj.workload
  | noTick _ => exact hw
  | heal => exact hw
  | restore => exact hw

end Step

/-! ## Runs -/

/-- How many clients are started. -/
def Phase.opened (cfg : RunConfig) : Phase → Nat
  | .starting k => k
  | .working => cfg.workload.numClients
  | _ => 0

/-- While the nodes are started, there is nothing for clients. -/
theorem Moment.booting {k : Nat} (h : Moment cfg (.booting k) s) :
    s.world.workload = .init cfg.workload cfg.ids ∧ ∀ ci, Clear none s ci := by
  generalize hph : Phase.booting k = ph at h
  induction h generalizing k with
  | init => exact ⟨rfl, fun ci e he => absurd he List.not_mem_nil⟩
  | startNode h _ ih =>
    obtain ⟨hw, hclear⟩ := ih rfl
    obtain ⟨g, heq⟩ := h.startNode_eq
    rw [heq]
    refine ⟨hw, fun ci => Clear.call (Clear.call ?_ rfl) rfl⟩
    exact hclear ci
  | event _ hr _ _ _ => subst hph; cases hr
  | pass _ hr _ _ _ _ => subst hph; cases hr
  | _ => cases hph

theorem Moment.starting_clock {k : Nat} (h : Moment cfg (.starting k) s) : s.clock = kSec := by
  generalize hph : Phase.starting k = ph at h
  induction h generalizing k with
  | event _ hr _ _ _ => subst hph; cases hr
  | pass _ hr _ _ _ _ => subst hph; cases hr
  | opened _ hclock _ => exact hclock
  | startClient _ _ ih =>
    rw [Simulator.exec_clock]
    exact ih rfl
  | _ => cases hph

/-- The clients keep their books. -/
theorem Moment.books (hs : cfg.Sane) (h : Moment cfg ph s) :
    Session.Books ⟨s.world.workload, s.clock⟩ ∧ s.world.workload.cfg = cfg.workload := by
  obtain ⟨es, hr, -⟩ := h.refines hs
  have hkept := ((Harness.kept_init M cfg.members cfg.raft cfg.workload cfg.ids).run es).1.books
  have heq : ((cfg.harness M).run es).session = ⟨s.world.workload, s.clock⟩ := by
    unfold Harness.session
    rw [hr.workload, hr.clock]
  exact ⟨heq ▸ hkept, hr.wcfg⟩

/-- An event is processed. -/
theorem clients_processOne (hs : cfg.Sane) {D : Nat} (hm : Moment cfg ph s) (hph : ph.runs = true)
    (hdue : s.Due D) (hD : D ≤ kEnd) (hc : ∀ ci, Client cfg (ph.opened cfg) none s ci)
    (hw : Timely cfg s.world.workload) :
    (∀ ci, Client cfg (ph.opened cfg) none (s.processOne (act cfg)) ci) ∧
      Timely cfg (s.processOne (act cfg)).world.workload := by
  obtain ⟨e, rest, ordered, C, hq, he, hcases⟩ := event_cases cfg hdue
  have hsound := (hm.sound hs).1.1
  have hheap : s.queue.heap = e :: rest := by rw [hq]
  have hC : s.queue.cancelled = C := by rw [hq]
  have hfresh := fun e' he' => (hsound.behind hq e' he').1
  rcases hcases with ⟨hcancelled, heq⟩ | ⟨hlive, hout⟩
  · rw [heq]
    exact ⟨fun ci => (hc ci).skip hheap (hC ▸ hcancelled) (by rw [hC]) rfl rfl hfresh, hw⟩
  · have hp : Processed e (s.begin e ⟨rest, ordered.of_cons, C.erase e.seq⟩) := by
      refine ⟨rfl, fun hmem => hlive (Finset.mem_of_mem_erase hmem), hfresh, fun e' he' => ?_,
        Nat.le_trans he hD⟩
      rcases List.mem_cons.mp he' with rfl | he'
      · exact Nat.le_refl _
      · exact (hsound.behind hq e' he').2.1
    have htracked := (hm.books hs).1.tracked
    have hc' := fun ci => (hc ci).begin hq hlive
    refine ⟨fun ci => hout.client hp htracked (hc' ci), hout.timely hp htracked ?_ hc' hw⟩
    cases ph with
    | warmup => exact fun h => absurd h (Nat.lt_irrefl 0)
    | working => exact fun _ => rfl
    | booting k => cases hph
    | starting k => cases hph

/-- **The clients are attended to**, at every moment after the nodes were started. -/
theorem Moment.clients (hs : cfg.Sane) (h : Moment cfg ph s) (hph : ∀ k, ph ≠ .booting k) :
    (∀ ci, Client cfg (ph.opened cfg) none s ci) ∧ Timely cfg s.world.workload := by
  induction h with
  | init => exact absurd rfl (hph 0)
  | @startNode k _ _ _ _ => exact absurd rfl (hph (k + 1))
  | @booted s h _ =>
    obtain ⟨hw, hclear⟩ := h.booting
    obtain ⟨hb, hpos⟩ := (Moment.booted h).booked hs
    refine ⟨fun ci => ⟨hb, hpos.resolve_left (by simp), fun hk => ?_,
      fun _ => ⟨hclear ci, ?_⟩⟩, ?_⟩
    · exact absurd hk (Nat.not_lt_zero ci)
    · rw [hw]
      rfl
    · rw [hw]
      exact .init cfg
  | event h hr hdue hD ih =>
    obtain ⟨hc, hw⟩ := ih hph
    exact clients_processOne hs h hr hdue hD hc hw
  | pass _ _ _ _ _ ih =>
    obtain ⟨hc, hw⟩ := ih hph
    refine ⟨fun ci => ⟨(hc ci).booked.popped (fun _ h => h) (fun _ h => h) rfl rfl, (hc ci).pos,
      fun hk => ?_, (hc ci).unopened⟩, hw⟩
    obtain ⟨h₁, h₂, h₃, h₄, h₅, h₆⟩ := (hc ci).attended hk
    exact ⟨h₁, h₂, h₃, h₄, h₅, h₆⟩
  | opened _ _ ih => exact ih (by simp)
  | @startClient k s h hk ih =>
    obtain ⟨hc, hw⟩ := ih (by simp)
    rw [startClient_eq]
    refine ⟨fun ci => ?_, hw⟩
    by_cases hci : ci = k
    · subst hci
      obtain ⟨hclear, hidle⟩ := (hc ci).unopened (Nat.le_refl ci)
      have hput := (hc ci).booked.put (w := { s.world with
        net := s.world.net.setHandler (kClientIdBase + ci) (.client ci) }) rfl
      refine ⟨hput.call (hc ci).pos _, Nat.succ_pos _, fun _ => ?_,
        fun hle => absurd hle (Nat.not_succ_le_self ci)⟩
      refine Clear.issue (s := put _ s) hclear hidle ?_
      change s.clock + _ ≤ _
      rw [h.starting_clock]
      exact Nat.le_add_right _ _
    · refine Client.call ?_ ?_
      · have hput := (hc ci).put (w := { s.world with
          net := s.world.net.setHandler (kClientIdBase + k) (.client k) }) rfl rfl rfl
          (Nat.le_refl _)
        exact ⟨hput.booked, hput.pos, fun hlt => hput.attended (Nat.lt_of_le_of_ne
          (Nat.le_of_lt_succ hlt) hci), fun hle => hput.unopened (Nat.le_of_succ_le hle)⟩
      · rw [Call.spares, Action.concerns, beq_false_of_ne (Ne.symm hci)]
        rfl
  | startFaults _ ih =>
    obtain ⟨hc, hw⟩ := ih (by simp)
    rw [startFaults_eq]
    refine ⟨fun ci => Client.call ?_ rfl, hw⟩
    exact (hc ci).put rfl rfl rfl (Nat.le_refl _)

section Working

/-- The entry of a client that waits was invoked when the client sent its request. -/
theorem Moment.pending_entry (hs : cfg.Sane) (h : Moment cfg .working s) {ci : Nat}
    (hw : (s.world.workload.clients ci).waiting = true) :
    ∃ (i : Nat) (x : HistoryEntry), s.world.workload.history.entries[i]? = some x ∧
      x.invoke = (s.world.workload.clients ci).sentAt := by
  obtain ⟨x, hx, -⟩ := (h.books hs).1.tracked.pending ci hw
  exact ⟨_, x, hx, (h.clients hs (by simp)).2.sent ci x hw hx⟩

theorem Moment.attended (hs : cfg.Sane) (h : Moment cfg .working s) {ci : Nat}
    (hci : ci < cfg.workload.numClients) : Attended cfg none s ci :=
  ((h.clients hs (by simp)).1 ci).attended hci

/-- **No operation is overdue.**  At every moment after the clients were started, a client waits if
and only if a timer of it is queued and not cancelled, and such a timer is due exactly 2 s after
the operation that it waits for was sent.  So no entry of the history is pending for longer, and
none was answered later. -/
theorem no_operation_overdue (M : Medium) (cfg : RunConfig) (hs : cfg.Sane) (s : Sim M)
    (h : Moment cfg .working s) :
    (∀ ci < cfg.workload.numClients,
      ((s.world.workload.clients ci).waiting = true ↔
        ∃ e ∈ s.queue.heap, e.action = .opTimeout ci ∧ e.seq ∉ s.queue.cancelled) ∧
      ∀ e ∈ s.queue.heap, e.action = .opTimeout ci → e.seq ∉ s.queue.cancelled →
        e.time = (s.world.workload.clients ci).sentAt + kOpTimeout) ∧
    ∀ x ∈ s.world.workload.history.entries,
      (if x.pending then s.clock else x.ret) ≤ x.invoke + kOpTimeout := by
  refine ⟨fun ci hci => ?_, fun x hx => ?_⟩
  · have hatt := h.attended hs hci
    refine ⟨⟨hatt.armed, ?_⟩, fun e he ha hc => (hatt.live e he ha hc).2.2.2⟩
    rintro ⟨e, he, ha, hc⟩
    exact (hatt.live e he ha hc).2.2.1
  · obtain ⟨i, hi⟩ := List.getElem?_of_mem hx
    have htimely := (h.clients hs (by simp)).2
    split
    · rename_i hp
      have hbooks := (h.books hs).1
      obtain ⟨ci, hw, rfl⟩ := hbooks.owned i x hi hp
      have hci : ci < cfg.workload.numClients := (h.books hs).2 ▸ hbooks.client ci hw
      rw [htimely.sent ci x hw hi]
      exact (h.attended hs hci).not_overdue (h.sound hs).1.1.due hw
    · rename_i hp
      exact htimely.returned i x hi (Bool.eq_false_iff.mpr hp)

theorem no_operation_overdue_two : ∃ s : Sim Medium.bytes,
    (s.world.workload.clients 0).waiting = true ∧
      ∃ e ∈ s.queue.heap, e.action = .opTimeout 0 ∧ e.time = kSec + kOpTimeout := by
  have hrun : ((runUpTo Medium.bytes (twoNodes true) (100 * kMsec) 100).map fun s =>
      ((s.world.workload.clients 0).waiting, (s.world.workload.clients 0).sentAt)) =
      some (true, kSec) := by decide +kernel
  obtain ⟨s, hs, hwait⟩ := Option.map_eq_some_iff.mp hrun
  obtain ⟨hw, hsent⟩ := Prod.mk.inj hwait
  obtain ⟨hiff, htime⟩ := (no_operation_overdue Medium.bytes (twoNodes true) (twoNodes_sane true) s
    (runUpTo_moment (by decide) hs)).1 0 (by decide)
  obtain ⟨e, he, ha, hc⟩ := hiff.mp hw
  exact ⟨s, hw, e, he, ha, hsent ▸ htime e he ha hc⟩

/-- At the end of the last slice nothing is left to do, if the clients had time enough. -/
theorem Moment.done_of_time_up (hs : cfg.Sane) (h : Moment cfg .working s) {r : Nat}
    (hshare : cfg.totalOps ≤ cfg.workload.numClients * (r + 1))
    (htime : cfg.latest cfg.workload.numClients r + kOpTimeout ≤ s.clock)
    (hdue : ¬ s.Due s.clock) : done s.world.workload = true := by
  obtain ⟨hbooks, hcfg⟩ := h.books hs
  obtain ⟨hc, htimely⟩ := h.clients hs (by simp)
  have htotal : s.world.workload.cfg.totalOps = cfg.totalOps := by
    rw [hcfg]
    rfl
  have hissued := hbooks.issued_le
  change s.world.workload.opsIssued ≤ s.world.workload.cfg.totalOps at hissued
  -- each operation is one of the first `r + 1` of some client
  have hrow : ∀ {i}, i < cfg.totalOps →
      0 < cfg.workload.numClients ∧ i / cfg.workload.numClients ≤ r := by
    intro i hi
    have hlt := Nat.lt_of_lt_of_le hi hshare
    exact ⟨Nat.pos_of_mul_pos_right (Nat.zero_lt_of_lt hlt),
      Nat.le_of_lt_succ (Nat.div_lt_of_lt_mul hlt)⟩
  have hpos : 0 < kOpTimeout := by decide
  have hall : s.world.workload.cfg.totalOps ≤ s.world.workload.opsIssued := by
    by_contra hroom
    rw [Nat.not_le, htotal] at hroom
    obtain ⟨hn, hdiv⟩ := hrow hroom
    have hle := htimely.clock_le hn (fun ci hci => (hc ci).attended hci) (h.sound hs).1.1.due
      (htotal ▸ hroom)
    have hle' := cfg.latest_mono (Nat.le_refl cfg.workload.numClients) hdiv
    omega
  have hnone : s.world.workload.pending = 0 := by
    rw [hbooks.pending_eq, Finset.card_eq_zero, Finset.eq_empty_iff_forall_notMem]
    intro ci hci
    obtain ⟨hlt, hw⟩ := Workload.mem_waiters.mp hci
    obtain ⟨i, x, hx, hsent⟩ := h.pending_entry hs hw
    have hi : i < cfg.totalOps := by
      have hlen := (List.getElem?_eq_some_iff.mp hx).1
      rw [htimely.length] at hlen
      exact Nat.lt_of_lt_of_le hlen (htotal ▸ hissued)
    have hle := htimely.invoked i x hx
    have hle' := cfg.latest_mono (Nat.le_refl cfg.workload.numClients) (hrow hi).2
    have hatt := h.attended hs (hcfg ▸ hlt : ci < cfg.workload.numClients)
    obtain ⟨e, he, ha, hcan⟩ := hatt.armed hw
    have hlate := Simulator.lt_of_not_due hdue e he
    rw [(hatt.live e he ha hcan).2.2.2, ← hsent] at hlate
    omega
  unfold done
  rw [hnone, Bool.and_eq_true, decide_eq_true_eq]
  exact ⟨hall, rfl⟩

/-! ## Exceptions -/

/-- A closure raises what a node does not catch, and nothing else. -/
theorem Outcome.raised {H : Harness M} {a : Action M} (h : Outcome cfg s a s')
    (hacc : Accounted cfg H a) (hdown : ∀ n, a = .restart n → (s.world.node n).running = false) :
    s'.world.raised = s.world.raised ∨ ∃ n ∈ cfg.ids, ∃ inp,
      s'.world.raised = s.world.raised.or ((s.world.node n).raised s.world.steps inp) := by
  cases h with
  | @node _ n inp _ ha hcalls =>
    obtain ⟨T⟩ := Tagging.exists M
    exact .inr ⟨n, (hacc.event (w := s.world) (v := s.world) T ha).1, inp,
      congrArg World.raised hcalls.frame.1⟩
  | @restart n _ hcalls =>
    have hraised : (s.world.node n).raised s.world.steps .restart =
        (s.world.node n).restart.exception := by
      rw [Node.raised, hdown n rfl]
      rfl
    exact .inr ⟨n, hacc, .restart, hraised ▸ congrArg World.raised hcalls.frame.1⟩
  | issued _ _ _ _ _ _ hcalls _ =>
    have hraised := congrArg World.raised hcalls.frame.1
    exact .inl hraised
  | tick _ h =>
    cases h with
    | crash n _ _ _ t hn _ hcalls =>
      exact .inr ⟨n, hn, .crash, congrArg World.raised hcalls.frame.1⟩
    | _ => exact .inl rfl
  | _ => exact .inl rfl

/-- The first exception of a run left a node at some moment of it. -/
theorem Moment.raised (hs : cfg.Sane) (h : Moment cfg ph s) {x : String}
    (hx : s.world.raised = some x) :
    ∃ (ph' : Phase) (t : Sim M), Moment cfg ph' t ∧ t.world.raised = none ∧ ∃ n ∈ cfg.ids, ∃ inp,
      (t.world.node n).raised t.world.steps inp = some x := by
  induction h with
  | init => cases hx
  | startNode h _ ih =>
    obtain ⟨g, heq⟩ := h.startNode_eq
    rw [heq] at hx
    exact ih hx
  | booted _ ih => exact ih hx
  | @event ph s D hm hph hdue _ ih =>
    obtain ⟨e, rest, ordered, C, hq, -, hcases⟩ := event_cases cfg hdue
    have hmem : e ∈ s.queue.heap := by
      rw [hq]
      exact List.mem_cons_self
    rcases hcases with ⟨-, heq⟩ | ⟨-, hout⟩
    · rw [heq] at hx
      exact ih hx
    · obtain ⟨es, hr, -, -⟩ := hm.refines hs
      rcases hout.raised (hr.queue e hmem) fun n hn => hm.restart_down hs hph hmem hn with
        hsame | ⟨n, hn, inp, hnew⟩
      · exact ih (hsame ▸ hx)
      · change _ = s.world.raised.or ((s.world.node n).raised s.world.steps inp) at hnew
        rw [hnew] at hx
        cases hbefore : s.world.raised with
        | some y => exact ih (by rwa [hbefore] at hx ⊢)
        | none => exact ⟨ph, s, hm, hbefore, n, hn, inp, by rwa [hbefore] at hx⟩
  | pass _ _ _ _ _ ih => exact ih hx
  | opened _ _ ih => exact ih hx
  | startClient _ _ ih =>
    rw [startClient_eq] at hx
    exact ih hx
  | startFaults _ ih =>
    rw [startFaults_eq] at hx
    exact ih hx

/-! ## The end of the run -/

end Working

end SimKV.Runner
