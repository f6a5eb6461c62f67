/-
# What happens in a simulated run

An action of a run changes the objects, and calls the simulator: it draws, schedules and
cancels.  `Outcome` says all that each action can do, with the conditions under which it
does it; `act_outcome` reads it off the scripts once, and nothing after it looks into a
script.  The calls that a node's step gives rise to are known by the effects it recorded
(`Emission`).

`Moment` is a run at any moment: between two events, before or after the clients were
started.  What `run_once` returns is the last of them (`runOnce_moment`).
-/
import SimKV.Harness.Runner

namespace SimKV.Runner

open Sim

variable {M : Medium}

/-! ## Calls of the simulator -/

/-- The member that remembers the event. -/
def Action.slot? : Action M → Option Slot
  | .electionTimer n _ => some (.election n)
  | .heartbeatTimer n => some (.heartbeat n)
  | .readTimer n round => some (.read n round)
  | .opTimeout ci => some (.timeout ci)
  | .tick => some .tick
  | _ => none

inductive Call (M : Medium) where
  /-- The generator is left as `g`. -/
  | draw (g : Prng)
  | schedule (delay : Nat) (a : Action M)
  /-- The event that `x` remembers is cancelled. -/
  | cancel (x : Slot)

def remember (x : Option Slot) (id : Nat) (ids : Slot → Nat) : Slot → Nat :=
  match x with
  | none => ids
  | some x => Function.update ids x id

/-- The objects are as in `w`. -/
def put (w : World M) (s : Sim M) : Sim M := { s with world := w }

def call (s : Sim M) : Call M → Sim M
  | .draw g => { s with prng := g }
  | .schedule delay a =>
    { (s.schedule delay a).2 with
      world := { s.world with ids := remember a.slot? s.nextSeq s.world.ids } }
  | .cancel x => s.cancel (s.world.ids x)

theorem call_schedule (s : Sim M) (delay : Nat) (a : Action M) :
    call s (.schedule delay a) = put { s.world with
      ids := remember a.slot? s.nextSeq s.world.ids } (s.schedule delay a).2 :=
  rfl

/-- Calls, all of the kind `P`, lead from `s` to `s'`. -/
def Calls (P : Call M → Prop) (s s' : Sim M) : Prop :=
  ∃ cs : List (Call M), (∀ c ∈ cs, P c) ∧ cs.foldl call s = s'

namespace Calls

variable {P Q : Call M → Prop} {s s' s'' : Sim M}

theorem refl (P : Call M → Prop) (s : Sim M) : Calls P s s :=
  ⟨[], fun _ hc => absurd hc List.not_mem_nil, rfl⟩

theorem head {c : Call M} (hc : P c) (h : Calls P (call s c) s') : Calls P s s' := by
  obtain ⟨cs, hcs, rfl⟩ := h
  refine ⟨c :: cs, fun c' hc' => ?_, rfl⟩
  rcases List.mem_cons.mp hc' with rfl | hc'
  · exact hc
  · exact hcs c' hc'

theorem one {c : Call M} (hc : P c) : Calls P s (call s c) := head hc (refl P _)

theorem trans (h : Calls P s s') (h' : Calls P s' s'') : Calls P s s'' := by
  obtain ⟨cs, hcs, rfl⟩ := h
  obtain ⟨cs', hcs', rfl⟩ := h'
  refine ⟨cs ++ cs', fun c hc => ?_, List.foldl_append⟩
  rcases List.mem_append.mp hc with hc | hc
  · exact hcs c hc
  · exact hcs' c hc

theorem mono (h : Calls P s s') (hPQ : ∀ c, P c → Q c) : Calls Q s s' := by
  obtain ⟨cs, hcs, hs⟩ := h
  exact ⟨cs, fun c hc => hPQ c (hcs c hc), hs⟩

/-- What each call keeps, calls keep. -/
theorem keeps {I : Sim M → Prop} (h : Calls P s s') (step : ∀ s c, P c → I s → I (call s c))
    (hs : I s) : I s' := by
  obtain ⟨cs, hcs, rfl⟩ := h
  induction cs generalizing s with
  | nil => exact hs
  | cons c cs ih =>
    exact ih (step s c (hcs c List.mem_cons_self) hs)
      fun c' hc' => hcs c' (List.mem_cons_of_mem _ hc')

/-- Calls touch none of the objects, but for the ids that they remember. -/
theorem frame (h : Calls P s s') :
    s'.world = { s.world with ids := s'.world.ids } ∧ s'.clock = s.clock := by
  refine h.keeps (I := fun t => t.world = { s.world with ids := t.world.ids } ∧ t.clock = s.clock)
    (fun t c _ ht => ?_) ⟨rfl, rfl⟩
  obtain ⟨hw, hc⟩ := ht
  cases c with
  | draw g => exact ⟨hw, hc⟩
  | cancel x => exact ⟨hw, hc⟩
  | schedule delay a =>
    exact ⟨congrArg (fun w => { w with ids := remember a.slot? t.nextSeq t.world.ids }) hw, hc⟩

theorem draw {f : Prng → Nat × Prng} {next : Nat → Prog M} (hd : ∀ g, P (.draw g))
    (h : Calls P (call s (.draw (f s.prng).2))
      ((call s (.draw (f s.prng).2)).exec (next (f s.prng).1))) :
    Calls P s (s.exec (.draw f next)) :=
  .head (hd _) h

end Calls

/-! ## Scripts as calls -/

variable (cfg : RunConfig)

theorem exec_flip (p : Rat) (next : Bool → Prog M) (s : Sim M) :
    ∃ b g, s.exec (flip p next) = (call s (.draw g)).exec (next b) ∧ (p ≤ 0 → b = false) := by
  refine ⟨(s.prng.bernoulli p).1, (s.prng.bernoulli p).2, ?_, fun hp => ?_⟩
  · change Simulator.exec (next ((s.prng.bernoulli p).1.toNat == 1)) _ = _
    cases (s.prng.bernoulli p).1 <;> rfl
  · unfold Prng.bernoulli
    rw [if_pos hp]

theorem exec_unit (next : Rat → Prog M) (s : Sim M) :
    ∃ r g, s.exec (unit next) = (call s (.draw g)).exec (next r) :=
  ⟨_, _, rfl⟩

theorem exec_shuffle (range : Prng.Range) (k : Nat) (v : List NodeId)
    (next : List NodeId → Prog M) (s : Sim M) :
    ∃ v' g, v'.Perm v ∧ s.exec (shuffle range k v next) = (call s (.draw g)).exec (next v') := by
  induction k generalizing v s with
  | zero => exact ⟨v, s.prng, List.Perm.refl v, rfl⟩
  | succ k ih =>
    obtain ⟨v', g, hperm, heq⟩ := ih (Shuffle.swap (range 0 (k + 2) s.prng).1 (k + 1) v)
      (call s (.draw (range 0 (k + 2) s.prng).2))
    exact ⟨v', g, hperm.trans (Shuffle.swap_perm _ _ v), heq⟩

theorem exec_arm {a : Action M} {x : Slot} (hx : a.slot? = some x) (delay : Nat) (s : Sim M) :
    s.exec (arm delay a x) = call s (.schedule delay a) := by
  rw [call_schedule, hx]
  rfl

theorem exec_post {a : Action M} (hx : a.slot? = none) (delay : Nat) (s : Sim M) :
    s.exec (.schedule delay a fun _ => .done) = call s (.schedule delay a) := by
  rw [call_schedule, hx]
  rfl

/-- What `send` calls. -/
inductive Sending (net : Network Handler) (src dst : NodeId) (m : Msg M.Blob) : Call M → Prop
  | draw (g : Prng) : Sending net src dst m (.draw g)
  | copy (fn : Handler) (g : Prng) (hcut : net.cutOff src dst = false)
      (hfn : net.handlers.find? dst = some fn) :
      Sending net src dst m (.schedule
        (cfg.range cfg.netCfg.minLatency (cfg.netCfg.maxLatency + 1) g).1 (.deliver fn src dst m))

theorem sendCopy_calls {net : Network Handler} {src dst : NodeId} (m : Msg M.Blob) {s : Sim M}
    (hnet : s.world.net = net) (hcut : net.cutOff src dst = false) :
    Calls (Sending cfg net src dst m) s (s.exec (sendCopy cfg src dst m)) := by
  unfold sendCopy
  rw [Simulator.exec, hnet]
  split
  · exact .refl _ s
  · rename_i fn hfn
    refine .draw .draw ?_
    rw [exec_post rfl]
    exact .one (.copy fn s.prng hcut hfn)

theorem send_calls (src dst : NodeId) (m : Msg M.Blob) (s : Sim M) :
    Calls (Sending cfg s.world.net src dst m) s (s.exec (send cfg src dst m)) := by
  change Calls _ s (s.exec (if s.world.net.cutOff src dst then _ else _))
  cases hcut : s.world.net.cutOff src dst with
  | true => exact .refl _ s
  | false =>
    rw [if_neg Bool.false_ne_true]
    obtain ⟨lost, g, heq, -⟩ := exec_flip s.world.net.probs.dropProb _ s
    rw [heq]
    refine .head (.draw g) ?_
    cases lost with
    | true => exact .refl _ _
    | false =>
      rw [if_neg Bool.false_ne_true, Simulator.exec_andThen]
      have hfirst := sendCopy_calls cfg m (s := call s (.draw g)) rfl hcut
      refine hfirst.trans ?_
      obtain ⟨twice, g', heq', -⟩ := exec_flip s.world.net.probs.dupProb _
        ((call s (.draw g)).exec (sendCopy cfg src dst m))
      rw [heq']
      refine .head (.draw g') ?_
      cases twice with
      | false => exact .refl _ _
      | true =>
        refine sendCopy_calls cfg m ?_ hcut
        change ((call s (.draw g)).exec (sendCopy cfg src dst m)).world.net = s.world.net
        rw [hfirst.frame.1]
        rfl

/-- What a timer of node `n` calls. -/
inductive Timing (n : NodeId) : TimerOp → Call M → Prop
  | draw (gen : Nat) (g : Prng) : Timing n (.scheduleElection gen) (.draw g)
  | election (gen : Nat) (g : Prng) : Timing n (.scheduleElection gen)
      (.schedule (cfg.range electionTimeoutLo (2 * electionTimeoutLo + 1) g).1
        (.electionTimer n gen))
  | cancelElection : Timing n .cancelElection (.cancel (.election n))
  | heartbeat : Timing n .scheduleHeartbeat (.schedule heartbeatInterval (.heartbeatTimer n))
  | cancelHeartbeat : Timing n .cancelHeartbeat (.cancel (.heartbeat n))
  | read (round : Nat) : Timing n (.scheduleRead round) (.schedule readTimeout (.readTimer n round))
  | cancelRead (round : Nat) : Timing n (.cancelRead round) (.cancel (.read n round))

theorem timer_calls (n : NodeId) (op : TimerOp) (s : Sim M) :
    Calls (Timing cfg n op) s (s.exec (timer cfg n op)) := by
  cases op with
  | scheduleElection gen =>
    refine .draw (.draw gen) ?_
    rw [exec_arm rfl]
    exact .one (.election gen s.prng)
  | cancelElection => exact .one Timing.cancelElection
  | scheduleHeartbeat =>
    unfold timer
    rw [exec_arm rfl]
    exact .one .heartbeat
  | cancelHeartbeat => exact .one Timing.cancelHeartbeat
  | scheduleRead round =>
    unfold timer
    rw [exec_arm rfl]
    exact .one (.read round)
  | cancelRead round => exact .one (Timing.cancelRead round)

/-- What the effects `out` of node `n` call. -/
inductive Emission (net : Network Handler) (n : NodeId) (out : List (Effect M)) : Call M → Prop
  | send {dst : NodeId} {m : Msg M.Blob} {c : Call M} (h : .send dst m ∈ out)
      (hc : Sending cfg net n dst m c) : Emission net n out c
  | timer {op : TimerOp} {c : Call M} (h : .timer op ∈ out) (hc : Timing cfg n op c) :
      Emission net n out c

theorem effect_calls {n : NodeId} {out : List (Effect M)} {e : Effect M} (he : e ∈ out)
    (s : Sim M) : Calls (Emission cfg s.world.net n out) s (s.exec (effect cfg n e)) := by
  cases e with
  | send dst m => exact (send_calls cfg n dst m s).mono fun c hc => .send he hc
  | timer op => exact (timer_calls cfg n op s).mono fun c hc => .timer he hc
  | _ => exact .refl _ s

theorem perform_calls (n : NodeId) (out : List (Effect M)) (s : Sim M) :
    Calls (Emission cfg s.world.net n out) s (s.exec (perform cfg n out)) := by
  suffices h : ∀ es : List (Effect M), (∀ e ∈ es, e ∈ out) → ∀ t : Sim M,
      t.world.net = s.world.net →
      Calls (Emission cfg s.world.net n out) t (t.exec (perform cfg n es)) from
    h out (fun e he => he) s rfl
  intro es
  induction es with
  | nil => exact fun _ t _ => .refl _ t
  | cons e es ih =>
    intro hes t ht
    change Calls _ t (t.exec ((effect cfg n e).andThen (perform cfg n es)))
    rw [Simulator.exec_andThen]
    have hfirst : Calls (Emission cfg s.world.net n out) t (t.exec (effect cfg n e)) :=
      ht ▸ effect_calls cfg (hes e List.mem_cons_self) t
    refine hfirst.trans (ih (fun e' he' => hes e' (List.mem_cons_of_mem _ he')) _ ?_)
    rw [hfirst.frame.1]
    exact ht

theorem settle_calls (n : NodeId) (st : Node M) (x : Option String) (w : World M) (s : Sim M) :
    Calls (Emission cfg w.net n st.out) (put (w.settle n st x) s)
      (s.exec (settle cfg n st x w)) :=
  perform_calls cfg n st.out (put (w.settle n st x) s)

/-! ## What an action does -/

/-- The node that an action is for, and what it is to that node. -/
def Action.input? : Action M → Option (NodeId × Input M)
  | .deliver (.node n) src _ m => some (n, .message src m)
  | .electionTimer n gen => some (n, .electionTimer gen)
  | .heartbeatTimer n => some (n, .heartbeatTimer)
  | .readTimer n round => some (n, .readTimer round)
  | _ => none

/-- What a tick of the fault injector does before it schedules the next one. -/
inductive Injected (s : Sim M) : Sim M → Prop
  /-- No fault; or the node that was to crash is down already. -/
  | nothing (g : Prng) : Injected s (call s (.draw g))
  | partition (ids : List NodeId) (split : Nat) (g g' g'' : Prng) (hids : ids.Perm cfg.ids)
      (hlen : 2 ≤ cfg.ids.length) (hsplit : split = (cfg.range 1 ids.length g'').1) :
      Injected s (call
        (put { s.world with net := s.world.net.partition [ids.take split, ids.drop split] }
          (call s (.draw g')))
        (.schedule (cfg.range (cfg.fault.partitionDuration / 2) (cfg.fault.partitionDuration * 2)
          g).1 .heal))
  | crash (n : NodeId) (g g' g'' : Prng) (s' : Sim M) (hn : n ∈ cfg.ids)
      (hrun : (s.world.node n).running = true)
      (hcalls : Calls (Emission cfg (s.world.net.removeHandler n) n
        ((s.world.node n).handle s.world.steps .crash).out)
        (put ({ s.world with net := s.world.net.removeHandler n }.settle n
          ((s.world.node n).handle s.world.steps .crash)
          ((s.world.node n).raised s.world.steps .crash)) (call s (.draw g))) s') :
      Injected s (call (call s' (.draw g''))
        (.schedule (cfg.range cfg.fault.crashMinDown cfg.fault.crashMaxDown g').1 (.restart n)))
  | spike (k : FaultInjector.Prob) (p : Rat) (g g' : Prng)
      (hk : k = .dup → 0 < cfg.fault.dupRaiseProb) :
      Injected s (call (put (s.world.setProb k p) (call s (.draw g')))
        (.schedule (cfg.range (100 * kMsec) (400 * kMsec) g).1
          (.restore k (s.world.net.probs.get k))))

/-- All that an action can do. -/
inductive Outcome (s : Sim M) : Action M → Sim M → Prop
  | node {a : Action M} {n : NodeId} {inp : Input M} {s' : Sim M} (ha : a.input? = some (n, inp))
      (hcalls : Calls
        (Emission cfg s.world.net n ((s.world.node n).handle s.world.steps inp).out)
        (put (s.world.settle n ((s.world.node n).handle s.world.steps inp)
          ((s.world.node n).raised s.world.steps inp)) s) s') :
      Outcome s a s'
  | restart {n : NodeId} {s' : Sim M}
      (hcalls : Calls
        (Emission cfg (s.world.net.setHandler n (.node n)) n (s.world.node n).restart.state.out)
        (put ({ s.world with net := s.world.net.setHandler n (.node n) }.settle n
          (s.world.node n).restart.state (s.world.node n).restart.exception) s) s') :
      Outcome s (.restart n) s'
  | issued {ci : Nat} {s' : Sim M} (kind : OpKind) (key value expected : Str) (g : Prng)
      {wl : Workload} {dst : NodeId} {cr : ClientRequest}
      (hissue : s.world.workload.issueOp s.clock ci kind key value expected = (wl, some (dst, cr)))
      (hcalls : Calls (Sending cfg s.world.net (kClientIdBase + ci) dst (.clientRequest cr))
        (put { s.world with workload := wl, steps := s.world.steps + 1 } (call s (.draw g))) s')
      -- a network that does not duplicate sends one copy at most
      (honce : s.world.net.probs.dupProb ≤ 0 → s'.nextSeq ≤ s.nextSeq + 1) :
      Outcome s (.issueOp ci) (call s' (.schedule kOpTimeout (.opTimeout ci)))
  | notIssued {ci : Nat} (h : s.world.workload.opsIssued ≥ s.world.workload.cfg.totalOps ∨
      (s.world.workload.clients ci).waiting = true) : Outcome s (.issueOp ci) s
  | answered {ci : Nat} {src dst : NodeId} {reply : ClientReply}
      (hwait : (s.world.workload.clients ci).waiting = true)
      (hid : reply.requestId = pred64 (s.world.workload.clients ci).nextRequestId) :
      Outcome s (.deliver (.client ci) src dst (.clientReply reply))
        (call (put { s.world with workload := s.world.workload.acceptReply s.clock ci reply }
          (call s (.cancel (.timeout ci)))) (.schedule cfg.workloadCfg.thinkTime (.issueOp ci)))
  | ignored {ci : Nat} {src dst : NodeId} {m : Msg M.Blob}
      (h : (s.world.workload.clients ci).waiting = false ∨ ∀ reply, m = .clientReply reply →
        reply.requestId ≠ pred64 (s.world.workload.clients ci).nextRequestId) :
      Outcome s (.deliver (.client ci) src dst m) s
  | gaveUp {ci : Nat} (hwait : (s.world.workload.clients ci).waiting = true) :
      Outcome s (.opTimeout ci)
        (call (put { s.world with workload := s.world.workload.onTimeout s.clock ci } s)
          (.schedule cfg.workloadCfg.thinkTime (.issueOp ci)))
  | late {ci : Nat} (hwait : (s.world.workload.clients ci).waiting = false) :
      Outcome s (.opTimeout ci) s
  | tick {s' : Sim M} (hinj : s.world.injecting = true) (h : Injected cfg s s') :
      Outcome s .tick (call s' (.schedule cfg.fault.checkInterval .tick))
  | noTick (hinj : s.world.injecting = false) : Outcome s .tick s
  | heal : Outcome s .heal (put { s.world with net := s.world.net.heal } s)
  | restore {k : FaultInjector.Prob} {old : Rat} :
      Outcome s (.restore k old) (put (s.world.setProb k old) s)

section Outcome

variable (s : Sim M)

theorem nodeStep_outcome {a : Action M} {n : NodeId} {inp : Input M}
    (ha : a.input? = some (n, inp)) : Outcome cfg s a (s.exec (nodeStep cfg n inp)) :=
  .node ha (settle_calls cfg n _ _ s.world s)

/-- A network that does not duplicate. -/
theorem send_once (src dst : NodeId) (m : Msg M.Blob) (hdup : s.world.net.probs.dupProb ≤ 0) :
    (s.exec (send cfg src dst m)).nextSeq ≤ s.nextSeq + 1 := by
  have hcopy : ∀ t : Sim M, (t.exec (sendCopy cfg src dst m)).nextSeq ≤ t.nextSeq + 1 := by
    intro t
    unfold sendCopy
    rw [Simulator.exec]
    split
    · exact Nat.le_succ _
    · exact Nat.le_refl _
  change (s.exec (if s.world.net.cutOff src dst then _ else _)).nextSeq ≤ _
  split
  · exact Nat.le_succ _
  · obtain ⟨lost, g, heq, -⟩ := exec_flip s.world.net.probs.dropProb _ s
    rw [heq]
    cases lost with
    | true => exact Nat.le_succ _
    | false =>
      rw [if_neg Bool.false_ne_true, Simulator.exec_andThen]
      obtain ⟨twice, g', heq', htwice⟩ := exec_flip s.world.net.probs.dupProb _
        ((call s (.draw g)).exec (sendCopy cfg src dst m))
      rw [heq', htwice hdup]
      exact hcopy (call s (.draw g))

theorem sendOp_outcome (ci : Nat) (kind : OpKind) (key value expected : Str) (g : Prng)
    (hops : ¬ s.world.workload.opsIssued ≥ s.world.workload.cfg.totalOps)
    (hwait : (s.world.workload.clients ci).waiting = false) :
    Outcome cfg s (.issueOp ci)
      ((call s (.draw g)).exec (sendOp cfg ci kind key value expected)) := by
  let wl := s.world.workload.register s.clock ci kind key
    (Workload.drawn kind key value expected).1 (Workload.drawn kind key value expected).2.1
  let cr : ClientRequest := ⟨kClientIdBase + ci, (s.world.workload.clients ci).nextRequestId,
    (Workload.drawn kind key value expected).2.2⟩
  have hissue : s.world.workload.issueOp s.clock ci kind key value expected =
      (wl, some ((s.world.workload.clients ci).believedLeader, cr)) := by
    unfold Workload.issueOp
    rw [if_neg hops, hwait, if_neg Bool.false_ne_true]
  let t := put { s.world with workload := wl, steps := s.world.steps + 1 } (call s (.draw g))
  have heq : (call s (.draw g)).exec (sendOp cfg ci kind key value expected) =
      call (t.exec (send cfg (kClientIdBase + ci) (s.world.workload.clients ci).believedLeader
        (.clientRequest cr))) (.schedule kOpTimeout (.opTimeout ci)) := by
    rw [← exec_arm rfl, ← Simulator.exec_andThen]
    unfold sendOp
    simp only [Simulator.exec, call, hissue]
    rfl
  rw [heq]
  exact .issued kind key value expected g hissue (send_calls cfg _ _ _ t) (send_once cfg t _ _ _)

theorem issueOp_outcome (ci : Nat) : Outcome cfg s (.issueOp ci) (s.exec (issueOp cfg ci)) := by
  change Outcome cfg s _ (s.exec (if _ then _ else _))
  split
  · rename_i hops
    exact .notIssued (.inl hops)
  · rename_i hops
    cases hwait : (s.world.workload.clients ci).waiting with
    | true => exact .notIssued (.inr hwait)
    | false =>
      rw [if_neg Bool.false_ne_true]
      have hkind : ∀ next : OpKind → Prog M,
          (∀ kind g, Outcome cfg s (.issueOp ci) ((call s (.draw g)).exec (next kind))) →
          Outcome cfg s (.issueOp ci) (s.exec (randomOpKind cfg next)) := by
        intro next hnext
        obtain ⟨r, g, heq⟩ := exec_unit _ s
        change Outcome cfg s _ (s.exec (unit _))
        rw [heq]
        split
        · exact hnext _ _
        · split <;> exact hnext _ _
      refine hkind _ fun kind g => ?_
      change Outcome cfg s _ (Simulator.exec (.draw _ fun k => _) _)
      cases kind with
      | put => exact sendOp_outcome cfg s ci .put _ _ _ _ hops hwait
      | get => exact sendOp_outcome cfg s ci .get _ _ _ _ hops hwait
      | cas => exact sendOp_outcome cfg s ci .cas _ _ _ _ hops hwait

theorem onReply_outcome (ci : Nat) (src dst : NodeId) (m : Msg M.Blob) :
    Outcome cfg s (.deliver (.client ci) src dst m) (s.exec (onReply cfg ci m)) := by
  change Outcome cfg s _ (s.exec (if !(s.world.workload.clients ci).waiting then _ else _))
  cases hwait : (s.world.workload.clients ci).waiting with
  | false => exact .ignored (.inl hwait)
  | true =>
    cases m with
    | clientReply reply =>
      change Outcome cfg s _ (s.exec (if reply.requestId ≠ _ then _ else _))
      split
      · rename_i hid
        refine .ignored (.inr fun reply' heq => ?_)
        cases heq
        exact hid
      · rename_i hid
        have heq := exec_post (a := .issueOp ci) rfl cfg.workloadCfg.thinkTime
          (put { s.world with workload := s.world.workload.acceptReply s.clock ci reply }
            (call s (.cancel (.timeout ci))))
        exact heq ▸ .answered hwait (not_not.mp hid)
    | _ => exact .ignored (.inr fun reply heq => absurd heq (by simp))

theorem onTimeout_outcome (ci : Nat) :
    Outcome cfg s (.opTimeout ci) (s.exec (onTimeout cfg ci)) := by
  change Outcome cfg s _ (s.exec (if !(s.world.workload.clients ci).waiting then _ else _))
  cases hwait : (s.world.workload.clients ci).waiting with
  | false => exact .late hwait
  | true =>
    have heq := exec_post (a := .issueOp ci) rfl cfg.workloadCfg.thinkTime
      (put { s.world with workload := s.world.workload.onTimeout s.clock ci } s)
    exact heq ▸ .gaveUp hwait

/-! ## Faults -/

theorem injectPartition_injected (g : Prng) :
    Injected cfg s ((call s (.draw g)).exec (injectPartition cfg)) := by
  unfold injectPartition
  split
  · exact .nothing g
  · rename_i hlen
    obtain ⟨ids, g₁, hids, heq⟩ := exec_shuffle cfg.range (cfg.ids.length - 1) cfg.ids _
      (call s (.draw g))
    rw [heq]
    let split := (cfg.range 1 ids.length g₁).1
    have hpost := fun g' => exec_post (a := Action.heal) rfl
      (cfg.range (cfg.fault.partitionDuration / 2) (cfg.fault.partitionDuration * 2)
        (cfg.range 1 ids.length g₁).2).1
      (put { s.world with net := s.world.net.partition [ids.take split, ids.drop split] }
        (call s (.draw g')))
    exact hpost _ ▸ .partition ids split _ _ g₁ hids (Nat.not_lt.mp hlen) rfl

theorem injectCrashRestart_injected (g : Prng) :
    Injected cfg s ((call s (.draw g)).exec (injectCrashRestart cfg)) := by
  unfold injectCrashRestart
  split
  · exact .nothing g
  · let idx := cfg.range 0 cfg.ids.length g
    rw [Simulator.exec, Simulator.exec]
    dsimp only
    split
    · exact .nothing idx.2
    · rename_i n hidx
      change Injected cfg s (Simulator.exec (if !(s.world.node n).running then _ else _) _)
      cases hrun : (s.world.node n).running with
      | false => exact .nothing idx.2
      | true =>
        change Injected cfg s (Simulator.exec (.andThen _ _) _)
        rw [Simulator.exec_andThen]
        have hcalls := settle_calls cfg n ((s.world.node n).handle s.world.steps .crash)
          ((s.world.node n).raised s.world.steps .crash)
          { s.world with net := s.world.net.removeHandler n } (call s (.draw idx.2))
        exact exec_post (a := .restart n) rfl _ _ ▸
          .crash n idx.2 _ _ _ (List.mem_of_getElem? hidx) hrun hcalls

theorem injectSpike_injected (k : FaultInjector.Prob) (raise limit : Rat) (g : Prng)
    (hk : k = .dup → 0 < cfg.fault.dupRaiseProb) :
    Injected cfg s ((call s (.draw g)).exec (injectSpike cfg k raise limit)) := by
  let p := min (s.world.net.probs.get k + raise) limit
  have hpost := exec_post (a := .restore k (s.world.net.probs.get k)) rfl
    (cfg.range (100 * kMsec) (400 * kMsec) g).1
    (put (s.world.setProb k p) (call s (.draw (cfg.range (100 * kMsec) (400 * kMsec) g).2)))
  exact hpost ▸ .spike k p _ _ hk

theorem injectFault_injected (r : Rat) (g : Prng) :
    Injected cfg s ((call s (.draw g)).exec (injectFault cfg r)) := by
  unfold injectFault
  split
  · exact injectPartition_injected cfg s g
  · split
    · exact injectSpike_injected cfg s .drop _ _ g fun h => absurd h (by decide)
    · split
      · rename_i hlow hhigh
        exact injectSpike_injected cfg s .dup _ _ g fun _ => by linarith
      · exact injectCrashRestart_injected cfg s g

theorem tick_outcome : Outcome cfg s .tick (s.exec (tick cfg)) := by
  change Outcome cfg s _ (s.exec (if !s.world.injecting then _ else _))
  cases hinj : s.world.injecting with
  | false => exact .noTick hinj
  | true =>
    change Outcome cfg s _ (s.exec (.andThen _ _))
    rw [Simulator.exec_andThen, exec_arm rfl]
    refine .tick hinj ?_
    obtain ⟨hit, g, heq, -⟩ := exec_flip cfg.fault.faultRate _ s
    rw [heq]
    cases hit with
    | false => exact .nothing g
    | true =>
      obtain ⟨r, g', heq'⟩ := exec_unit (injectFault cfg) (call s (.draw g))
      rw [if_pos rfl, heq']
      exact injectFault_injected cfg s r g'

/-- **What an action does.** -/
theorem act_outcome (a : Action M) : Outcome cfg s a (s.exec (act cfg a)) := by
  cases a with
  | deliver fn src dst m =>
    cases fn with
    | node n => exact nodeStep_outcome cfg s rfl
    | client ci => exact onReply_outcome cfg s ci src dst m
  | electionTimer n gen => exact nodeStep_outcome cfg s rfl
  | heartbeatTimer n => exact nodeStep_outcome cfg s rfl
  | readTimer n round => exact nodeStep_outcome cfg s rfl
  | issueOp ci => exact issueOp_outcome cfg s ci
  | opTimeout ci => exact onTimeout_outcome cfg s ci
  | tick => exact tick_outcome cfg s
  | heal => exact .heal
  | restart n =>
    exact .restart (settle_calls cfg n (s.world.node n).restart.state _
      { s.world with net := s.world.net.setHandler n (.node n) } s)
  | restore k old => exact .restore

end Outcome

theorem startClient_eq (ci : Nat) (s : Sim M) : s.exec (startClient cfg ci) =
    call (put { s.world with net := s.world.net.setHandler (kClientIdBase + ci) (.client ci) } s)
      (.schedule (cfg.workloadCfg.thinkTime * ci) (.issueOp ci)) :=
  exec_post rfl _ (put _ s)

theorem startFaults_eq (s : Sim M) : s.exec (startFaults cfg) =
    call (put { s.world with injecting := true } s) (.schedule cfg.fault.checkInterval .tick) :=
  exec_arm rfl _ (put _ s)

/-! ## The moments of a run -/

/-- How far `run_once` has come. -/
inductive Phase where
  /-- So many nodes are started. -/
  | booting (k : Nat)
  | warmup
  /-- So many clients are started. -/
  | starting (k : Nat)
  | working
deriving DecidableEq, Repr

/-- Inside or between calls of `run_for`. -/
def Phase.runs : Phase → Bool
  | .warmup => true
  | .working => true
  | _ => false

/-- When the loop of `run_once` ends. -/
def kDeadline : Nat := kSec + kMaxRunTime

/-- No slice goes on for longer. -/
def kEnd : Nat := kDeadline + 100 * kMsec

/-- The states that `run_once` goes through.  After an exception it goes through no more of them:
those that follow are the model's, and what holds at all moments holds at those of the source. -/
inductive Moment : Phase → Sim M → Prop
  | init : Moment (.booting 0) (Simulator.init cfg.seed (World.init M cfg))
  | startNode {k : Nat} {s : Sim M} (h : Moment (.booting k) s) (hk : k < cfg.numNodes) :
      Moment (.booting (k + 1)) (s.exec (startNode cfg (k + 1)))
  | booted {s : Sim M} (h : Moment (.booting cfg.numNodes) s) : Moment .warmup s
  | event {ph : Phase} {s : Sim M} {D : Nat} (h : Moment ph s) (hph : ph.runs = true)
      (hdue : s.Due D) (hD : D ≤ kEnd) : Moment ph (s.processOne (act cfg))
  | pass {ph : Phase} {s : Sim M} {D : Nat} (h : Moment ph s) (hph : ph.runs = true)
      (hdue : ¬ s.Due D) (hle : s.clock ≤ D) (hD : D ≤ kEnd) : Moment ph (s.atTime D)
  | opened {s : Sim M} (h : Moment .warmup s) (hclock : s.clock = kSec) : Moment (.starting 0) s
  | startClient {k : Nat} {s : Sim M} (h : Moment (.starting k) s)
      (hk : k < cfg.workload.numClients) :
      Moment (.starting (k + 1)) (s.exec (startClient cfg k))
  | startFaults {s : Sim M} (h : Moment (.starting cfg.workload.numClients) s) :
      Moment .working (s.exec (startFaults cfg))

section Moment

variable {cfg} {ph : Phase} {s s' : Sim M} {D fuel : Nat}

/-- What becomes of the first event of the queue. -/
theorem event_cases (cfg : RunConfig) (hdue : s.Due D) :
    ∃ e rest ordered C, s.queue = ⟨e :: rest, ordered, C⟩ ∧ e.time ≤ D ∧
      (e.seq ∈ C ∧ s.processOne (act cfg) =
          { s with queue := ⟨rest, ordered.of_cons, C.erase e.seq⟩, clock := e.time } ∨
        e.seq ∉ C ∧ Outcome cfg (s.begin e ⟨rest, ordered.of_cons, C.erase e.seq⟩) e.action
          (s.processOne (act cfg))) := by
  obtain ⟨e, rest, ordered, C, hq, he⟩ := hdue.exists_head
  refine ⟨e, rest, ordered, C, hq, he, ?_⟩
  rw [Simulator.processOne_eq hq]
  split
  · rename_i hc
    exact .inl ⟨hc, rfl⟩
  · rename_i hc
    exact .inr ⟨hc, act_outcome cfg _ e.action⟩

theorem processOne_clock (hdue : s.Due D) : (s.processOne (act cfg)).clock ≤ D := by
  obtain ⟨e, rest, ordered, C, hq, he⟩ := hdue.exists_head
  rw [Simulator.processOne_eq hq]
  split
  · exact he
  · rw [Simulator.exec_clock]
    exact he

theorem Moment.drain (h : Moment cfg ph s) (hph : ph.runs = true) (hD : D ≤ kEnd)
    (hle : s.clock ≤ D) (hs' : Simulator.drain (act cfg) D fuel s = some s') :
    Moment cfg ph s' ∧ ¬ s'.Due D ∧ s'.clock ≤ D := by
  induction fuel generalizing s with
  | zero => exact absurd hs' (by simp [Simulator.drain])
  | succ fuel ih =>
    rw [Simulator.drain] at hs'
    split at hs'
    · rename_i hdue
      exact ih (.event h hph hdue hD) (processOne_clock hdue) hs'
    · rename_i hdue
      cases hs'
      exact ⟨h, hdue, hle⟩

theorem Moment.runFor {d : Nat} (h : Moment cfg ph s) (hph : ph.runs = true)
    (hD : s.clock + d ≤ kEnd) (hs' : s.runFor (act cfg) d fuel = some s') :
    Moment cfg ph s' ∧ s'.clock = s.clock + d ∧ ¬ s'.Due s'.clock := by
  have hlt : s.clock + d < 2 ^ 64 := Nat.lt_of_le_of_lt hD (by decide)
  obtain ⟨k, hk⟩ := (Simulator.runsFor_iff hlt).mp ⟨fuel, hs'⟩
  obtain ⟨t, ht, rfl⟩ := Option.map_eq_some_iff.mp hk
  obtain ⟨hm, hdue, hle⟩ := h.drain hph hD (Nat.le_add_right _ _) ht
  exact ⟨.pass hm hph hdue hle hD, rfl, hdue⟩

theorem exec_inTurn {A W α : Type} (f : α → Script A W) (l : List α) (s : Simulator A W) :
    s.exec (.inTurn (l.map f)) = l.foldl (fun s x => s.exec (f x)) s := by
  induction l generalizing s with
  | nil => rfl
  | cons x l ih =>
    change s.exec ((f x).andThen (.inTurn (l.map f))) = _
    rw [Simulator.exec_andThen, ih]
    rfl

theorem boot_booting (M : Medium) (cfg : RunConfig) :
    Moment cfg (.booting cfg.numNodes) (boot M cfg) := by
  unfold boot RunConfig.ids
  rw [exec_inTurn, List.foldl_map]
  suffices h : ∀ k ≤ cfg.numNodes, Moment cfg (.booting k) ((List.range k).foldl
      (fun s i => s.exec (startNode cfg (i + 1))) (Simulator.init cfg.seed (World.init M cfg))) from
    h cfg.numNodes (Nat.le_refl _)
  intro k
  induction k with
  | zero => exact fun _ => .init
  | succ k ih =>
    intro hk
    rw [List.range_succ, List.foldl_concat]
    exact .startNode (ih (Nat.le_of_succ_le hk)) hk

theorem boot_moment (M : Medium) (cfg : RunConfig) : Moment cfg .warmup (boot M cfg) :=
  .booted (boot_booting M cfg)

theorem boot_clock (M : Medium) (cfg : RunConfig) : (boot M cfg).clock = 0 :=
  Simulator.exec_clock _ _

/-- The clients are started one after the other. -/
theorem startWorkload_induction {I : Nat → Sim M → Prop} (h : I 0 s)
    (hstep : ∀ k < cfg.workload.numClients, ∀ t, I k t → I (k + 1) (t.exec (startClient cfg k))) :
    I cfg.workload.numClients (s.exec (startWorkload cfg)) := by
  unfold startWorkload
  rw [exec_inTurn]
  suffices hk : ∀ k ≤ cfg.workload.numClients,
      I k ((List.range k).foldl (fun s i => s.exec (startClient cfg i)) s) from
    hk _ (Nat.le_refl _)
  intro k
  induction k with
  | zero => exact fun _ => h
  | succ k ih =>
    intro hk
    rw [List.range_succ, List.foldl_concat]
    exact hstep k hk _ (ih (Nat.le_of_succ_le hk))

theorem Moment.start (h : Moment cfg .warmup s) (hclock : s.clock = kSec) :
    Moment cfg .working (s.exec ((startWorkload cfg).andThen (Runner.startFaults cfg))) := by
  rw [Simulator.exec_andThen]
  exact .startFaults (startWorkload_induction (I := fun k => Moment cfg (.starting k))
    (.opened h hclock) fun _ hk _ hm => .startClient hm hk)

/-- The loop has a reason to end: the clients are done, or the time is up and nothing is due. -/
def Ending (s : Sim M) : Prop :=
  done s.world.workload = true ∨ kDeadline ≤ s.clock ∧ ¬ s.Due s.clock

theorem Moment.runSlices {rounds : Nat} (h : Moment cfg .working s) (hle : s.clock ≤ kEnd)
    (hdue : kDeadline ≤ s.clock → ¬ s.Due s.clock)
    (hs' : Runner.runSlices cfg fuel kDeadline rounds s = some s') :
    Moment cfg .working s' ∧ Ending s' := by
  induction rounds generalizing s with
  | zero => exact absurd hs' (by simp [Runner.runSlices])
  | succ rounds ih =>
    rw [Runner.runSlices] at hs'
    split at hs'
    · rename_i hgo
      rw [Bool.and_eq_true, decide_eq_true_eq] at hgo
      obtain ⟨t, ht, hs'⟩ := Option.bind_eq_some_iff.mp hs'
      have hend : s.clock + 100 * kMsec ≤ kEnd := Nat.add_le_add_right (Nat.le_of_lt hgo.2) _
      obtain ⟨hm, hclock, hnot⟩ := h.runFor rfl hend ht
      exact ih hm (hclock ▸ hend) (fun _ => hnot) hs'
    · rename_i hstop
      rw [Option.some.injEq] at hs'
      subst hs'
      refine ⟨h, ?_⟩
      cases hdone : done s.world.workload with
      | true => exact .inl hdone
      | false =>
        rw [hdone, Bool.not_false, Bool.true_and, decide_eq_true_eq, Nat.not_lt] at hstop
        exact .inr ⟨hstop, hdue hstop⟩

theorem warmup_moment (h : (boot M cfg).runFor (act cfg) kSec fuel = some s) :
    Moment cfg .warmup s ∧ s.clock = kSec := by
  have hend : (boot M cfg).clock + kSec ≤ kEnd := by
    rw [boot_clock]
    decide
  obtain ⟨hm, hclock, -⟩ := (boot_moment M cfg).runFor rfl hend h
  rw [boot_clock, Nat.zero_add] at hclock
  exact ⟨hm, hclock⟩

/-- `run_once` ends at the last moment of the run, with the fault injector stopped. -/
theorem runOnce_outcome {M : Medium} {cfg : RunConfig} {fuel : Nat} {o : Except String (Sim M)}
    (h : runOnce M cfg fuel = some o) :
    ∃ s, Moment cfg .working s ∧ Ending s ∧ o = outcome (s.exec stopFaults) := by
  obtain ⟨s₁, h₁, h⟩ := Option.bind_eq_some_iff.mp h
  obtain ⟨hm, hclock⟩ := warmup_moment h₁
  have hclock' : (s₁.exec ((startWorkload cfg).andThen (startFaults cfg))).clock = kSec := by
    rw [Simulator.exec_clock, hclock]
  obtain ⟨s₂, h₂, h⟩ := Option.bind_eq_some_iff.mp h
  rw [hclock'] at h₂
  obtain ⟨hm₂, hending⟩ := (hm.start hclock).runSlices (by rw [hclock']; decide)
    (fun hle => absurd (hclock' ▸ hle) (by decide)) h₂
  cases h
  exact ⟨s₂, hm₂, hending, rfl⟩

theorem outcome_of_none (h : s.world.raised = none) : outcome s = .ok s := by
  rw [outcome, h]

theorem outcome_eq_ok {s r : Sim M} (h : outcome s = .ok r) : s = r := by
  unfold outcome at h
  split at h
  · exact nomatch h
  · exact Except.ok.inj h

theorem outcome_eq_error {e : String} (h : outcome s = .error e) :
    s.world.raised = some e := by
  unfold outcome at h
  split at h
  · rename_i he
    rw [he, Except.error.inj h]
  · exact nomatch h

/-- **What `run_once` returns** is the run at its last moment, with the fault injector stopped. -/
theorem runOnce_moment {M : Medium} {cfg : RunConfig} {fuel : Nat} {r : Sim M}
    (h : runOnce M cfg fuel = some (.ok r)) :
    ∃ s, Moment cfg .working s ∧ Ending s ∧ r = s.exec stopFaults := by
  obtain ⟨s, hm, hending, hout⟩ := runOnce_outcome h
  exact ⟨s, hm, hending, (outcome_eq_ok hout.symm).symm⟩

/-- `run_once` up to `d` after the clients were started. -/
def runUpTo (M : Medium) (cfg : RunConfig) (d fuel : Nat) : Option (Sim M) := do
  let s ← (boot M cfg).runFor (act cfg) kSec fuel
  (s.exec ((startWorkload cfg).andThen (startFaults cfg))).runFor (act cfg) d fuel

theorem runUpTo_moment {M : Medium} {cfg : RunConfig} {d fuel : Nat} {s : Sim M}
    (hd : d ≤ kMaxRunTime) (h : runUpTo M cfg d fuel = some s) : Moment cfg .working s := by
  obtain ⟨s₁, h₁, h⟩ := Option.bind_eq_some_iff.mp h
  obtain ⟨hm, hclock⟩ := warmup_moment h₁
  refine ((hm.start hclock).runFor rfl ?_ h).1
  rw [Simulator.exec_clock, hclock]
  exact Nat.le_trans (Nat.add_le_add_left hd _) (Nat.le_add_right _ _)

end Moment

end SimKV.Runner
