/-
# `harness/runner.cpp`: one simulated run

`run_once` wires the simulator, the network, the nodes, the clients and the fault
injector together.  Here all of it is one simulator of `SimKV.Sim`: the world is what the
objects hold, an action is a closure that one of them schedules, and `act` says what each
closure does.  Every draw is made where the source makes it, so a seed decides the run.

A node's step is `Node.handle`; the effects it records are then carried out in their
order: what it sends goes to `send`, its timers to `schedule` and `cancel`.  The ids that
`schedule` returns are kept in slots, one for each member that holds one.  `steps` names
the callbacks and has no counterpart in the source.

Nothing catches an exception that leaves a closure: it leaves `run_for` and `run_once` too.
The simulator of `SimKV.Sim` knows no exceptions, so the world keeps the first one that a
node lets out (`raised`), and `runOnce` returns it in the place of a result.  What the
closures do after it has no counterpart in the source, and no part in what is returned.

Probabilities are rationals, as in `SimKV.Harness.FaultInjector`, and their sums are exact.
`set_latency` is never called, so the latencies are constants.
-/
import SimKV.Harness.Workload
import SimKV.Sim.Draws
import SimKV.Sim.Network
import SimKV.Sim.Scripts

namespace SimKV.Runner

open Sim

/-! ## Configuration -/

def kMsec : Nat := 1000
def kSec : Nat := 1000000

/-- The durations of `RaftConfig`, which `run_once` leaves at their defaults. -/
def electionTimeoutLo : Nat := 150 * kMsec
def heartbeatInterval : Nat := 50 * kMsec
def readTimeout : Nat := 2000 * kMsec

def kOpTimeout : Nat := 2 * kSec
def kMaxRunTime : Nat := 120 * kSec

structure NetConfig extends FaultInjector.NetworkConfig where
  dropProb := 0
  dupProb := 0
  minLatency : Nat := 1 * kMsec
  maxLatency : Nat := 20 * kMsec

/-- The fields of `WorkloadConfig` that decide what is drawn and when. -/
structure ClientConfig extends WorkloadConfig where
  numKeys : Nat := 8
  thinkTime : Nat := 5 * kMsec
  putProb : Rat := 2 / 5
  getProb : Rat := 2 / 5

structure FaultConfig where
  faultRate : Rat := 1 / 20
  checkInterval : Nat := 200 * kMsec
  partitionDuration : Nat := 800 * kMsec
  crashMinDown : Nat := 300 * kMsec
  crashMaxDown : Nat := 1 * kSec
  partitionProb : Rat := 2 / 5
  dropRaiseProb : Rat := 1 / 5
  dupRaiseProb : Rat := 1 / 10

/-- `RunConfig`, and how bounded values are drawn. -/
structure RunConfig where
  seed : UInt64 := 42
  numNodes : Nat := 3
  totalOps : Nat := 200
  faultRate : Rat := 1 / 20
  injectCommitBug : Bool := false
  injectVoteBug : Bool := false
  netCfg : NetConfig := {}
  workloadCfg : ClientConfig := {}
  faultCfg : FaultConfig := {}
  range : Prng.Range := Prng.bounded 64

namespace RunConfig

variable (cfg : RunConfig)

/-- `all_ids`. -/
def ids : List NodeId := (List.range cfg.numNodes).map (· + 1)

def members : Membership := .ofList cfg.ids

def raft (_ : NodeId) : RaftConfig :=
  { bugCommitPriorTerm := cfg.injectCommitBug, bugSkipVoteUptodate := cfg.injectVoteBug }

/-- `wcfg`. -/
def workload : WorkloadConfig := { cfg.workloadCfg.toWorkloadConfig with totalOps := cfg.totalOps }

/-- `fcfg`. -/
def fault : FaultConfig := { cfg.faultCfg with faultRate := cfg.faultRate }

end RunConfig

/-! ## The world -/

variable {M : Medium}

/-- What is registered with the network: `on_message` of a node, or `on_reply` of a client. -/
inductive Handler where
  | node (n : NodeId)
  | client (ci : Nat)
deriving DecidableEq, Repr

/-- The closures that are scheduled. -/
inductive Action (M : Medium) where
  /-- The lambda of `send_copy`, with what it has captured. -/
  | deliver (fn : Handler) (src dst : NodeId) (m : Msg M.Blob)
  | electionTimer (n : NodeId) (gen : Nat)
  | heartbeatTimer (n : NodeId)
  | readTimer (n : NodeId) (round : Nat)
  | issueOp (ci : Nat)
  | opTimeout (ci : Nat)
  | tick
  | heal
  | restart (n : NodeId)
  /-- The end of a spike: the probability gets its old value. -/
  | restore (k : FaultInjector.Prob) (old : Rat)

/-- The members of type `EventId`. -/
inductive Slot where
  | election (n : NodeId)
  | heartbeat (n : NodeId)
  | read (n : NodeId) (round : Nat)
  | timeout (ci : Nat)
  | tick
deriving DecidableEq, Repr

structure World (M : Medium) where
  net : Network Handler
  node : NodeId → Node M
  ids : Slot → Nat
  workload : Workload
  /-- `running_` of the fault injector. -/
  injecting : Bool
  steps : Nat
  /-- The first exception that left a closure. -/
  raised : Option String

abbrev Prog (M : Medium) := Script (Action M) (World M)

abbrev Sim (M : Medium) := Simulator (Action M) (World M)

/-- All objects constructed. -/
def World.init (M : Medium) (cfg : RunConfig) : World M where
  net := .init cfg.netCfg.toNetworkConfig
  node n := Node.init M n (cfg.members.peers n) (cfg.raft n)
  ids _ := 0
  workload := .init cfg.workload cfg.ids
  injecting := false
  steps := 0
  raised := none

namespace World

/-- `set_drop_prob` and `set_dup_prob`. -/
def setProb (k : FaultInjector.Prob) (p : Rat) (w : World M) : World M :=
  { w with net := { w.net with probs := w.net.probs.set k p } }

/-- Node `n` has come to the state `s`, maybe by an exception. -/
def settle (n : NodeId) (s : Node M) (exception : Option String) (w : World M) : World M :=
  { w with
    node := Function.update w.node n { s with out := [], applying := none }
    steps := w.steps + 1
    raised := w.raised.or exception }

/-- Node `n` is started for the first time. -/
def start (n : NodeId) (w : World M) : World M :=
  { w with
    net := w.net.setHandler n (.node n)
    node := Function.update w.node n { (w.node n).start.state with out := [] }
    raised := w.raised.or (w.node n).start.exception }

end World

/-! ## Draws -/

def flip (p : Rat) (next : Bool → Prog M) : Prog M :=
  .draw (fun g => ((g.bernoulli p).1.toNat, (g.bernoulli p).2)) fun b => next (b == 1)

def unit (next : Rat → Prog M) : Prog M :=
  .draw Prng.unitBits fun n => next ((n : Rat) / 2 ^ 53)

/-- The loop of `shuffle`, from position `k` on. -/
def shuffle (range : Prng.Range) : Nat → List NodeId → (List NodeId → Prog M) → Prog M
  | 0, v, next => next v
  | k + 1, v, next =>
    .draw (range 0 (k + 2)) fun j => shuffle range k (Shuffle.swap j (k + 1) v) next

variable (cfg : RunConfig)

/-! ## `Network::send` -/

def sendCopy (src dst : NodeId) (m : Msg M.Blob) : Prog M :=
  .read fun w =>
    match w.net.handlers.find? dst with
    | none => .done
    | some fn => .draw (cfg.range cfg.netCfg.minLatency (cfg.netCfg.maxLatency + 1)) fun lat =>
      .schedule lat (.deliver fn src dst m) fun _ => .done

def send (src dst : NodeId) (m : Msg M.Blob) : Prog M :=
  .read fun w =>
    if w.net.cutOff src dst then .done
    else flip w.net.probs.dropProb fun lost =>
      if lost then .done
      else (sendCopy cfg src dst m).andThen <|
        flip w.net.probs.dupProb fun twice => if twice then sendCopy cfg src dst m else .done

/-! ## Nodes -/

/-- An event that the object remembers. -/
def arm (delay : Nat) (a : Action M) (x : Slot) : Prog M :=
  .schedule delay a fun id => .read fun w =>
    .write { w with ids := Function.update w.ids x id } .done

def disarm (x : Slot) : Prog M := .read fun w => .cancel (w.ids x) .done

def timer (n : NodeId) : TimerOp → Prog M
  | .scheduleElection gen =>
    .draw (cfg.range electionTimeoutLo (2 * electionTimeoutLo + 1)) fun delay =>
      arm delay (.electionTimer n gen) (.election n)
  | .cancelElection => disarm (.election n)
  | .scheduleHeartbeat => arm heartbeatInterval (.heartbeatTimer n) (.heartbeat n)
  | .cancelHeartbeat => disarm (.heartbeat n)
  | .scheduleRead round => arm readTimeout (.readTimer n round) (.read n round)
  | .cancelRead round => disarm (.read n round)

/-- What node `n` does to the outside world. -/
def effect (n : NodeId) : Effect M → Prog M
  | .send dst m => send cfg n dst m
  | .timer op => timer cfg n op
  | _ => .done

def perform (n : NodeId) (es : List (Effect M)) : Prog M := .inTurn (es.map (effect cfg n))

/-- Node `n` has come to the state `s`; what it did is carried out. -/
def settle (n : NodeId) (s : Node M) (exception : Option String) (w : World M) : Prog M :=
  .write (w.settle n s exception) (perform cfg n s.out)

/-- Node `n` handles `inp`. -/
def nodeStep (n : NodeId) (inp : Input M) : Prog M :=
  .read fun w =>
    settle cfg n ((w.node n).handle w.steps inp) ((w.node n).raised w.steps inp) w

def startNode (n : NodeId) : Prog M :=
  .read fun w => .write (w.start n) (perform cfg n (w.node n).start.state.out)

def crashNode (n : NodeId) : Prog M :=
  .read fun w => .write { w with net := w.net.removeHandler n } (nodeStep cfg n .crash)

/-- `restart`, which does not ask whether the node is running. -/
def restartNode (n : NodeId) : Prog M :=
  .read fun w =>
    settle cfg n (w.node n).restart.state (w.node n).restart.exception
      { w with net := w.net.setHandler n (.node n) }

/-! ## Clients -/

def randomKey (next : Str → Prog M) : Prog M :=
  .draw (cfg.range 0 cfg.workloadCfg.numKeys) fun k => next (Str.lit ("k" ++ toString k))

def randomValue (next : Str → Prog M) : Prog M :=
  .draw (cfg.range 0 100) fun v => next (Str.lit ("v" ++ toString v))

def randomOpKind (next : OpKind → Prog M) : Prog M :=
  unit fun r =>
    if r < cfg.workloadCfg.putProb then next .put
    else if r < cfg.workloadCfg.putProb + cfg.workloadCfg.getProb then next .get
    else next .cas

/-- `issue_op` once the operation is drawn. -/
def sendOp (ci : Nat) (kind : OpKind) (key value expected : Str) : Prog M :=
  .now fun t => .read fun w =>
    match w.workload.issueOp t ci kind key value expected with
    | (wl, some (dst, cr)) =>
      .write { w with workload := wl, steps := w.steps + 1 } <|
        (send cfg (kClientIdBase + ci) dst (.clientRequest cr)).andThen
          (arm kOpTimeout (.opTimeout ci) (.timeout ci))
    | (wl, none) => .write { w with workload := wl } .done

def issueOp (ci : Nat) : Prog M :=
  .read fun w =>
    if w.workload.opsIssued ≥ w.workload.cfg.totalOps then .done
    else if (w.workload.clients ci).waiting then .done
    else randomOpKind cfg fun kind => randomKey cfg fun key =>
      match kind with
      | .put => randomValue cfg fun value => sendOp cfg ci .put key value (Str.lit "")
      | .get => sendOp cfg ci .get key (Str.lit "") (Str.lit "")
      | .cas => randomValue cfg fun expected => randomValue cfg fun value =>
        sendOp cfg ci .cas key value expected

def onReply (ci : Nat) (m : Msg M.Blob) : Prog M :=
  .read fun w =>
    let cs := w.workload.clients ci
    if !cs.waiting then .done
    else match m with
      | .clientReply reply =>
        if reply.requestId ≠ pred64 cs.nextRequestId then .done
        else (disarm (.timeout ci)).andThen <| .now fun t =>
          .write { w with workload := w.workload.acceptReply t ci reply } <|
            .schedule cfg.workloadCfg.thinkTime (.issueOp ci) fun _ => .done
      | _ => .done

def onTimeout (ci : Nat) : Prog M :=
  .read fun w =>
    if !(w.workload.clients ci).waiting then .done
    else .now fun t => .write { w with workload := w.workload.onTimeout t ci } <|
      .schedule cfg.workloadCfg.thinkTime (.issueOp ci) fun _ => .done

/-- What `start` of the workload does for client `ci`. -/
def startClient (ci : Nat) : Prog M :=
  .read fun w =>
    .write { w with net := w.net.setHandler (kClientIdBase + ci) (.client ci) } <|
      .schedule (cfg.workloadCfg.thinkTime * ci) (.issueOp ci) fun _ => .done

def startWorkload : Prog M :=
  .inTurn ((List.range cfg.workload.numClients).map (startClient cfg))

/-! ## Faults -/

def injectPartition : Prog M :=
  if cfg.ids.length < 2 then .done
  else shuffle cfg.range (cfg.ids.length - 1) cfg.ids fun ids =>
    .draw (cfg.range 1 ids.length) fun split => .read fun w =>
      .write { w with net := w.net.partition [ids.take split, ids.drop split] } <|
        .draw (cfg.range (cfg.fault.partitionDuration / 2) (cfg.fault.partitionDuration * 2))
          fun dur => .schedule dur .heal fun _ => .done

def injectCrashRestart : Prog M :=
  if cfg.ids.isEmpty then .done
  else .draw (cfg.range 0 cfg.ids.length) fun idx => .read fun w =>
    match cfg.ids[idx]? with
    | none => .done
    | some n =>
      if !(w.node n).running then .done
      else (crashNode cfg n).andThen <|
        .draw (cfg.range cfg.fault.crashMinDown cfg.fault.crashMaxDown) fun down =>
          .schedule down (.restart n) fun _ => .done

/-- Raise a probability, up to a limit, and have the old value restored. -/
def injectSpike (k : FaultInjector.Prob) (raise limit : Rat) : Prog M :=
  .read fun w =>
    let old := w.net.probs.get k
    .write (w.setProb k (min (old + raise) limit)) <|
      .draw (cfg.range (100 * kMsec) (400 * kMsec)) fun dur =>
        .schedule dur (.restore k old) fun _ => .done

def injectDropSpike : Prog M := injectSpike cfg .drop (3 / 10) (6 / 10)

def injectDupSpike : Prog M := injectSpike cfg .dup (2 / 10) (4 / 10)

def injectFault (r : Rat) : Prog M :=
  if r < cfg.fault.partitionProb then injectPartition cfg
  else if r < cfg.fault.partitionProb + cfg.fault.dropRaiseProb then
    injectDropSpike cfg
  else if r < cfg.fault.partitionProb + cfg.fault.dropRaiseProb + cfg.fault.dupRaiseProb then
    injectDupSpike cfg
  else injectCrashRestart cfg

def tick : Prog M :=
  .read fun w =>
    if !w.injecting then .done
    else (flip cfg.fault.faultRate fun hit => if hit then unit (injectFault cfg) else .done).andThen
      (arm cfg.fault.checkInterval .tick .tick)

def startFaults : Prog M :=
  .read fun w => .write { w with injecting := true } (arm cfg.fault.checkInterval .tick .tick)

def stopFaults : Prog M :=
  .read fun w => .write { w with injecting := false } (disarm .tick)

/-! ## The run -/

/-- What the closures do. -/
def act : Action M → Prog M
  | .deliver (.node n) src _ m => nodeStep cfg n (.message src m)
  | .deliver (.client ci) _ _ m => onReply cfg ci m
  | .electionTimer n gen => nodeStep cfg n (.electionTimer gen)
  | .heartbeatTimer n => nodeStep cfg n .heartbeatTimer
  | .readTimer n round => nodeStep cfg n (.readTimer round)
  | .issueOp ci => issueOp cfg ci
  | .opTimeout ci => onTimeout cfg ci
  | .tick => tick cfg
  | .heal => .read fun w => .write { w with net := w.net.heal } .done
  | .restart n => restartNode cfg n
  | .restore k old => .read fun w => .write (w.setProb k old) .done

/-- The nodes are built and started. -/
def boot (M : Medium) (cfg : RunConfig) : Sim M :=
  (Simulator.init cfg.seed (World.init M cfg)).exec (.inTurn (cfg.ids.map (startNode cfg)))

def done (w : Workload) : Bool := w.opsIssued ≥ w.cfg.totalOps && w.pending == 0

/-- The loop of `run_once`: slices of 100 ms until the clients are done or the time is up. -/
def runSlices (fuel deadline : Nat) : Nat → Sim M → Option (Sim M)
  | 0, _ => none
  | rounds + 1, s =>
    if !done s.world.workload && decide (s.clock < deadline) then
      (s.runFor (act cfg) (100 * kMsec) fuel).bind (runSlices fuel deadline rounds)
    else some s

/-- The run, or the exception that ended it. -/
def outcome (s : Sim M) : Except String (Sim M) :=
  match s.world.raised with
  | some e => .error e
  | none => .ok s

/-- `run_once`; `none` if `fuel` is not enough for its loops. -/
def runOnce (M : Medium) (cfg : RunConfig) (fuel : Nat) : Option (Except String (Sim M)) := do
  let s ← (boot M cfg).runFor (act cfg) kSec fuel
  let s := s.exec ((startWorkload cfg).andThen (startFaults cfg))
  let s ← runSlices cfg fuel (s.clock + kMaxRunTime) fuel s
  return outcome (s.exec stopFaults)

end SimKV.Runner
