/-
# `harness/workload.{hpp,cpp}`: simulated clients

Closed-loop clients, one outstanding operation each.  What an operation is (kind,
key, values) the source draws from the simulator's generator; here it is part of
the event, so every outcome of the draws is covered.  The operation timer of a
client is armed exactly while the client waits, so a timeout is an event that may
come at any time and is ignored unless the client waits, which is the test
`on_timeout` makes.

`Harness` runs the clients against a cluster: what they send goes into its network,
and a reply is any packet of the network that is addressed to the client,
delivered late, twice or never.
-/
import SimKV.Cluster
import SimKV.Harness.History

namespace SimKV

/-- Clients have ids of their own, apart from the nodes'. -/
def kClientIdBase : NodeId := 100

structure WorkloadConfig where
  numClients : Nat := 4
  totalOps : Nat := 200
deriving DecidableEq, Repr

structure ClientState where
  /-- Which node to send to. -/
  believedLeader : NodeId
  nextRequestId : Nat := 0
  /-- Currently waiting for a reply. -/
  waiting : Bool := false
  historyHandle : Nat := 0
  sentAt : Nat := 0
deriving DecidableEq, Repr

structure Workload where
  cfg : WorkloadConfig
  /-- The ids of the nodes. -/
  nodes : List NodeId
  clients : Nat → ClientState
  history : History
  opsIssued : Nat
  opsCompleted : Nat
  pending : Nat

namespace Workload

def init (cfg : WorkloadConfig) (nodes : List NodeId) : Workload where
  cfg := cfg
  nodes := nodes
  clients _ := { believedLeader := nodes.headD 0 }
  history := .empty
  opsIssued := 0
  opsCompleted := 0
  pending := 0

/-- The first node that is not the one believed to lead. -/
def rotate (w : Workload) (believed : NodeId) : NodeId :=
  (w.nodes.find? fun n => n != believed).getD believed

/-- What is drawn for an operation: the values it records and the command it sends. -/
def drawn (kind : OpKind) (key value expected : Str) : Str × Str × Command :=
  match kind with
  | .put => (value, Str.lit "", .put key value)
  | .get => (Str.lit "", Str.lit "", .get key)
  | .cas => (value, expected, .cas key expected value)

/-- The operation is recorded, and client `ci` waits for its answer. -/
def register (now ci : Nat) (kind : OpKind) (key val exp : Str) (w : Workload) : Workload :=
  let cs := w.clients ci
  let recorded := w.history.recordInvoke (kClientIdBase + ci) cs.nextRequestId kind key now val exp
  { w with
    opsIssued := w.opsIssued + 1
    pending := w.pending + 1
    history := recorded.2
    clients := Function.update w.clients ci { cs with
      waiting := true, nextRequestId := cs.nextRequestId + 1, historyHandle := recorded.1
      sentAt := now } }

/-- `issue_op`, and the request it sends. -/
def issueOp (now ci : Nat) (kind : OpKind) (key value expected : Str) (w : Workload) :
    Workload × Option (NodeId × ClientRequest) :=
  if w.opsIssued ≥ w.cfg.totalOps then (w, none)
  else if (w.clients ci).waiting then (w, none)
  else
    let (val, exp, cmd) := drawn kind key value expected
    (w.register now ci kind key val exp, some ((w.clients ci).believedLeader,
      ⟨kClientIdBase + ci, (w.clients ci).nextRequestId, cmd⟩))

/-- The response that `on_reply` records for a successful reply. -/
def responseOf (kind : OpKind) (r : CmdResult) : Str :=
  match kind with
  | .get => r.value
  | .put => if r.ok then Str.lit "ok" else r.error
  | .cas => if r.ok then Str.lit "ok" else Str.lit "cas_mismatch"

/-- The outstanding operation of client `ci` is over. -/
def complete (now ci : Nat) (ok : Bool) (response : Str) (leader : NodeId) (w : Workload) :
    Workload :=
  let cs := w.clients ci
  { w with
    pending := pred64 w.pending
    opsCompleted := w.opsCompleted + 1
    history := w.history.recordReturn cs.historyHandle now ok response
    clients := Function.update w.clients ci
      { cs with waiting := false, believedLeader := leader } }

/-- `on_reply` once the reply is known to be the one awaited. -/
def acceptReply (now ci : Nat) (reply : ClientReply) (w : Workload) : Workload :=
  let cs := w.clients ci
  if !reply.success then
    let leader := if reply.leaderHint ≠ 0 then reply.leaderHint else w.rotate cs.believedLeader
    w.complete now ci false (Str.lit "not_leader") leader
  else
    let leader := if reply.leaderHint ≠ 0 then reply.leaderHint else cs.believedLeader
    match w.history.entries[cs.historyHandle]? with
    | none => w
    | some e => w.complete now ci reply.result.ok (responseOf e.kind reply.result) leader

def onReply {B : Type} (now ci : Nat) (m : Msg B) (w : Workload) : Workload :=
  let cs := w.clients ci
  if !cs.waiting then w
  else match m with
    | .clientReply reply =>
      -- a reply to an earlier request is stale
      if reply.requestId ≠ pred64 cs.nextRequestId then w else w.acceptReply now ci reply
    | _ => w

def onTimeout (now ci : Nat) (w : Workload) : Workload :=
  let cs := w.clients ci
  if !cs.waiting then w
  else w.complete now ci false (Str.lit "timeout") (w.rotate cs.believedLeader)

end Workload

/-! ## The clients and the cluster -/

structure Harness (M : Medium) where
  cluster : Cluster M
  workload : Workload
  now : Nat

inductive HarnessEvent where
  | cluster (e : Event)
  | issue (ci : Nat) (kind : OpKind) (key value expected : Str)
  /-- Packet number `k` arrives at client `ci`. -/
  | reply (ci k : Nat)
  | timeout (ci : Nat)
  /-- Time passes. -/
  | tick (d : Nat)
deriving DecidableEq, Repr

namespace Harness

variable {M : Medium}

def init (M : Medium) (mem : Membership) (cfg : NodeId → RaftConfig) (wcfg : WorkloadConfig)
    (nodes : List NodeId) : Harness M where
  cluster := .init M mem cfg
  workload := .init wcfg nodes
  now := 0

/-- The packet with number `k`, if it is addressed to client `ci`. -/
def replyTo (H : Harness M) (ci k : Nat) : Option (Packet M) :=
  (H.cluster.net[k]?).filter fun p => p.dst = kClientIdBase + ci

def exec (H : Harness M) : HarnessEvent → Harness M
  | .cluster e => { H with cluster := H.cluster.exec e }
  | .issue ci kind key value expected =>
    if ci < H.workload.cfg.numClients then
      match H.workload.issueOp H.now ci kind key value expected with
      | (w, some (dst, cr)) =>
        { H with
          workload := w
          cluster := H.cluster.exec (.clientSend (kClientIdBase + ci) dst cr) }
      | (w, none) => { H with workload := w }
    else H
  | .reply ci k =>
    match H.replyTo ci k with
    | some p =>
      if ci < H.workload.cfg.numClients then
        { H with workload := H.workload.onReply H.now ci p.msg }
      else H
    | none => H
  | .timeout ci =>
    if ci < H.workload.cfg.numClients then
      { H with workload := H.workload.onTimeout H.now ci }
    else H
  | .tick d => { H with now := H.now + d }

def run (H : Harness M) (es : List HarnessEvent) : Harness M := es.foldl exec H

end Harness

end SimKV
