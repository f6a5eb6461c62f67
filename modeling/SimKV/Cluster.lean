/-
# A cluster of nodes and a network

The network keeps every packet ever sent.  Delivering a packet does not remove
it, so a packet may be delivered never, late, twice or out of order: loss, delay,
duplication and reordering need no events of their own.  A cluster run is a list
of events, and `exec` says what each of them does; crashes happen between steps.

`trace` records every effect with the number of the step and the node, and each
packet remembers which message its sender was handling (`re`).  No node reads
either; the statements about runs do.
-/
import SimKV.Raft.Node

namespace SimKV

/-- A message in the network. -/
structure Packet (M : Medium) where
  src : NodeId
  dst : NodeId
  msg : Msg M.Blob
  /-- The message that the sender was handling, if any. -/
  re : Option (Msg M.Blob)

/-- Who is in the cluster, and the `peers` argument each node is constructed with:
the other members, in any order. -/
structure Membership where
  members : Finset NodeId
  peers : NodeId → List NodeId
  mem_peers : ∀ n ∈ members, ∀ m, m ∈ peers n ↔ m ∈ members ∧ m ≠ n

/-- The cluster of the ids in a list. -/
def Membership.ofList (ids : List NodeId) : Membership where
  members := ids.toFinset
  peers n := ids.filter (· ≠ n)
  mem_peers := by intro n _ m; simp

/-- Every server that ever runs, and the `peers` argument each is constructed with.  The servers
of the first configuration know each other; one that is added later is constructed with the peers
it is to join. -/
structure Roster where
  members : Finset NodeId
  peers : NodeId → List NodeId
  nodup : ∀ n, (peers n).Nodup
  not_self : ∀ n, n ∉ peers n

/-- The servers of a list, each knowing the others. -/
def Roster.ofList (ids : List NodeId) : Roster where
  members := ids.toFinset
  peers n := ids.dedup.filter (· ≠ n)
  nodup n := (List.nodup_dedup ids).filter _
  not_self := by intro n; simp

structure Cluster (M : Medium) where
  members : Finset NodeId
  node : NodeId → Node M
  net : List (Packet M)
  trace : List (Nat × NodeId × Effect M)
  /-- The number of steps so far. -/
  now : Nat

inductive Event where
  /-- Packet number `k` arrives. -/
  | deliver (k : Nat)
  /-- A client sends a request over the network. -/
  | clientSend (src dst : NodeId) (cr : ClientRequest)
  | electionTimer (n : NodeId) (gen : Nat)
  | heartbeatTimer (n : NodeId)
  | readTimer (n : NodeId) (round : Nat)
  | submit (n : NodeId) (clientId requestId : Nat) (cmd : Command)
  | readIndex (n : NodeId) (key : Str)
  | crash (n : NodeId)
  | restart (n : NodeId)
deriving DecidableEq, Repr

/-- The message an input brings. -/
def Input.msg? {M : Medium} : Input M → Option (Msg M.Blob)
  | .message _ m => some m
  | _ => none

namespace Cluster

variable {M : Medium}

/-- All nodes constructed and started. -/
def init (M : Medium) (mem : Membership) (cfg : NodeId → RaftConfig) : Cluster M where
  members := mem.members
  node n := { (Node.init M n (mem.peers n) (cfg n)).start.state with out := [] }
  net := []
  trace := []
  now := 0

/-- All servers of a roster constructed and started. -/
def launch (M : Medium) (r : Roster) (cfg : NodeId → RaftConfig) : Cluster M where
  members := r.members
  node n := { (Node.init M n (r.peers n) (cfg n)).start.state with out := [] }
  net := []
  trace := []
  now := 0

/-- The node an event is for, and what it is to that node. -/
def input (C : Cluster M) : Event → Option (NodeId × Input M)
  | .deliver k => (C.net[k]?).map fun p => (p.dst, .message p.src p.msg)
  | .clientSend _ _ _ => none
  | .electionTimer n gen => some (n, .electionTimer gen)
  | .heartbeatTimer n => some (n, .heartbeatTimer)
  | .readTimer n round => some (n, .readTimer round)
  | .submit n clientId requestId cmd => some (n, .submit clientId requestId cmd)
  | .readIndex n key => some (n, .readIndex key)
  | .crash n => some (n, .crash)
  | .restart n => some (n, .restart)

/-- The packets among the effects of a step of node `n`. -/
def packets (n : NodeId) (re : Option (Msg M.Blob)) (out : List (Effect M)) : List (Packet M) :=
  out.filterMap fun
    | .send dst m => some ⟨n, dst, m, re⟩
    | _ => none

/-- The step is over: its effects go to the network and to the trace. -/
def settle (C : Cluster M) (n : NodeId) (re : Option (Msg M.Blob)) (s : Node M) : Cluster M :=
  { C with
    node := Function.update C.node n { s with out := [], applying := none }
    net := C.net ++ packets n re s.out
    trace := C.trace ++ s.out.map fun e => (C.now, n, e)
    now := C.now + 1 }

/-- Node `n` handles `inp`. -/
def step (C : Cluster M) (n : NodeId) (inp : Input M) : Cluster M :=
  C.settle n inp.msg? ((C.node n).handle C.now inp)

def exec (C : Cluster M) (e : Event) : Cluster M :=
  match C.input e with
  | some (n, inp) => if n ∈ C.members then C.step n inp else { C with now := C.now + 1 }
  | none =>
    match e with
    | .clientSend src dst cr =>
      { C with net := C.net ++ [⟨src, dst, .clientRequest cr, none⟩], now := C.now + 1 }
    | _ => { C with now := C.now + 1 }

/-- A run. -/
def run (C : Cluster M) (es : List Event) : Cluster M := es.foldl exec C

end Cluster

end SimKV
