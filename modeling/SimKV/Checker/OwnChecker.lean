/-
# `checker/own_checker.{hpp,cpp}`: the Wing–Gong checker

`check_linearizable` splits a history by key and searches, for each key, for an
order of its operations that explains the answers.  Operations whose outcome the
client does not know are filtered out first, except Puts answered "node_crashed",
of which every subset is tried as long as there are at most fifteen.

`wg_check` marks the operations it has placed in a vector of flags and counts
them; here the count runs down instead of up (`left` is `ops.size() - n_done`), so
that the recursion is structural.
-/
import SimKV.Harness.History
import SimKV.Lib.OrdMap

namespace SimKV

/-- The state of one key: `none` is absent. -/
abbrev KvState := Option Str

structure KeyOp where
  kind : OpKind
  /-- Put and Cas: the new value. -/
  value : Str
  /-- Cas: the expected value. -/
  expected : Str
  invoke : Nat
  ret : Nat
  /-- The observed response. -/
  response : Str
  /-- The reported success flag. -/
  ok : Bool
  pending : Bool
deriving DecidableEq, Repr

structure CheckResult where
  ok : Bool
  /-- The first key that failed, if any. -/
  failingKey : Str
  reason : Str
deriving DecidableEq, Repr

/-! ## The model of one key -/

/-- The new state and the response the model expects. -/
def applyModel (state : KvState) (op : KeyOp) : KvState × Str :=
  match op.kind with
  | .put => (some op.value, Str.lit "ok")
  | .get => (state, state.getD (Str.lit ""))
  | .cas =>
    let current := state.getD (Str.lit "")
    if current = op.expected then (some op.value, Str.lit "ok")
    else (state, Str.lit "cas_mismatch")

/-- Whether the observed response is the one the model expects. -/
def responseMatches (op : KeyOp) (expectedResp : Str) : Bool :=
  match op.kind with
  | .get => op.response == expectedResp
  | .put => op.ok
  | .cas => op.ok == (expectedResp == Str.lit "ok")

/-! ## The search -/

/-- Operation `j` keeps operation `i` from being placed: it is not placed yet, and it returned
before `i` was invoked. -/
def blocks (ops : List KeyOp) (linearized : List Bool) (i j : Nat) : Bool :=
  match ops[i]?, ops[j]? with
  | some opI, some opJ =>
    !(j == i || linearized.getD j false || opJ.pending) &&
      (decide (opJ.ret > 0) && decide (opJ.ret < opI.invoke))
  | _, _ => false

/-- `wg_check` with `left` operations still to place. -/
def wgCheck (ops : List KeyOp) : Nat → List Bool → KvState → Bool
  | 0, _, _ => true
  | left + 1, linearized, state =>
    (List.range ops.length).any fun i =>
      match ops[i]? with
      | none => false
      | some op =>
        if linearized.getD i false then false
        else if op.pending then false
        else if (List.range ops.length).any (blocks ops linearized i) then false
        else
          let next := applyModel state op
          if !responseMatches op next.2 then false
          else wgCheck ops left (linearized.set i true) next.1

/-! ## One key -/

/-- Operations with a definite response. -/
def KeyOp.certain (op : KeyOp) : Bool :=
  !op.pending && !(op.response == Str.lit "timeout" || op.response == Str.lit "not_leader") &&
    !(op.response == Str.lit "node_crashed")

/-- Puts that a crash answered: they may or may not have been committed. -/
def KeyOp.uncertainPut (op : KeyOp) : Bool :=
  !op.pending && !(op.response == Str.lit "timeout" || op.response == Str.lit "not_leader") &&
    op.response == Str.lit "node_crashed" && op.kind == .put

/-- `KeyOp opt = uncertain_puts[i]; opt.ok = true`. -/
def KeyOp.committed (op : KeyOp) : KeyOp := { op with ok := true }

/-- The operations whose bit is set in `mask`, the first one having bit `i`. -/
def chosen (mask : Nat) : Nat → List KeyOp → List KeyOp
  | _, [] => []
  | i, op :: ops =>
    if mask.testBit i then op.committed :: chosen mask (i + 1) ops else chosen mask (i + 1) ops

def trySubset (combined : List KeyOp) : Bool :=
  if combined.isEmpty then true
  else wgCheck combined combined.length (List.replicate combined.length false) none

/-- How many uncertain Puts are enumerated in full. -/
def subsetCap : Nat := 15

def checkKeyLinearizable (ops : List KeyOp) : Bool :=
  let certain := ops.filter KeyOp.certain
  let uncertainPuts := ops.filter KeyOp.uncertainPut
  if certain.isEmpty && uncertainPuts.isEmpty then true
  else if uncertainPuts.length ≤ subsetCap then
    (List.range (2 ^ uncertainPuts.length)).any fun mask =>
      trySubset (certain ++ chosen mask 0 uncertainPuts)
  else
    trySubset certain ||
      trySubset (certain ++ uncertainPuts.map KeyOp.committed) ||
      (uncertainPuts.take subsetCap).any fun op => trySubset (certain ++ [op.committed])

/-! ## The whole history -/

/-- The entry as the checker of its key sees it. -/
def HistoryEntry.keyOp (e : HistoryEntry) : KeyOp :=
  ⟨e.kind, e.value, e.expected, e.invoke, e.ret, e.response, e.ok, e.pending⟩

/-- The answered operations of each key, in the order of the history. -/
def perKey (h : History) : OrdMap Str (List KeyOp) :=
  h.entries.foldl (fun m e =>
    if e.pending then m else m.insert e.key (m.getD e.key [] ++ [e.keyOp])) OrdMap.empty

def checkLinearizable (h : History) : CheckResult :=
  match (perKey h).toList.find? fun p => !checkKeyLinearizable p.2 with
  | some (key, _) =>
    ⟨false, key, ⟨(Str.lit "non-linearizable history for key ").bytes ++ key.bytes⟩⟩
  | none => ⟨true, Str.lit "", Str.lit ""⟩

end SimKV
