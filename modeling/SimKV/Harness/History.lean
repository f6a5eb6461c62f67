/-
# `harness/history.{hpp,cpp}`: what the clients saw

An append-only list of the operations that simulated clients issued.  An
operation is recorded as pending when it is sent, and completed once, under the
handle `record_invoke` returned.  `SimTime` is a natural number.

`to_json` is in `SimKV.Harness.HistoryJson`.
-/
import SimKV.Raft.Types

namespace SimKV

inductive OpKind where
  | put
  | get
  | cas
deriving DecidableEq, Repr

structure HistoryEntry where
  clientId : Nat
  requestId : Nat
  kind : OpKind
  key : Str
  /-- Put and Cas: the new value. -/
  value : Str
  /-- Cas: the expected value. -/
  expected : Str
  /-- Logical time of request send. -/
  invoke : Nat
  /-- Logical time of response receipt; 0 if pending. -/
  ret : Nat
  /-- "ok", "cas_mismatch", the value read, "timeout", … -/
  response : Str
  ok : Bool
  pending : Bool
deriving DecidableEq, Repr

/-- The entry once its answer is known. -/
def HistoryEntry.answered (retTime : Nat) (ok : Bool) (response : Str) (e : HistoryEntry) :
    HistoryEntry :=
  { e with ret := retTime, ok := ok, response := response, pending := false }

structure History where
  entries : List HistoryEntry
deriving DecidableEq, Repr

namespace History

def empty : History := ⟨[]⟩

/-- The handle and the history with the new operation. -/
def recordInvoke (clientId requestId : Nat) (kind : OpKind) (key : Str) (invokeTime : Nat)
    (value expected : Str) (h : History) : Nat × History :=
  (h.entries.length, ⟨h.entries ++ [⟨clientId, requestId, kind, key, value, expected, invokeTime, 0,
    Str.lit "", false, true⟩]⟩)

def recordReturn (handle : Nat) (retTime : Nat) (ok : Bool) (response : Str) (h : History) :
    History :=
  ⟨h.entries.modify handle (HistoryEntry.answered retTime ok response)⟩

/-- The operations that were answered, one way or another. -/
def completed (h : History) : List HistoryEntry := h.entries.filter fun e => !e.pending

end History

end SimKV
