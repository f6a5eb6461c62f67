/-
# `storage/durable_store.{hpp,cpp}`: a store with a flushed prefix

`DurableStore` keeps all bytes written and how many of them are flushed; a crash
drops the rest.  The three mutating calls of the interface are also available as
data (`StoreCall`), so that a sequence of calls can be cut at any point: that is
what a process that dies in the middle of an operation leaves behind.

The store is generic in what a cell is; the source's is `uint8_t`.
-/
import Mathlib.Data.List.Basic

namespace SimKV

structure DurableStore (β : Type) where
  data : List β
  flushedEnd : Nat
deriving DecidableEq, Repr

/-- The mutating calls of `IDurableStore`, `crash` apart. -/
inductive StoreCall (β : Type) where
  | append (bytes : List β)
  | flush
  | truncateTo (offset : Nat)
deriving DecidableEq, Repr

namespace DurableStore

variable {β : Type}

def empty : DurableStore β := ⟨[], 0⟩

instance : Inhabited (DurableStore β) := ⟨empty⟩

def append (bytes : List β) (s : DurableStore β) : DurableStore β :=
  { s with data := s.data ++ bytes }

def flush (s : DurableStore β) : DurableStore β :=
  { s with flushedEnd := s.data.length }

/-- Discard the unflushed tail. -/
def crash (s : DurableStore β) : DurableStore β :=
  { s with data := s.data.take s.flushedEnd }

def readDurable (s : DurableStore β) : List β := s.data.take s.flushedEnd

/-- Everything, the unflushed tail included. -/
def readAll (s : DurableStore β) : List β := s.data

def durableSize (s : DurableStore β) : Nat := s.flushedEnd

def totalSize (s : DurableStore β) : Nat := s.data.length

def truncateTo (offset : Nat) (s : DurableStore β) : DurableStore β :=
  let flushedEnd := if offset ≤ s.flushedEnd then offset else s.flushedEnd
  let data := if offset ≤ s.data.length then s.data.take offset else s.data
  ⟨data, flushedEnd⟩

def call (s : DurableStore β) : StoreCall β → DurableStore β
  | .append bytes => s.append bytes
  | .flush => s.flush
  | .truncateTo offset => s.truncateTo offset

/-- A sequence of calls. -/
def calls (s : DurableStore β) (cs : List (StoreCall β)) : DurableStore β := cs.foldl call s

/-- A store that holds exactly the flushed cells `bs`. -/
def holding (bs : List β) : DurableStore β := ⟨bs, bs.length⟩

@[simp] theorem truncateTo_zero (s : DurableStore β) : s.truncateTo 0 = empty := by
  simp [truncateTo, empty]

/-- A rewrite leaves exactly the new contents, flushed, whatever was there. -/
@[simp] theorem flush_append_empty (bs : List β) :
    ((empty : DurableStore β).append bs).flush = holding bs := by
  simp [append, flush, empty, holding]

@[simp] theorem readDurable_holding (bs : List β) : (holding bs).readDurable = bs := by
  simp [readDurable, holding]

@[simp] theorem durableSize_holding (bs : List β) : (holding bs).durableSize = bs.length := rfl

@[simp] theorem crash_holding (bs : List β) : (holding bs).crash = holding bs := by
  simp [crash, holding]

@[simp] theorem crash_empty : (empty : DurableStore β).crash = empty := rfl

end DurableStore

end SimKV
