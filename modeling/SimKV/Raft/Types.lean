/-
# `raft/types.hpp`: commands, results, log entries, roles

`Term`, `Index` (1-based; 0 is the "empty" sentinel) and `NodeId` are machine words
in the source and natural numbers here; the only subtraction that can go below
zero, `next_index_[from] - 1` in `handle_append_entries_reply`, is wrapped where it
occurs (`SimKV.Raft.Node`).

A `std::string` is a byte string compared byte by byte as unsigned characters,
which is the order `std::map` iterates in; `Str` carries exactly that.
-/
import Mathlib.Data.List.Lex
import Mathlib.Order.Lex
import Mathlib.Data.UInt
import SimKV.Lib.OrdMap

namespace SimKV

abbrev NodeId := Nat

/-- `std::string`. -/
@[ext] structure Str where
  bytes : List UInt8
deriving DecidableEq, Repr

namespace Str

/-- The order of `std::string`. -/
instance : LinearOrder Str :=
  LinearOrder.lift' (fun s : Str => s.bytes.map UInt8.toNat) (by
    intro a b h
    ext1
    exact List.map_injective_iff.mpr (fun _ _ => UInt8.toNat_inj.mp) h)

/-- A string constant of the source; all of them are ASCII. -/
def lit (s : String) : Str := ⟨s.toList.map fun c => UInt8.ofNat c.toNat⟩

instance : Inhabited Str := ⟨⟨[]⟩⟩

end Str

/-- The state-machine command stored in each log entry. -/
inductive Command where
  | put (key value : Str)
  | delete (key : Str)
  | cas (key expected value : Str)
  | get (key : Str)
  | addServer (id : NodeId)
  | removeServer (id : NodeId)
deriving DecidableEq, Repr

/-- Membership changes are the commands `apply_membership_change` acts on. -/
def Command.isConfig : Command → Bool
  | .addServer _ | .removeServer _ => true
  | _ => false

/-- Result of applying a command to the `KvStore`. -/
structure CmdResult where
  ok : Bool
  value : Str
  error : Str
deriving DecidableEq, Repr

inductive Role where
  | follower
  | candidate
  | leader
deriving DecidableEq, Repr

structure LogEntry where
  term : Nat
  index : Nat
  cmd : Command
deriving DecidableEq, Repr

end SimKV
