/-
# `storage/kv_store.{hpp,cpp}`: the state machine

`KvStore::apply` updates `data_` in place and returns a result; here it is a
function from the store to the new store and the result.  `replay` is not in the
source: it is what the state machine is for, the store after a sequence of
commands from the empty one, and everything said about `kv_` later is said
through it.
-/
import SimKV.Raft.Types

namespace SimKV

/-- `std::map<std::string, std::string> data_`. -/
@[ext] structure KvStore where
  data : OrdMap Str Str
deriving DecidableEq

namespace KvStore

def empty : KvStore := ⟨OrdMap.empty⟩

instance : Inhabited KvStore := ⟨empty⟩

def get (s : KvStore) (key : Str) : Option Str := s.data.find? key

def apply (s : KvStore) : Command → KvStore × CmdResult
  | .put key value => (⟨s.data.insert key value⟩, ⟨true, Str.lit "", Str.lit ""⟩)
  | .delete key => (⟨s.data.erase key⟩, ⟨true, Str.lit "", Str.lit ""⟩)
  | .cas key expected value =>
    let current := (s.data.find? key).getD (Str.lit "")
    if current ≠ expected then (s, ⟨false, current, Str.lit "cas_mismatch"⟩)
    else (⟨s.data.insert key value⟩, ⟨true, value, Str.lit ""⟩)
  | .get key => (s, ⟨true, (s.data.find? key).getD (Str.lit ""), Str.lit ""⟩)
  | .addServer _ | .removeServer _ => (s, ⟨true, Str.lit "", Str.lit ""⟩)

/-- The store after `cmds`, in order, from `s`. -/
def replayFrom (s : KvStore) (cmds : List Command) : KvStore :=
  cmds.foldl (fun s c => (s.apply c).1) s

/-- The store after `cmds`, in order, from the empty store. -/
def replay (cmds : List Command) : KvStore := empty.replayFrom cmds

theorem replay_append (as bs : List Command) :
    replay (as ++ bs) = (replay as).replayFrom bs :=
  List.foldl_append

@[simp] theorem replay_concat (as : List Command) (c : Command) :
    replay (as ++ [c]) = ((replay as).apply c).1 := by
  rw [replay_append]; rfl

end KvStore

end SimKV
