/-
# `storage/codec.hpp` and the command format of `storage/wal.cpp`

The encoder appends to a buffer, so here every `Encoder` function is the bytes it
appends and an encoding is a concatenation; the decoder is a reader that takes
bytes off the front and fails with the source's text when too few are left.
Integers are little-endian; `static_cast<uint32_t>` is the truncation built into
`ByteCodec.le 4`.
-/
import SimKV.Lib.ByteCodec
import SimKV.Raft.Types

namespace SimKV

open ByteCodec

namespace Encoder

def u8 (v : Nat) : List UInt8 := le 1 v

def u32 (v : Nat) : List UInt8 := le 4 v

def u64 (v : Nat) : List UInt8 := le 8 v

def boolean (v : Bool) : List UInt8 := u8 (if v then 1 else 0)

def str (s : Str) : List UInt8 := u32 s.bytes.length ++ s.bytes

/-- A length and then the bytes, one `u8` at a time. -/
def blob (bs : List UInt8) : List UInt8 := u32 bs.length ++ bs

end Encoder

namespace Decoder

/-- The next `n` bytes; `check(n)` throws if they are not there. -/
def slice (n : Nat) : Reader String (List UInt8) := takeBytes "Decoder: buffer underrun" n

def u8 : Reader String Nat := do
  let bs ← slice 1
  pure (leVal bs)

def u32 : Reader String Nat := do
  let bs ← slice 4
  pure (leVal bs)

def u64 : Reader String Nat := do
  let bs ← slice 8
  pure (leVal bs)

def boolean : Reader String Bool := do
  let v ← u8
  pure (v != 0)

def str : Reader String Str := do
  let len ← u32
  let bs ← slice len
  pure ⟨bs⟩

/-- A length and then the bytes. -/
def blob : Reader String (List UInt8) := do
  let len ← u32
  slice len

/-- Run a reader on a whole buffer and forget what it leaves. -/
def run {α : Type} (d : Reader String α) (bs : List UInt8) : Except String α :=
  match d bs with
  | .ok (a, _) => .ok a
  | .error e => .error e

end Decoder

namespace Wal

/-- `encode_command`; the first byte is the `CmdTag`. -/
def encodeCommand : Command → List UInt8
  | .put key value => Encoder.u8 1 ++ (Encoder.str key ++ Encoder.str value)
  | .delete key => Encoder.u8 2 ++ Encoder.str key
  | .cas key expected value =>
    Encoder.u8 3 ++ (Encoder.str key ++ (Encoder.str expected ++ Encoder.str value))
  | .get key => Encoder.u8 4 ++ Encoder.str key
  | .addServer id => Encoder.u8 5 ++ Encoder.u32 id
  | .removeServer id => Encoder.u8 6 ++ Encoder.u32 id

/-- The switch of `decode_command` on the tag. -/
def commandBody : Nat → Reader String Command
  | 1 => do
      let key ← Decoder.str
      let value ← Decoder.str
      pure (.put key value)
  | 2 => do
      let key ← Decoder.str
      pure (.delete key)
  | 3 => do
      let key ← Decoder.str
      let expected ← Decoder.str
      let value ← Decoder.str
      pure (.cas key expected value)
  | 4 => do
      let key ← Decoder.str
      pure (.get key)
  | 5 => do
      let id ← Decoder.u32
      pure (.addServer id)
  | 6 => do
      let id ← Decoder.u32
      pure (.removeServer id)
  | _ => throw "WAL: unknown command tag"

def commandReader : Reader String Command := do
  let tag ← Decoder.u8
  commandBody tag

/-- `decode_command`. -/
def decodeCommand (data : List UInt8) : Except String Command := Decoder.run commandReader data

end Wal

/-! ## Round trips -/

namespace Encoder

theorem u8_reads {v : Nat} (h : v < 2 ^ 8) : Reads Decoder.u8 (u8 v) v := by
  have h1 := Reads.takeBytes "Decoder: buffer underrun" (u8 v)
  have h2 := Reads.bind_pure (f := leVal) h1
  rwa [u8, leVal_le_of_lt (by simpa using h), length_le] at h2

theorem u32_reads {v : Nat} (h : v < 2 ^ 32) : Reads Decoder.u32 (u32 v) v := by
  have h1 := Reads.takeBytes "Decoder: buffer underrun" (u32 v)
  have h2 := Reads.bind_pure (f := leVal) h1
  rwa [u32, leVal_le_of_lt (by simpa using h), length_le] at h2

theorem u64_reads {v : Nat} (h : v < 2 ^ 64) : Reads Decoder.u64 (u64 v) v := by
  have h1 := Reads.takeBytes "Decoder: buffer underrun" (u64 v)
  have h2 := Reads.bind_pure (f := leVal) h1
  rwa [u64, leVal_le_of_lt (by simpa using h), length_le] at h2

theorem boolean_reads (v : Bool) : Reads Decoder.boolean (boolean v) v := by
  cases v
  · exact Reads.bind_pure (f := fun v => v != 0) (u8_reads (v := 0) (by decide))
  · exact Reads.bind_pure (f := fun v => v != 0) (u8_reads (v := 1) (by decide))

theorem blob_reads {bs : List UInt8} (h : bs.length < 2 ^ 32) :
    Reads Decoder.blob (blob bs) bs :=
  (u32_reads h).bind (Reads.takeBytes _ bs)

theorem str_reads {s : Str} (h : s.bytes.length < 2 ^ 32) : Reads Decoder.str (str s) s :=
  (u32_reads h).bind (Reads.bind_pure (f := Str.mk) (Reads.takeBytes _ s.bytes))

end Encoder

/-- The strings and ids of a command have the widths of the source's types. -/
def Command.Fits : Command → Prop
  | .put key value => key.bytes.length < 2 ^ 32 ∧ value.bytes.length < 2 ^ 32
  | .delete key => key.bytes.length < 2 ^ 32
  | .cas key expected value =>
    key.bytes.length < 2 ^ 32 ∧ expected.bytes.length < 2 ^ 32 ∧ value.bytes.length < 2 ^ 32
  | .get key => key.bytes.length < 2 ^ 32
  | .addServer id => id < 2 ^ 32
  | .removeServer id => id < 2 ^ 32

instance : DecidablePred Command.Fits := fun c =>
  match c with
  | .put _ _ | .delete _ | .cas _ _ _ | .get _ | .addServer _ | .removeServer _ => by
    unfold Command.Fits; infer_instance

theorem Wal.command_reads {c : Command} (h : c.Fits) :
    Reads Wal.commandReader (Wal.encodeCommand c) c := by
  cases c with
  | put key value =>
    exact (Encoder.u8_reads (v := 1) (by decide)).bind
      ((Encoder.str_reads h.1).bind (Encoder.str_reads h.2).bind_pure)
  | delete key => exact (Encoder.u8_reads (v := 2) (by decide)).bind (Encoder.str_reads h).bind_pure
  | cas key expected value =>
    exact (Encoder.u8_reads (v := 3) (by decide)).bind
      ((Encoder.str_reads h.1).bind
        ((Encoder.str_reads h.2.1).bind (Encoder.str_reads h.2.2).bind_pure))
  | get key => exact (Encoder.u8_reads (v := 4) (by decide)).bind (Encoder.str_reads h).bind_pure
  | addServer id =>
    exact (Encoder.u8_reads (v := 5) (by decide)).bind (Encoder.u32_reads h).bind_pure
  | removeServer id =>
    exact (Encoder.u8_reads (v := 6) (by decide)).bind (Encoder.u32_reads h).bind_pure

/-- **Commands survive their own format.** -/
theorem Wal.decodeCommand_encodeCommand {c : Command} (h : c.Fits) :
    Wal.decodeCommand (Wal.encodeCommand c) = .ok c := by
  rw [Wal.decodeCommand, Decoder.run, (Wal.command_reads h).run_eq]

end SimKV
