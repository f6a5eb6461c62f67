/-
# What the durable stores are made of

`persist`, `save_snapshot`, `start` and the snapshot paths of a node move its
state through three serial formats: the meta record (term and vote), the log, and
the snapshot with the key-value map inside it.  The node (`SimKV.Raft.Node`) is
written once, over any `Medium` that supplies these formats.  `Medium.bytes` is the
source's: cells are bytes, and every function below is the encoder or decoder code
of `node.cpp` and `log.cpp`.

The protocol-level results are stated over any medium.  What they need of one is that
the records a run writes read back as they were written (`GoodMeta` and the others);
for `Medium.bytes` this is proved in `SimKV.Raft.Formats`, under the width limits of
the formats.
-/
import SimKV.Raft.Log
import SimKV.Storage.Codec
import SimKV.Storage.KvStore

namespace SimKV

open ByteCodec

/-- The contents of `meta_store_`. -/
@[ext] structure Meta where
  currentTerm : Nat
  votedFor : Option NodeId
deriving DecidableEq, Repr

/-- The contents of `snapshot_store_`: `snap_last_index_`, `snap_last_term_`, `snap_data_`. -/
@[ext] structure Snapshot (B : Type) where
  lastIndex : Nat
  lastTerm : Nat
  data : B
deriving DecidableEq, Repr

/-- The serial formats a node uses. -/
structure Medium where
  Cell : Type
  Blob : Type
  /-- A default-constructed `snap_data_`. -/
  noBlob : Blob
  /-- `snap_data_.empty()`. -/
  blobEmpty : Blob → Bool
  blobEmpty_noBlob : blobEmpty noBlob = true
  encodeKv : KvStore → Blob
  decodeKv : Blob → Except String KvStore
  encodeMeta : Meta → List Cell
  decodeMeta : List Cell → Except String Meta
  encodeLog : RaftLog → List Cell
  decodeLog : List Cell → Except String RaftLog
  encodeSnap : Snapshot Blob → List Cell
  decodeSnap : List Cell → Except String (Snapshot Blob)

namespace Medium

/-! ## Bytes -/

/-- `take_snapshot`: the number of keys, then each key and value in map order. -/
def kvBytes (kv : KvStore) : List UInt8 :=
  Encoder.u32 kv.data.size ++ kv.data.toList.flatMap fun p => Encoder.str p.1 ++ Encoder.str p.2

/-- The loop that reads `count` keys and values back into `kv_map`. -/
def kvReader : Reader String KvStore := do
  let count ← Decoder.u32
  let ps ← readMany (do
    let k ← Decoder.str
    let v ← Decoder.str
    pure (k, v)) count
  pure ⟨OrdMap.ofList ps⟩

/-- `persist`: the meta record. -/
def metaBytes (m : Meta) : List UInt8 :=
  Encoder.u64 m.currentTerm ++ (Encoder.boolean m.votedFor.isSome ++
    match m.votedFor with
    | some v => Encoder.u32 v
    | none => [])

/-- `start`: the meta record. -/
def metaReader : Reader String Meta := do
  let currentTerm ← Decoder.u64
  let hasVoted ← Decoder.boolean
  if hasVoted then do
    let v ← Decoder.u32
    pure ⟨currentTerm, some v⟩
  else pure ⟨currentTerm, none⟩

/-- One entry in the log file. -/
def entryBytes (e : LogEntry) : List UInt8 :=
  Encoder.u64 e.term ++ (Encoder.u64 e.index ++ Encoder.blob (Wal.encodeCommand e.cmd))

def entryReader : Reader String LogEntry := do
  let term ← Decoder.u64
  let index ← Decoder.u64
  let cmdBuf ← Decoder.blob
  match Wal.decodeCommand cmdBuf with
  | .ok cmd => pure ⟨term, index, cmd⟩
  | .error e => throw e

/-- `RaftLog::save_to`. -/
def logBytes (l : RaftLog) : List UInt8 :=
  Encoder.u64 l.baseIndex ++ (Encoder.u64 l.baseTerm ++
    (Encoder.u32 l.entries.length ++ l.entries.flatMap entryBytes))

/-- `RaftLog::load_from`. -/
def logReader : Reader String RaftLog := do
  let baseIndex ← Decoder.u64
  let baseTerm ← Decoder.u64
  let count ← Decoder.u32
  let entries ← readMany entryReader count
  pure ⟨entries, baseIndex, baseTerm⟩

/-- `save_snapshot`. -/
def snapBytes (s : Snapshot (List UInt8)) : List UInt8 :=
  Encoder.u64 s.lastIndex ++ (Encoder.u64 s.lastTerm ++ Encoder.blob s.data)

/-- `load_snapshot`, up to the key-value map. -/
def snapReader : Reader String (Snapshot (List UInt8)) := do
  let lastIndex ← Decoder.u64
  let lastTerm ← Decoder.u64
  let data ← Decoder.blob
  pure ⟨lastIndex, lastTerm, data⟩

def bytes : Medium where
  Cell := UInt8
  Blob := List UInt8
  noBlob := []
  blobEmpty := List.isEmpty
  blobEmpty_noBlob := rfl
  encodeKv := kvBytes
  decodeKv := Decoder.run kvReader
  encodeMeta := metaBytes
  decodeMeta := Decoder.run metaReader
  encodeLog := logBytes
  decodeLog := Decoder.run logReader
  encodeSnap := snapBytes
  decodeSnap := Decoder.run snapReader

instance : DecidableEq bytes.Cell := inferInstanceAs (DecidableEq UInt8)

instance : DecidableEq bytes.Blob := inferInstanceAs (DecidableEq (List UInt8))

/-! ## What recovery needs of a medium -/

section Recovery

variable (M : Medium)

/-- The meta record reads back as it was written, and is not empty. -/
def GoodMeta (m : Meta) : Prop :=
  M.encodeMeta m ≠ [] ∧ M.decodeMeta (M.encodeMeta m) = .ok m

def GoodLog (l : RaftLog) : Prop :=
  M.encodeLog l ≠ [] ∧ M.decodeLog (M.encodeLog l) = .ok l

def GoodSnap (s : Snapshot M.Blob) : Prop :=
  M.encodeSnap s ≠ [] ∧ M.decodeSnap (M.encodeSnap s) = .ok s

def GoodKv (kv : KvStore) : Prop :=
  M.blobEmpty (M.encodeKv kv) = false ∧ M.decodeKv (M.encodeKv kv) = .ok kv

/-- A blob that, if it is the encoding of a store, reads back as that store. -/
def GoodBlob (b : M.Blob) : Prop := ∀ kv, b = M.encodeKv kv → M.GoodKv kv

end Recovery

end Medium

end SimKV
