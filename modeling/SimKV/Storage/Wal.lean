/-
# `storage/wal.{hpp,cpp}`: the write-ahead log

A record is the length of the encoded command, the encoding, and its checksum.
`Wal::append` writes the three parts one after another and `Wal::replay` reads the
durable prefix back record by record, until it meets one that is short, does not
match its checksum or does not decode.

`nextRecord` is one round of that loop and the loop is a `Frames.Scanner`: a whole
record is read whatever follows it, and a record that is cut short anywhere, in its
length, its payload or its checksum, is not read at all (`exact_record`).  Over a
run of appends, flushes and crashes the durable bytes are the records of the
commands that were flushed, so that is what replay returns.
-/
import SimKV.Lib.Frames
import SimKV.Storage.Codec
import SimKV.Storage.DurableStore

namespace SimKV

open ByteCodec Frames

/-! ## The checksum -/

/-- One bit of the checksum. -/
def crcBit (crc : UInt32) : UInt32 := (crc >>> 1) ^^^ (0x82F63B78 &&& (0 - (crc &&& 1)))

/-- One byte of the checksum: eight bits, after the byte is folded in. -/
def crcByte (crc : UInt32) (b : UInt8) : UInt32 := crcBit^[8] (crc ^^^ b.toUInt32)

/-- CRC-32c (Castagnoli). -/
def crc32c (data : List UInt8) : UInt32 := data.foldl crcByte 0xFFFFFFFF ^^^ 0xFFFFFFFF

namespace Wal

/-! ## The calls -/

def append (cmd : Command) (store : DurableStore UInt8) : DurableStore UInt8 :=
  let payload := encodeCommand cmd
  let crc := crc32c payload
  ((store.append (Encoder.u32 payload.length)).append payload).append (Encoder.u32 crc.toNat)

def flush (store : DurableStore UInt8) : DurableStore UInt8 := store.flush

/-- One round of the loop of `replay`: the command and where the next record begins, or `none`
where the loop breaks. -/
def nextRecord (p : List UInt8) : Option (Command × List UInt8) :=
  if p.length < 4 then none -- truncated length field
  else
    let len := leVal (p.take 4)
    let payload := p.drop 4
    if payload.length < len + 4 then none
    else
      let trailer := payload.drop len
      let storedCrc := leVal (trailer.take 4)
      if (crc32c (payload.take len)).toNat ≠ storedCrc then none -- corrupted record
      else
        match decodeCommand (payload.take len) with
        | .ok cmd => some (cmd, trailer.drop 4)
        | .error _ => none

/-- The loop of `replay`. -/
def records : Scanner Command UInt8 where
  next := nextRecord
  shorter := by
    intro bs rest cmd h
    unfold nextRecord at h
    split at h
    · cases h
    · rename_i hlen
      dsimp only at h
      split at h
      · cases h
      · split at h
        · cases h
        · split at h
          · simp only [Option.some.injEq, Prod.mk.injEq] at h
            rw [← h.2]
            simp only [List.length_drop]
            omega
          · cases h

def replay (store : DurableStore UInt8) : List Command := records.scan store.readDurable

/-- A call on the log or on the store below it. -/
inductive Call where
  | append (cmd : Command)
  | flush
  | crash
deriving DecidableEq, Repr

def call (store : DurableStore UInt8) : Call → DurableStore UInt8
  | .append cmd => append cmd store
  | .flush => flush store
  | .crash => store.crash

/-- A sequence of calls. -/
def calls (store : DurableStore UInt8) (cs : List Call) : DurableStore UInt8 := cs.foldl call store

/-! ## Records -/

/-- The whole record of a command: length, payload, checksum. -/
def record (cmd : Command) : List UInt8 :=
  Encoder.u32 (encodeCommand cmd).length ++
    (encodeCommand cmd ++ Encoder.u32 (crc32c (encodeCommand cmd)).toNat)

theorem append_eq (cmd : Command) (store : DurableStore UInt8) :
    append cmd store = store.append (record cmd) := by
  simp only [append, record, DurableStore.append, List.append_assoc]

/-- A command of the widths of the source's types whose encoding has a 32-bit length. -/
structure Fits (cmd : Command) : Prop where
  fields : cmd.Fits
  length : (encodeCommand cmd).length < 2 ^ 32

theorem length_record (cmd : Command) :
    (record cmd).length = 4 + ((encodeCommand cmd).length + 4) := by
  simp only [record, Encoder.u32, List.length_append, length_le]

/-- The length field reads back. -/
theorem leVal_length {cmd : Command} (h : Fits cmd) :
    leVal (Encoder.u32 (encodeCommand cmd).length) = (encodeCommand cmd).length := by
  rw [Encoder.u32, leVal_le_of_lt]
  exact h.length

/-- The checksum field reads back. -/
theorem leVal_crc (crc : UInt32) : leVal (Encoder.u32 crc.toNat) = crc.toNat := by
  rw [Encoder.u32, leVal_le_of_lt]
  exact crc.toNat_lt

/-- A whole record is read, whatever follows it. -/
theorem nextRecord_record {cmd : Command} (h : Fits cmd) (rest : List UInt8) :
    nextRecord (record cmd ++ rest) = some (cmd, rest) := by
  have hhead : (record cmd ++ rest).take 4 = Encoder.u32 (encodeCommand cmd).length := by
    rw [record, List.append_assoc, List.take_left' (by simp [Encoder.u32])]
  have htail : (record cmd ++ rest).drop 4 =
      encodeCommand cmd ++ (Encoder.u32 (crc32c (encodeCommand cmd)).toNat ++ rest) := by
    rw [record, List.append_assoc, List.drop_left' (by simp [Encoder.u32]), List.append_assoc]
  have hcrc : ∀ crc : Nat, (Encoder.u32 crc).length = 4 := fun crc => by simp [Encoder.u32]
  unfold nextRecord
  rw [if_neg (by rw [List.length_append, length_record]; omega)]
  simp only [hhead, htail, leVal_length h, List.drop_left, List.take_left]
  rw [if_neg (by simp only [List.length_append, hcrc]; omega), List.take_left' (hcrc _),
    List.drop_left' (hcrc _), leVal_crc, if_neg (fun hne => hne rfl),
    decodeCommand_encodeCommand h.fields]

/-- A record cut short is not read: the cut is in the length field, or the field is whole and
says that more must follow. -/
theorem nextRecord_torn {cmd : Command} (h : Fits cmd) {k : Nat} (hk : k < (record cmd).length) :
    nextRecord ((record cmd).take k) = none := by
  rw [length_record] at hk
  have hlen : ((record cmd).take k).length = k := by
    rw [List.length_take, length_record]
    omega
  unfold nextRecord
  rw [hlen]
  split
  · rfl
  · rename_i h4
    have hhead : ((record cmd).take k).take 4 = Encoder.u32 (encodeCommand cmd).length := by
      rw [List.take_take, Nat.min_eq_left (Nat.le_of_not_lt h4), record,
        List.take_left' (by simp [Encoder.u32])]
    simp only [hhead, leVal_length h, List.length_drop, hlen]
    rw [if_pos (by omega)]

/-- **The loop reads whole records only.** -/
theorem exact_record {cmd : Command} (h : Fits cmd) : records.Exact record cmd :=
  ⟨nextRecord_record h, fun _ hk => nextRecord_torn h hk⟩

/-! ## Runs -/

/-- A flush comes before any crash. -/
def flushedFirst : List Call → Bool
  | [] => false
  | .append _ :: cs => flushedFirst cs
  | .flush :: _ => true
  | .crash :: _ => false

/-- The commands that were appended and then flushed before any crash, in order. -/
def flushed : List Call → List Command
  | [] => []
  | .append cmd :: cs => if flushedFirst cs then cmd :: flushed cs else flushed cs
  | .flush :: cs => flushed cs
  | .crash :: cs => flushed cs

theorem mem_flushed {cmd : Command} {cs : List Call} (h : cmd ∈ flushed cs) :
    Call.append cmd ∈ cs := by
  induction cs with
  | nil => exact absurd h List.not_mem_nil
  | cons c cs ih =>
    cases c with
    | append cmd' =>
      rw [flushed] at h
      split at h
      · rcases List.mem_cons.mp h with rfl | h
        · exact List.mem_cons_self
        · exact List.mem_cons_of_mem _ (ih h)
      · exact List.mem_cons_of_mem _ (ih h)
    | flush => exact List.mem_cons_of_mem _ (ih h)
    | crash => exact List.mem_cons_of_mem _ (ih h)

/-- A store with the records of `done` flushed and those of `tail` behind them. -/
def holding (done tail : List Command) : DurableStore UInt8 :=
  ⟨done.flatMap record ++ tail.flatMap record, (done.flatMap record).length⟩

/-- **The durable bytes are the records of the flushed commands.**  Induction on the calls, over
the commands flushed so far and those that wait for a flush: the first flush or crash to come
decides about the latter. -/
theorem readDurable_calls (cs : List Call) (done tail : List Command) :
    (calls (holding done tail) cs).readDurable =
      (done ++ (if flushedFirst cs then tail else []) ++ flushed cs).flatMap record := by
  induction cs generalizing done tail with
  | nil => simp [calls, holding, DurableStore.readDurable, flushed, flushedFirst]
  | cons c cs ih =>
    cases c with
    | append cmd =>
      have hstep : call (holding done tail) (.append cmd) = holding done (tail ++ [cmd]) := by
        simp [call, append_eq, holding, DurableStore.append, List.flatMap_append]
      rw [calls, List.foldl_cons, hstep]
      refine (ih done (tail ++ [cmd])).trans (congrArg (List.flatMap record) ?_)
      cases hf : flushedFirst cs with
      | true => simp only [flushed, flushedFirst, hf, if_true, List.append_assoc,
          List.singleton_append]
      | false => simp only [flushed, flushedFirst, hf, Bool.false_eq_true, if_false]
    | flush =>
      have hstep : call (holding done tail) .flush = holding (done ++ tail) [] := by
        simp [call, flush, holding, DurableStore.flush, List.flatMap_append]
      rw [calls, List.foldl_cons, hstep]
      refine (ih (done ++ tail) []).trans (congrArg (List.flatMap record) ?_)
      simp only [flushed, flushedFirst, ite_self, List.append_nil, if_true]
    | crash =>
      have hstep : call (holding done tail) .crash = holding done [] := by
        simp [call, holding, DurableStore.crash]
      rw [calls, List.foldl_cons, hstep]
      refine (ih done []).trans (congrArg (List.flatMap record) ?_)
      simp only [flushed, flushedFirst, ite_self, Bool.false_eq_true, if_false]

/-- **Recovery is exact.**  After any appends, flushes and crashes on an empty store, replay
returns the commands that were flushed before a crash could drop them; and a store whose durable
bytes are those, cut at any offset, replays exactly the commands whose whole record is left. -/
theorem replay_exact (cs : List Call) (h : ∀ cmd, Call.append cmd ∈ cs → Fits cmd) :
    replay (calls .empty cs) = flushed cs ∧
    ∀ (k : Nat) (torn : DurableStore UInt8),
      torn.readDurable = (calls .empty cs).readDurable.take k →
      ∃ m ≤ (flushed cs).length, replay torn = (flushed cs).take m ∧
        ∀ i < (flushed cs).length,
          (i < m ↔ (((flushed cs).take (i + 1)).flatMap record).length ≤ k) := by
  have hexact : ∀ cmd ∈ flushed cs, records.Exact record cmd := fun cmd hcmd =>
    exact_record (h cmd (mem_flushed hcmd))
  have hdur : (calls .empty cs).readDurable = (flushed cs).flatMap record := by
    refine (readDurable_calls cs [] []).trans (congrArg (List.flatMap record) ?_)
    rw [ite_self, List.nil_append, List.nil_append]
  refine ⟨by rw [replay, hdur, Scanner.scan_flatMap hexact], fun k torn htorn => ?_⟩
  rw [replay, htorn, hdur]
  exact Scanner.scan_take hexact k

/-- Two commands flushed and a third lost in a crash. -/
def crashedRun : List Call :=
  [.append (.put (Str.lit "a") (Str.lit "1")), .append (.delete (Str.lit "a")), .flush,
    .append (.get (Str.lit "a")), .crash]

/-- The durable bytes of that run, whole and cut one byte before the end of the second record. -/
theorem replay_exact_two :
    replay (calls .empty crashedRun) =
      [.put (Str.lit "a") (Str.lit "1"), .delete (Str.lit "a")] ∧
    ∃ m ≤ 2, replay (.holding ((calls .empty crashedRun).readDurable.take 32)) =
        [Command.put (Str.lit "a") (Str.lit "1"), .delete (Str.lit "a")].take m ∧
      (0 < m ↔ 19 ≤ 32) ∧ (1 < m ↔ 33 ≤ 32) := by
  have hfit : ∀ cmd, Call.append cmd ∈ crashedRun → Fits cmd := by
    intro cmd hcmd
    simp only [crashedRun, List.mem_cons, Call.append.injEq, reduceCtorEq, List.not_mem_nil,
      or_false, false_or] at hcmd
    rcases hcmd with rfl | rfl | rfl <;> exact ⟨by decide, by decide⟩
  obtain ⟨hall, hcut⟩ := replay_exact crashedRun hfit
  obtain ⟨m, hm, hr, hi⟩ :=
    hcut 32 (.holding ((calls .empty crashedRun).readDurable.take 32)) (by simp)
  exact ⟨hall, m, hm, hr, hi 0 (by decide), hi 1 (by decide)⟩

end Wal

end SimKV
