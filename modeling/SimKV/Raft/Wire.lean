/-
# `raft/rpc.{hpp,cpp}`: messages as bytes

The cluster model sends messages as values.  The source sends bytes: a tag, then the
fields one after another, with length fields in front of commands, strings, entry
lists and snapshot data.  Here are the ten encoders and decoders, the switch of
`RaftNode::on_message` on the tag, and the test of `Workload::on_reply`.

Every decoder reads back what its encoder wrote (`decodeAs_encode`), and the tag
selects that decoder and no other (`nodeMessage_encode`, `replyMessage_encode`).
So delivering the bytes of a message to a node is delivering the message
(`onPayload_encode`), which is the step the cluster model takes.
-/
import SimKV.Raft.Formats

namespace SimKV

open ByteCodec

/-! ## Tags -/

/-- The first byte of every network payload. -/
inductive MsgType where
  | requestVote
  | requestVoteReply
  | appendEntries
  | appendEntriesReply
  | clientRequest
  | clientReply
  | installSnapshot
  | installSnapshotReply
  | readIndexRequest
  | readIndexReply
deriving DecidableEq, Repr

namespace MsgType

def tag : MsgType → Nat
  | .requestVote => 1
  | .requestVoteReply => 2
  | .appendEntries => 3
  | .appendEntriesReply => 4
  | .clientRequest => 5
  | .clientReply => 6
  | .installSnapshot => 7
  | .installSnapshotReply => 8
  | .readIndexRequest => 9
  | .readIndexReply => 10

/-- `static_cast<MsgType>(payload[0])`, for the values the enumeration names. -/
def ofByte? (b : UInt8) : Option MsgType :=
  match b.toNat with
  | 1 => some .requestVote
  | 2 => some .requestVoteReply
  | 3 => some .appendEntries
  | 4 => some .appendEntriesReply
  | 5 => some .clientRequest
  | 6 => some .clientReply
  | 7 => some .installSnapshot
  | 8 => some .installSnapshotReply
  | 9 => some .readIndexRequest
  | 10 => some .readIndexReply
  | _ => none

theorem tag_lt (t : MsgType) : t.tag < 2 ^ 8 := by cases t <;> decide

theorem ofByte?_tag (t : MsgType) : ofByte? (UInt8.ofNat t.tag) = some t := by cases t <;> rfl

end MsgType

/-! ## The ten formats -/

/-- Run a reader behind the tag, which every decoder skips. -/
def untagged {α : Type} (d : Reader String α) : Reader String α := do
  let _ ← Decoder.u8
  d

/-- The encoding of an entry in a message is that of an entry in the log file. -/
def encodeLogEntry : LogEntry → List UInt8 := Medium.entryBytes

def decodeLogEntry : Reader String LogEntry := Medium.entryReader

namespace RequestVote

def encode (m : RequestVote) : List UInt8 :=
  Encoder.u8 MsgType.requestVote.tag ++ (Encoder.u64 m.term ++ (Encoder.u32 m.candidateId ++
    (Encoder.u64 m.lastLogIndex ++ Encoder.u64 m.lastLogTerm)))

def decode (data : List UInt8) : Except String RequestVote := Decoder.run (untagged do
  let term ← Decoder.u64
  let candidateId ← Decoder.u32
  let lastLogIndex ← Decoder.u64
  let lastLogTerm ← Decoder.u64
  pure ⟨term, candidateId, lastLogIndex, lastLogTerm⟩) data

end RequestVote

namespace RequestVoteReply

def encode (m : RequestVoteReply) : List UInt8 :=
  Encoder.u8 MsgType.requestVoteReply.tag ++ (Encoder.u64 m.term ++ Encoder.boolean m.voteGranted)

def decode (data : List UInt8) : Except String RequestVoteReply := Decoder.run (untagged do
  let term ← Decoder.u64
  let voteGranted ← Decoder.boolean
  pure ⟨term, voteGranted⟩) data

end RequestVoteReply

namespace AppendEntries

/-- `leader_commit` stands before the entries. -/
def encode (m : AppendEntries) : List UInt8 :=
  Encoder.u8 MsgType.appendEntries.tag ++ (Encoder.u64 m.term ++ (Encoder.u32 m.leaderId ++
    (Encoder.u64 m.prevLogIndex ++ (Encoder.u64 m.prevLogTerm ++ (Encoder.u64 m.leaderCommit ++
      (Encoder.u32 m.entries.length ++ m.entries.flatMap encodeLogEntry))))))

def decode (data : List UInt8) : Except String AppendEntries := Decoder.run (untagged do
  let term ← Decoder.u64
  let leaderId ← Decoder.u32
  let prevLogIndex ← Decoder.u64
  let prevLogTerm ← Decoder.u64
  let leaderCommit ← Decoder.u64
  let count ← Decoder.u32
  let entries ← readMany decodeLogEntry count
  pure ⟨term, leaderId, prevLogIndex, prevLogTerm, entries, leaderCommit⟩) data

end AppendEntries

namespace AppendEntriesReply

def encode (m : AppendEntriesReply) : List UInt8 :=
  Encoder.u8 MsgType.appendEntriesReply.tag ++ (Encoder.u64 m.term ++
    (Encoder.boolean m.success ++ (Encoder.u64 m.conflictIndex ++ Encoder.u64 m.conflictTerm)))

def decode (data : List UInt8) : Except String AppendEntriesReply := Decoder.run (untagged do
  let term ← Decoder.u64
  let success ← Decoder.boolean
  let conflictIndex ← Decoder.u64
  let conflictTerm ← Decoder.u64
  pure ⟨term, success, conflictIndex, conflictTerm⟩) data

end AppendEntriesReply

namespace ClientRequest

def encode (m : ClientRequest) : List UInt8 :=
  Encoder.u8 MsgType.clientRequest.tag ++ (Encoder.u64 m.clientId ++
    (Encoder.u64 m.requestId ++ Encoder.blob (Wal.encodeCommand m.cmd)))

def decode (data : List UInt8) : Except String ClientRequest := Decoder.run (untagged do
  let clientId ← Decoder.u64
  let requestId ← Decoder.u64
  let cmdBuf ← Decoder.blob
  match Wal.decodeCommand cmdBuf with
  | .ok cmd => pure ⟨clientId, requestId, cmd⟩
  | .error e => throw e) data

end ClientRequest

namespace ClientReply

def encode (m : ClientReply) : List UInt8 :=
  Encoder.u8 MsgType.clientReply.tag ++ (Encoder.u64 m.clientId ++ (Encoder.u64 m.requestId ++
    (Encoder.boolean m.success ++ (Encoder.boolean m.result.ok ++ (Encoder.str m.result.value ++
      (Encoder.str m.result.error ++ Encoder.u32 m.leaderHint))))))

def decode (data : List UInt8) : Except String ClientReply := Decoder.run (untagged do
  let clientId ← Decoder.u64
  let requestId ← Decoder.u64
  let success ← Decoder.boolean
  let ok ← Decoder.boolean
  let value ← Decoder.str
  let error ← Decoder.str
  let leaderHint ← Decoder.u32
  pure ⟨clientId, requestId, success, ⟨ok, value, error⟩, leaderHint⟩) data

end ClientReply

namespace InstallSnapshot

def encode (m : InstallSnapshot (List UInt8)) : List UInt8 :=
  Encoder.u8 MsgType.installSnapshot.tag ++ (Encoder.u64 m.term ++ (Encoder.u32 m.leaderId ++
    (Encoder.u64 m.lastIncludedIndex ++ (Encoder.u64 m.lastIncludedTerm ++ Encoder.blob m.data))))

def decode (raw : List UInt8) : Except String (InstallSnapshot (List UInt8)) :=
  Decoder.run (untagged do
    let term ← Decoder.u64
    let leaderId ← Decoder.u32
    let lastIncludedIndex ← Decoder.u64
    let lastIncludedTerm ← Decoder.u64
    let data ← Decoder.blob
    pure ⟨term, leaderId, lastIncludedIndex, lastIncludedTerm, data⟩) raw

end InstallSnapshot

namespace InstallSnapshotReply

def encode (m : InstallSnapshotReply) : List UInt8 :=
  Encoder.u8 MsgType.installSnapshotReply.tag ++
    (Encoder.u64 m.term ++ Encoder.u64 m.lastIncludedIndex)

def decode (raw : List UInt8) : Except String InstallSnapshotReply := Decoder.run (untagged do
  let term ← Decoder.u64
  let lastIncludedIndex ← Decoder.u64
  pure ⟨term, lastIncludedIndex⟩) raw

end InstallSnapshotReply

namespace ReadIndexRequest

def encode (m : ReadIndexRequest) : List UInt8 :=
  Encoder.u8 MsgType.readIndexRequest.tag ++
    (Encoder.u64 m.term ++ (Encoder.u32 m.leaderId ++ Encoder.u64 m.round))

def decode (data : List UInt8) : Except String ReadIndexRequest := Decoder.run (untagged do
  let term ← Decoder.u64
  let leaderId ← Decoder.u32
  let round ← Decoder.u64
  pure ⟨term, leaderId, round⟩) data

end ReadIndexRequest

namespace ReadIndexReply

def encode (m : ReadIndexReply) : List UInt8 :=
  Encoder.u8 MsgType.readIndexReply.tag ++ (Encoder.u64 m.term ++ Encoder.u64 m.round)

def decode (data : List UInt8) : Except String ReadIndexReply := Decoder.run (untagged do
  let term ← Decoder.u64
  let round ← Decoder.u64
  pure ⟨term, round⟩) data

end ReadIndexReply

/-! ## All messages together -/

namespace Msg

def msgType : Msg (List UInt8) → MsgType
  | .requestVote _ => .requestVote
  | .requestVoteReply _ => .requestVoteReply
  | .appendEntries _ => .appendEntries
  | .appendEntriesReply _ => .appendEntriesReply
  | .clientRequest _ => .clientRequest
  | .clientReply _ => .clientReply
  | .installSnapshot _ => .installSnapshot
  | .installSnapshotReply _ => .installSnapshotReply
  | .readIndexRequest _ => .readIndexRequest
  | .readIndexReply _ => .readIndexReply

/-- The bytes that go on the network. -/
def encode : Msg (List UInt8) → List UInt8
  | .requestVote m => m.encode
  | .requestVoteReply m => m.encode
  | .appendEntries m => m.encode
  | .appendEntriesReply m => m.encode
  | .clientRequest m => m.encode
  | .clientReply m => m.encode
  | .installSnapshot m => m.encode
  | .installSnapshotReply m => m.encode
  | .readIndexRequest m => m.encode
  | .readIndexReply m => m.encode

/-- `T::decode` of the type `t`. -/
def decodeAs (t : MsgType) (data : List UInt8) : Except String (Msg (List UInt8)) :=
  match t with
  | .requestVote => (RequestVote.decode data).map .requestVote
  | .requestVoteReply => (RequestVoteReply.decode data).map .requestVoteReply
  | .appendEntries => (AppendEntries.decode data).map .appendEntries
  | .appendEntriesReply => (AppendEntriesReply.decode data).map .appendEntriesReply
  | .clientRequest => (ClientRequest.decode data).map .clientRequest
  | .clientReply => (ClientReply.decode data).map .clientReply
  | .installSnapshot => (InstallSnapshot.decode data).map .installSnapshot
  | .installSnapshotReply => (InstallSnapshotReply.decode data).map .installSnapshotReply
  | .readIndexRequest => (ReadIndexRequest.decode data).map .readIndexRequest
  | .readIndexReply => (ReadIndexReply.decode data).map .readIndexReply

/-- Every field is within its machine word, and every length within its length field. -/
def WireFits : Msg (List UInt8) → Prop
  | .requestVote m =>
    m.term < 2 ^ 64 ∧ m.candidateId < 2 ^ 32 ∧ m.lastLogIndex < 2 ^ 64 ∧ m.lastLogTerm < 2 ^ 64
  | .requestVoteReply m => m.term < 2 ^ 64
  | .appendEntries m =>
    m.term < 2 ^ 64 ∧ m.leaderId < 2 ^ 32 ∧ m.prevLogIndex < 2 ^ 64 ∧ m.prevLogTerm < 2 ^ 64 ∧
      m.leaderCommit < 2 ^ 64 ∧ m.entries.length < 2 ^ 32 ∧
      ∀ e ∈ m.entries, Medium.EntryFits e
  | .appendEntriesReply m =>
    m.term < 2 ^ 64 ∧ m.conflictIndex < 2 ^ 64 ∧ m.conflictTerm < 2 ^ 64
  | .clientRequest m =>
    m.clientId < 2 ^ 64 ∧ m.requestId < 2 ^ 64 ∧ m.cmd.Fits ∧
      (Wal.encodeCommand m.cmd).length < 2 ^ 32
  | .clientReply m =>
    m.clientId < 2 ^ 64 ∧ m.requestId < 2 ^ 64 ∧ m.result.value.bytes.length < 2 ^ 32 ∧
      m.result.error.bytes.length < 2 ^ 32 ∧ m.leaderHint < 2 ^ 32
  | .installSnapshot m =>
    m.term < 2 ^ 64 ∧ m.leaderId < 2 ^ 32 ∧ m.lastIncludedIndex < 2 ^ 64 ∧
      m.lastIncludedTerm < 2 ^ 64 ∧ m.data.length < 2 ^ 32
  | .installSnapshotReply m => m.term < 2 ^ 64 ∧ m.lastIncludedIndex < 2 ^ 64
  | .readIndexRequest m => m.term < 2 ^ 64 ∧ m.leaderId < 2 ^ 32 ∧ m.round < 2 ^ 64
  | .readIndexReply m => m.term < 2 ^ 64 ∧ m.round < 2 ^ 64

end Msg

/-- The switch of `on_message`: the message handed to a handler, if any.  An empty payload, an
unknown tag and a `ClientReply` are dropped; an exception of the decoder is the error. -/
def nodeMessage (payload : List UInt8) : Except String (Option (Msg (List UInt8))) :=
  match payload with
  | [] => .ok none
  | b :: _ =>
    match MsgType.ofByte? b with
    | none => .ok none
    | some t => if t = .clientReply then .ok none else (Msg.decodeAs t payload).map some

/-- The test and the decoding of `Workload::on_reply`. -/
def replyMessage (payload : List UInt8) : Except String (Option ClientReply) :=
  match payload with
  | [] => .ok none
  | b :: _ =>
    if MsgType.ofByte? b ≠ some .clientReply then .ok none
    else (ClientReply.decode payload).map some

/-! ## Round trips -/

/-- A reader that reads the fields reads the message, behind any tag. -/
theorem run_untagged {α : Type} {d : Reader String α} (t : MsgType) {bs : List UInt8} {a : α}
    (h : Reads d bs a) : Decoder.run (untagged d) (Encoder.u8 t.tag ++ bs) = .ok a :=
  Medium.run_of_reads ((Encoder.u8_reads t.tag_lt).bind h)

/-- A message starts with its tag. -/
theorem encode_eq (m : Msg (List UInt8)) :
    ∃ bs, m.encode = UInt8.ofNat m.msgType.tag :: bs := by
  cases m <;> exact ⟨_, rfl⟩

theorem RequestVote.decode_encode {m : RequestVote}
    (h : (Msg.requestVote m).WireFits) : RequestVote.decode m.encode = .ok m := by
  obtain ⟨ht, hc, hi, hl⟩ := h
  refine run_untagged .requestVote ?_
  exact (Encoder.u64_reads ht).bind ((Encoder.u32_reads hc).bind
    ((Encoder.u64_reads hi).bind (Encoder.u64_reads hl).bind_pure))

theorem RequestVoteReply.decode_encode {m : RequestVoteReply}
    (h : (Msg.requestVoteReply m).WireFits) : RequestVoteReply.decode m.encode = .ok m := by
  refine run_untagged .requestVoteReply ?_
  exact (Encoder.u64_reads h).bind (Encoder.boolean_reads _).bind_pure

theorem AppendEntries.decode_encode {m : AppendEntries}
    (h : (Msg.appendEntries m).WireFits) : AppendEntries.decode m.encode = .ok m := by
  obtain ⟨ht, hl, hi, hp, hc, hn, he⟩ := h
  have hentries : Reads (readMany decodeLogEntry m.entries.length)
      (m.entries.flatMap encodeLogEntry) m.entries :=
    Reads.many fun e hmem => Medium.entry_reads (he e hmem)
  refine run_untagged .appendEntries ?_
  exact (Encoder.u64_reads ht).bind ((Encoder.u32_reads hl).bind ((Encoder.u64_reads hi).bind
    ((Encoder.u64_reads hp).bind ((Encoder.u64_reads hc).bind ((Encoder.u32_reads hn).bind
      hentries.bind_pure)))))

theorem AppendEntriesReply.decode_encode {m : AppendEntriesReply}
    (h : (Msg.appendEntriesReply m).WireFits) : AppendEntriesReply.decode m.encode = .ok m := by
  obtain ⟨ht, hi, hc⟩ := h
  refine run_untagged .appendEntriesReply ?_
  exact (Encoder.u64_reads ht).bind ((Encoder.boolean_reads _).bind
    ((Encoder.u64_reads hi).bind (Encoder.u64_reads hc).bind_pure))

theorem ClientRequest.decode_encode {m : ClientRequest}
    (h : (Msg.clientRequest m).WireFits) : ClientRequest.decode m.encode = .ok m := by
  obtain ⟨hc, hr, hcmd, hlen⟩ := h
  have hcommand : Reads (Decoder.blob >>= fun cmdBuf =>
      match Wal.decodeCommand cmdBuf with
      | .ok cmd => pure (ClientRequest.mk m.clientId m.requestId cmd)
      | .error e => throw e) (Encoder.blob (Wal.encodeCommand m.cmd)) m := by
    rw [← List.append_nil (Encoder.blob _)]
    refine (Encoder.blob_reads hlen).bind ?_
    rw [Wal.decodeCommand_encodeCommand hcmd]
    exact Reads.pure m
  refine run_untagged .clientRequest ?_
  exact (Encoder.u64_reads hc).bind ((Encoder.u64_reads hr).bind hcommand)

theorem ClientReply.decode_encode {m : ClientReply}
    (h : (Msg.clientReply m).WireFits) : ClientReply.decode m.encode = .ok m := by
  obtain ⟨hc, hr, hv, he, hl⟩ := h
  refine run_untagged .clientReply ?_
  exact (Encoder.u64_reads hc).bind ((Encoder.u64_reads hr).bind ((Encoder.boolean_reads _).bind
    ((Encoder.boolean_reads _).bind ((Encoder.str_reads hv).bind ((Encoder.str_reads he).bind
      (Encoder.u32_reads hl).bind_pure)))))

theorem InstallSnapshot.decode_encode {m : InstallSnapshot (List UInt8)}
    (h : (Msg.installSnapshot m).WireFits) : InstallSnapshot.decode m.encode = .ok m := by
  obtain ⟨ht, hl, hi, hlt, hd⟩ := h
  refine run_untagged .installSnapshot ?_
  exact (Encoder.u64_reads ht).bind ((Encoder.u32_reads hl).bind ((Encoder.u64_reads hi).bind
    ((Encoder.u64_reads hlt).bind (Encoder.blob_reads hd).bind_pure)))

theorem InstallSnapshotReply.decode_encode {m : InstallSnapshotReply}
    (h : (Msg.installSnapshotReply m).WireFits) : InstallSnapshotReply.decode m.encode = .ok m := by
  obtain ⟨ht, hi⟩ := h
  refine run_untagged .installSnapshotReply ?_
  exact (Encoder.u64_reads ht).bind (Encoder.u64_reads hi).bind_pure

theorem ReadIndexRequest.decode_encode {m : ReadIndexRequest}
    (h : (Msg.readIndexRequest m).WireFits) : ReadIndexRequest.decode m.encode = .ok m := by
  obtain ⟨ht, hl, hr⟩ := h
  refine run_untagged .readIndexRequest ?_
  exact (Encoder.u64_reads ht).bind ((Encoder.u32_reads hl).bind (Encoder.u64_reads hr).bind_pure)

theorem ReadIndexReply.decode_encode {m : ReadIndexReply}
    (h : (Msg.readIndexReply m).WireFits) : ReadIndexReply.decode m.encode = .ok m := by
  obtain ⟨ht, hr⟩ := h
  refine run_untagged .readIndexReply ?_
  exact (Encoder.u64_reads ht).bind (Encoder.u64_reads hr).bind_pure

/-- **Each of the ten decoders reads back what its encoder wrote.** -/
theorem decodeAs_encode {m : Msg (List UInt8)} (h : m.WireFits) :
    Msg.decodeAs m.msgType m.encode = .ok m := by
  have hmap : ∀ {α : Type} {r : Except String α} {a : α} (f : α → Msg (List UInt8)),
      r = .ok a → r.map f = .ok (f a) := by
    rintro α r a f rfl
    rfl
  cases m with
  | requestVote m => exact hmap _ (RequestVote.decode_encode h)
  | requestVoteReply m => exact hmap _ (RequestVoteReply.decode_encode h)
  | appendEntries m => exact hmap _ (AppendEntries.decode_encode h)
  | appendEntriesReply m => exact hmap _ (AppendEntriesReply.decode_encode h)
  | clientRequest m => exact hmap _ (ClientRequest.decode_encode h)
  | clientReply m => exact hmap _ (ClientReply.decode_encode h)
  | installSnapshot m => exact hmap _ (InstallSnapshot.decode_encode h)
  | installSnapshotReply m => exact hmap _ (InstallSnapshotReply.decode_encode h)
  | readIndexRequest m => exact hmap _ (ReadIndexRequest.decode_encode h)
  | readIndexReply m => exact hmap _ (ReadIndexReply.decode_encode h)

/-- The switch of a node selects the message's own decoder; it drops replies to clients. -/
theorem nodeMessage_encode {m : Msg (List UInt8)} (h : m.WireFits) :
    nodeMessage m.encode = .ok (if m.msgType = .clientReply then none else some m) := by
  obtain ⟨bs, hbs⟩ := encode_eq m
  have hdec := decodeAs_encode h
  rw [hbs] at hdec ⊢
  simp only [nodeMessage, MsgType.ofByte?_tag, hdec]
  split <;> rfl

/-- A client decodes replies to clients, and drops every other message. -/
theorem replyMessage_encode {m : Msg (List UInt8)} (h : m.WireFits) :
    replyMessage m.encode = .ok (match m with
      | .clientReply reply => some reply
      | _ => none) := by
  obtain ⟨bs, hbs⟩ := encode_eq m
  have hdec := decodeAs_encode h
  rw [hbs] at hdec ⊢
  simp only [replyMessage, MsgType.ofByte?_tag]
  cases m with
  | clientReply m =>
    cases hr : ClientReply.decode (UInt8.ofNat MsgType.clientReply.tag :: bs) with
    | ok r =>
      simp only [Msg.decodeAs, Msg.msgType, hr, Except.map, Except.ok.injEq,
        Msg.clientReply.injEq] at hdec
      simp only [Msg.msgType, hr, Except.map, hdec, ne_eq, not_true_eq_false, if_false]
    | error e => simp only [Msg.decodeAs, Msg.msgType, hr, Except.map, reduceCtorEq] at hdec
  | _ => simp only [Msg.msgType, ne_eq, Option.some.injEq, reduceCtorEq, not_false_eq_true, if_true]

/-- **Messages survive the wire.**  Every message within the widths of its format decodes to
itself under its own decoder; its first byte is the tag of its type; and that tag makes a node, or
a client in the case of a `ClientReply`, take that decoder. -/
theorem wire_roundtrip (m : Msg (List UInt8)) (h : m.WireFits) :
    Msg.decodeAs m.msgType m.encode = .ok m ∧
    m.encode.head? = some (UInt8.ofNat m.msgType.tag) ∧
    (∀ t : MsgType, m.encode.head? = some (UInt8.ofNat t.tag) → t = m.msgType) ∧
    nodeMessage m.encode = .ok (if m.msgType = .clientReply then none else some m) ∧
    replyMessage m.encode = .ok (match m with
      | .clientReply reply => some reply
      | _ => none) := by
  obtain ⟨bs, hbs⟩ := encode_eq m
  refine ⟨decodeAs_encode h, by rw [hbs]; rfl, fun t ht => ?_, nodeMessage_encode h,
    replyMessage_encode h⟩
  rw [hbs, List.head?_cons, Option.some.injEq] at ht
  have htag := congrArg MsgType.ofByte? ht
  rw [MsgType.ofByte?_tag, MsgType.ofByte?_tag, Option.some.injEq] at htag
  exact htag.symm

/-- An `AppendEntries` with two entries. -/
def casAndAdd : Msg (List UInt8) := .appendEntries ⟨3, 1, 4, 2,
  [⟨3, 5, .cas (Str.lit "k") (Str.lit "") (Str.lit "v")⟩, ⟨3, 6, .addServer 4⟩], 4⟩

theorem wire_roundtrip_two : nodeMessage casAndAdd.encode = .ok (some casAndAdd) :=
  (wire_roundtrip casAndAdd ⟨by decide, by decide, by decide, by decide, by decide, by decide,
    by decide⟩).2.2.2.1

/-! ## Delivering bytes -/

/-- `on_message` of a payload; an exception of the decoder is caught and printed. -/
def Node.onPayload (src : NodeId) (payload : List UInt8) (ticket : Nat) (s : Node Medium.bytes) :
    Node Medium.bytes :=
  if !s.running then s
  else match nodeMessage payload with
    | .ok (some m) => s.onMessage src m ticket
    | .ok none | .error _ => s

/-- **Delivering the bytes of a message is delivering the message**, as the cluster does. -/
theorem Node.onPayload_encode (src : NodeId) {m : Msg (List UInt8)} (h : m.WireFits) (ticket : Nat)
    (s : Node Medium.bytes) : s.onPayload src m.encode ticket = s.onMessage src m ticket := by
  unfold onPayload
  rw [nodeMessage_encode h]
  cases hrun : s.running with
  | false => simp only [onMessage, hrun, Bool.not_false, if_true]
  | true =>
    by_cases hm : m.msgType = .clientReply
    · -- the one message that a node drops
      rw [if_pos hm]
      cases m with
      | clientReply m => simp only [onMessage, dispatch, hrun, Bool.not_true, ite_self]; rfl
      | _ => cases hm
    · rw [if_neg hm]
      rfl

end SimKV
