/-
# `server/tcp_transport.cpp`: messages over TCP

`send` writes a frame on the connection to a peer, and once more on a new connection if
that fails; `recv_loop` reads frames off a connection that was accepted.

A socket is what it has accepted so far and what the next calls of `::send` return; a
call that fails breaks the connection for good.  What a receiver gets of a connection
is some first part of what the sender's socket accepted, and `::read` returns it in
pieces of any size.  The sender is the one thread of the node, sending to one peer.

The size limit of `recv_loop` has no counterpart in `send`: what holds of every payload
is that it arrives whole or not at all, and once at most; that it arrives holds up to
the limit (`tcp_framing`).
-/
import SimKV.Lib.ByteCodec
import SimKV.Lib.Frames
import SimKV.Raft.Types

namespace SimKV.Server

open ByteCodec Frames

structure Message where
  src : NodeId
  dst : NodeId
  payload : List UInt8
deriving DecidableEq, Repr

/-! ## Frames -/

/-- The four bytes of `htonl(v)` in memory. -/
def toBe32 (v : Nat) : List UInt8 := (le 4 v).reverse

def fromBe32 (bs : List UInt8) : Nat := leVal bs.reverse

@[simp] theorem length_toBe32 (v : Nat) : (toBe32 v).length = 4 := by
  rw [toBe32, List.length_reverse, length_le]

theorem fromBe32_toBe32 {v : Nat} (h : v < 2 ^ 32) : fromBe32 (toBe32 v) = v := by
  rw [fromBe32, toBe32, List.reverse_reverse, leVal_le_of_lt (by simpa using h)]

/-- What `do_write` writes. -/
def frame (m : Message) : List UInt8 := toBe32 m.src ++ (toBe32 m.payload.length ++ m.payload)

theorem length_frame (m : Message) : (frame m).length = 8 + m.payload.length := by
  simp only [frame, List.length_append, length_toBe32]
  omega

/-- The fields are those of the machine. -/
structure Message.Fits (m : Message) (myId : NodeId) : Prop where
  src : m.src < 2 ^ 32
  dst : m.dst = myId
  payload : m.payload.length < 2 ^ 32

/-! ## `recv_loop` -/

/-- `read_all`: the next `len` bytes, and the pieces that are left; `none` at the end of the
stream. -/
def readAll : List (List UInt8) → Nat → Option (List UInt8 × List (List UInt8))
  | pieces, 0 => some ([], pieces)
  | [], _ + 1 => none
  | [] :: _, _ + 1 => none
  | (b :: piece) :: pieces, len + 1 =>
    if piece.length ≤ len then
      (readAll pieces (len - piece.length)).map fun r => (b :: piece ++ r.1, r.2)
    else some ((b :: piece).take (len + 1), (b :: piece).drop (len + 1) :: pieces)

theorem readAll_some {pieces rest : List (List UInt8)} {len : Nat} {bs : List UInt8}
    (h : readAll pieces len = some (bs, rest)) :
    bs.length = len ∧ bs ++ rest.flatten = pieces.flatten := by
  induction pieces generalizing len bs with
  | nil =>
    cases len with
    | zero =>
      cases h
      exact ⟨rfl, rfl⟩
    | succ len => exact nomatch h
  | cons piece pieces ih =>
    cases len with
    | zero =>
      cases h
      exact ⟨rfl, rfl⟩
    | succ len =>
      cases piece with
      | nil => exact nomatch h
      | cons b piece =>
        rw [readAll] at h
        split at h
        · rename_i hle
          obtain ⟨r, hr, heq⟩ := Option.map_eq_some_iff.mp h
          cases heq
          obtain ⟨hlen, hflat⟩ := ih hr
          refine ⟨?_, ?_⟩
          · rw [List.length_append, List.length_cons, hlen]
            omega
          · rw [List.append_assoc, hflat, List.flatten_cons]
        · rename_i hgt
          cases h
          refine ⟨?_, ?_⟩
          · rw [List.length_take, List.length_cons]
            omega
          · rw [List.flatten_cons, ← List.append_assoc, List.take_append_drop,
              List.flatten_cons]

def kPayloadLimit : Nat := 64 * 1024 * 1024

/-- The messages that are handed to the handler. -/
def recvLoop (myId : NodeId) (pieces : List (List UInt8)) : List Message :=
  match _h : readAll pieces 8 with
  | none => []
  | some (hdr, pieces) =>
    let senderId := fromBe32 (hdr.take 4)
    let payloadLen := fromBe32 (hdr.drop 4)
    if payloadLen > kPayloadLimit then []
    else match _h' : readAll pieces payloadLen with
      | none => []
      | some (payload, pieces) => ⟨senderId, myId, payload⟩ :: recvLoop myId pieces
termination_by pieces.flatten.length
decreasing_by
  obtain ⟨hlen, hflat⟩ := readAll_some _h
  obtain ⟨-, hflat'⟩ := readAll_some _h'
  have h₁ := congrArg List.length hflat
  have h₂ := congrArg List.length hflat'
  rw [List.length_append] at h₁ h₂
  omega

/-! ## The pieces do not matter -/

/-- Every call of `::read` returns something. -/
def NoEmpty (pieces : List (List UInt8)) : Prop := ∀ piece ∈ pieces, piece ≠ []

instance (pieces : List (List UInt8)) : Decidable (NoEmpty pieces) :=
  inferInstanceAs (Decidable (∀ piece ∈ pieces, piece ≠ []))

theorem NoEmpty.tail {piece : List UInt8} {pieces : List (List UInt8)}
    (h : NoEmpty (piece :: pieces)) : NoEmpty pieces :=
  fun q hq => h q (List.mem_cons_of_mem _ hq)

theorem readAll_none {pieces : List (List UInt8)} {len : Nat} (hne : NoEmpty pieces)
    (h : readAll pieces len = none) : pieces.flatten.length < len := by
  induction pieces generalizing len with
  | nil =>
    cases len with
    | zero => exact nomatch h
    | succ len => exact Nat.succ_pos _
  | cons piece pieces ih =>
    cases len with
    | zero => exact nomatch h
    | succ len =>
      cases piece with
      | nil => exact absurd rfl (hne [] List.mem_cons_self)
      | cons b piece =>
        rw [readAll] at h
        split at h
        · have := ih hne.tail (Option.map_eq_none_iff.mp h)
          rw [List.flatten_cons, List.length_append, List.length_cons]
          omega
        · exact nomatch h

theorem NoEmpty.readAll {pieces rest : List (List UInt8)} {len : Nat} {bs : List UInt8}
    (hne : NoEmpty pieces) (h : readAll pieces len = some (bs, rest)) : NoEmpty rest := by
  induction pieces generalizing len bs with
  | nil =>
    cases len with
    | zero =>
      cases h
      exact hne
    | succ len => exact nomatch h
  | cons piece pieces ih =>
    cases len with
    | zero =>
      cases h
      exact hne
    | succ len =>
      cases piece with
      | nil => exact nomatch h
      | cons b piece =>
        rw [Server.readAll] at h
        split at h
        · obtain ⟨r, hr, heq⟩ := Option.map_eq_some_iff.mp h
          cases heq
          exact ih hne.tail hr
        · rename_i hgt
          cases h
          intro q hq
          rcases List.mem_cons.mp hq with rfl | hq
          · intro hnil
            have := congrArg List.length hnil
            rw [List.length_drop, List.length_cons, List.length_nil] at this
            omega
          · exact hne.tail q hq

/-- One message off the front of a stream. -/
def nextMessage (myId : NodeId) (bs : List UInt8) : Option (Message × List UInt8) :=
  if bs.length < 8 then none
  else
    let payloadLen := fromBe32 ((bs.take 8).drop 4)
    if payloadLen > kPayloadLimit then none
    else if (bs.drop 8).length < payloadLen then none
    else some (⟨fromBe32 ((bs.take 8).take 4), myId, (bs.drop 8).take payloadLen⟩,
      (bs.drop 8).drop payloadLen)

def messages (myId : NodeId) : Scanner Message UInt8 where
  next := nextMessage myId
  shorter {bs rest m} h := by
    unfold nextMessage at h
    dsimp only at h
    split at h
    · exact nomatch h
    · split at h
      · exact nomatch h
      · split at h
        · exact nomatch h
        · cases h
          rw [List.length_drop, List.length_drop]
          omega

theorem next_messages (myId : NodeId) (bs : List UInt8) :
    (messages myId).next bs = nextMessage myId bs := rfl

/-- What is read is what stands there. -/
theorem readAll_eq {pieces rest : List (List UInt8)} {len : Nat} {bs : List UInt8}
    (h : readAll pieces len = some (bs, rest)) :
    len ≤ pieces.flatten.length ∧ bs = pieces.flatten.take len ∧
      rest.flatten = pieces.flatten.drop len := by
  obtain ⟨hlen, hflat⟩ := readAll_some h
  rw [← hflat, ← hlen]
  refine ⟨?_, List.take_left.symm, List.drop_left.symm⟩
  rw [List.length_append]
  exact Nat.le_add_right _ _

/-- **The loop scans the stream**, whatever the pieces. -/
theorem recvLoop_eq (myId : NodeId) {pieces : List (List UInt8)} (hne : NoEmpty pieces) :
    recvLoop myId pieces = (messages myId).scan pieces.flatten := by
  induction hn : pieces.flatten.length using Nat.strongRecOn generalizing pieces with
  | _ n ih =>
    rw [recvLoop]
    split
    · rename_i h
      have hnone : (messages myId).next pieces.flatten = none := if_pos (readAll_none hne h)
      rw [Scanner.scan_none hnone]
    · rename_i hdr rest h
      obtain ⟨hlen, rfl, hrest⟩ := readAll_eq h
      have hnext : (messages myId).next pieces.flatten = _ := if_neg (Nat.not_lt.mpr hlen)
      rw [← hrest] at hnext
      dsimp only at hnext ⊢
      split
      · rename_i hbig
        rw [if_pos hbig] at hnext
        rw [Scanner.scan_none hnext]
      · rename_i hsmall
        rw [if_neg hsmall] at hnext
        split
        · rename_i h'
          rw [if_pos (readAll_none (hne.readAll h) h')] at hnext
          rw [Scanner.scan_none hnext]
        · rename_i payload rest' h'
          obtain ⟨hlen', rfl, hrest'⟩ := readAll_eq h'
          rw [if_neg (Nat.not_lt.mpr hlen'), ← hrest'] at hnext
          have hshort := (messages myId).shorter hnext
          rw [Scanner.scan_some hnext, ih _ (hn ▸ hshort) ((hne.readAll h).readAll h') rfl]

/-! ## Frames are read whole, or not at all -/

section Frames

variable {myId : NodeId} {m : Message}

/-- The two words of the header. -/
theorem take_frame (m : Message) (rest : List UInt8) :
    (frame m ++ rest).take 8 = toBe32 m.src ++ toBe32 m.payload.length ∧
      (frame m ++ rest).drop 8 = m.payload ++ rest := by
  have hsplit : frame m ++ rest =
      (toBe32 m.src ++ toBe32 m.payload.length) ++ (m.payload ++ rest) := by
    simp only [frame, List.append_assoc]
  have hlen : (toBe32 m.src ++ toBe32 m.payload.length).length = 8 := by
    rw [List.length_append, length_toBe32, length_toBe32]
  rw [hsplit]
  exact ⟨List.take_left' hlen, List.drop_left' hlen⟩

theorem header (h : m.Fits myId) :
    fromBe32 ((toBe32 m.src ++ toBe32 m.payload.length).take 4) = m.src ∧
      fromBe32 ((toBe32 m.src ++ toBe32 m.payload.length).drop 4) = m.payload.length := by
  rw [List.take_left' (length_toBe32 _), List.drop_left' (length_toBe32 _)]
  exact ⟨fromBe32_toBe32 h.src, fromBe32_toBe32 h.payload⟩

/-- The next message of a stream that begins with a frame. -/
theorem nextMessage_frame (h : m.Fits myId) (rest : List UInt8) :
    nextMessage myId (frame m ++ rest) =
      if m.payload.length > kPayloadLimit then none else some (m, rest) := by
  obtain ⟨htake, hdrop⟩ := take_frame m rest
  obtain ⟨hsrc, hlen⟩ := header h
  have hlong : ¬ (frame m ++ rest).length < 8 := by
    rw [List.length_append, length_frame]
    omega
  have hpayload : ¬ (m.payload ++ rest).length < m.payload.length := by
    rw [List.length_append]
    omega
  rw [nextMessage, if_neg hlong]
  dsimp only
  rw [htake, hdrop, hsrc, hlen, if_neg hpayload, List.take_left, List.drop_left, ← h.dst]

/-- A frame that is cut short is not read. -/
theorem nextMessage_torn (h : m.Fits myId) {k : Nat} (hk : k < (frame m).length) :
    nextMessage myId ((frame m).take k) = none := by
  rw [length_frame] at hk
  by_cases h8 : k < 8
  · refine if_pos ?_
    rw [List.length_take]
    omega
  · have hcut := take_frame m []
    rw [List.append_nil, List.append_nil] at hcut
    have htake : ((frame m).take k).take 8 = toBe32 m.src ++ toBe32 m.payload.length := by
      rw [List.take_take, Nat.min_eq_left (Nat.not_lt.mp h8), hcut.1]
    have hshort : (((frame m).take k).drop 8).length < m.payload.length := by
      rw [List.length_drop, List.length_take, length_frame]
      omega
    have hlong : ¬ ((frame m).take k).length < 8 := by
      rw [List.length_take, length_frame]
      omega
    rw [nextMessage, if_neg hlong]
    dsimp only
    rw [htake, (header h).2, if_pos hshort, ite_self]

theorem wary (h : m.Fits myId) : (messages myId).Wary frame m where
  whole rest p hp := by
    rw [next_messages, nextMessage_frame h] at hp
    split at hp
    · exact nomatch hp
    · exact (Option.some.inj hp).symm
  torn _ hk := by
    rw [next_messages]
    exact nextMessage_torn h hk

end Frames

/-! ## `send` -/

/-- A connection of the sender: what it has accepted, and how many bytes the next calls of `::send`
take, at most.  A call with 0, or with no answer left, fails, and so do all that follow. -/
structure Socket where
  accepted : List UInt8
  answers : List Nat
deriving DecidableEq, Repr

/-- The loop of `write_all`. -/
def writeLoop : List Nat → List UInt8 → List UInt8 → Bool × Socket
  | answers, accepted, [] => (true, ⟨accepted, answers⟩)
  | [], accepted, _ :: _ => (false, ⟨accepted, []⟩)
  | 0 :: _, accepted, _ :: _ => (false, ⟨accepted, []⟩)
  | (n + 1) :: answers, accepted, b :: buf =>
    writeLoop answers (accepted ++ (b :: buf).take (n + 1)) ((b :: buf).drop (n + 1))

def writeAll (fd : Socket) (buf : List UInt8) : Bool × Socket :=
  writeLoop fd.answers fd.accepted buf

def doWrite (m : Message) (fd : Socket) : Bool × Socket :=
  match writeAll fd (toBe32 m.src) with
  | (false, fd) => (false, fd)
  | (true, fd) =>
    match writeAll fd (toBe32 m.payload.length) with
    | (false, fd) => (false, fd)
    | (true, fd) => writeAll fd m.payload

/-- `send_fds_[to]`, the connections that were closed, and what the next calls of `connect_to` come
to: a new socket, or a failure. -/
structure Sender where
  fd : Option Socket
  closed : List Socket
  connects : List (Option (List Nat))
deriving DecidableEq, Repr

namespace Sender

def connectTo (s : Sender) : Option Socket × Sender :=
  match s.connects with
  | [] => (none, s)
  | none :: connects => (none, { s with connects })
  | some answers :: connects => (some ⟨[], answers⟩, { s with connects })

/-- The part of `send` that writes, on `fd` or else on a new connection. -/
def write (m : Message) (fd : Socket) (s : Sender) : Sender :=
  match doWrite m fd with
  | (true, fd) => { s with fd := some fd }
  | (false, fd) =>
    match connectTo { s with fd := none, closed := s.closed ++ [fd] } with
    | (none, s) => s
    | (some fd, s) => { s with fd := some (doWrite m fd).2 }

def send (s : Sender) (m : Message) : Sender :=
  match s.fd with
  | some fd => s.write m fd
  | none =>
    match s.connectTo with
    | (none, s) => s
    | (some fd, s) => s.write m fd

/-- Sending one message after the other. -/
def sendAll (connects : List (Option (List Nat))) (ms : List Message) : Sender :=
  ms.foldl send ⟨none, [], connects⟩

/-- All connections to the peer, the first one first. -/
def connections (s : Sender) : List Socket := s.closed ++ s.fd.toList

end Sender

/-! ## What a write does -/

/-- All of it was accepted; or a part, and the connection is broken. -/
inductive Wrote (fd : Socket) (buf : List UInt8) : Bool × Socket → Prop
  | whole (fd' : Socket) (h : fd'.accepted = fd.accepted ++ buf) : Wrote fd buf (true, fd')
  | torn (k : Nat) (hk : k < buf.length) : Wrote fd buf (false, ⟨fd.accepted ++ buf.take k, []⟩)

theorem Wrote.nothing (fd : Socket) (b : UInt8) (buf : List UInt8) :
    Wrote fd (b :: buf) (false, ⟨fd.accepted, []⟩) := by
  have h : Wrote fd (b :: buf) (false, ⟨fd.accepted ++ (b :: buf).take 0, []⟩) :=
    .torn 0 (Nat.succ_pos _)
  rwa [List.take_zero, List.append_nil] at h

/-- One buffer after another is their concatenation. -/
theorem Wrote.append {fd fd' : Socket} {buf buf' : List UInt8} {r : Bool × Socket}
    (hacc : fd'.accepted = fd.accepted ++ buf) (h : Wrote fd' buf' r) :
    Wrote fd (buf ++ buf') r := by
  cases h with
  | whole fd'' hacc' =>
    refine .whole fd'' ?_
    rw [hacc', hacc, List.append_assoc]
  | torn k hk =>
    have h : Wrote fd (buf ++ buf')
        (false, ⟨fd.accepted ++ (buf ++ buf').take (buf.length + k), []⟩) :=
      .torn _ (by rw [List.length_append]; omega)
    rwa [List.take_append, List.take_of_length_le (Nat.le_add_right _ _),
      Nat.add_sub_cancel_left, ← List.append_assoc, ← hacc] at h

theorem Wrote.tear {fd : Socket} {buf : List UInt8} {k : Nat} (hk : k < buf.length)
    (buf' : List UInt8) : Wrote fd (buf ++ buf') (false, ⟨fd.accepted ++ buf.take k, []⟩) := by
  have h : Wrote fd (buf ++ buf') (false, ⟨fd.accepted ++ (buf ++ buf').take k, []⟩) :=
    .torn k (by rw [List.length_append]; omega)
  rwa [List.take_append_of_le_length (Nat.le_of_lt hk)] at h

theorem writeLoop_wrote (answers : List Nat) (accepted buf : List UInt8) :
    Wrote ⟨accepted, answers⟩ buf (writeLoop answers accepted buf) := by
  induction answers generalizing accepted buf with
  | nil =>
    cases buf with
    | nil => exact .whole _ (List.append_nil _).symm
    | cons b buf => exact .nothing _ b buf
  | cons n answers ih =>
    cases buf with
    | nil => exact .whole _ (List.append_nil _).symm
    | cons b buf =>
      cases n with
      | zero => exact .nothing _ b buf
      | succ n =>
        have hrest := ih (accepted ++ (b :: buf).take (n + 1)) ((b :: buf).drop (n + 1))
        have h : Wrote ⟨accepted, (n + 1) :: answers⟩ _ _ := Wrote.append rfl hrest
        rwa [List.take_append_drop] at h

theorem writeAll_wrote (fd : Socket) (buf : List UInt8) : Wrote fd buf (writeAll fd buf) :=
  writeLoop_wrote fd.answers fd.accepted buf

theorem doWrite_wrote (m : Message) (fd : Socket) : Wrote fd (frame m) (doWrite m fd) := by
  unfold doWrite frame
  have h₁ := writeAll_wrote fd (toBe32 m.src)
  generalize writeAll fd (toBe32 m.src) = r₁ at h₁
  cases h₁ with
  | torn k hk => exact .tear hk _
  | whole fd₁ hacc₁ =>
    refine .append hacc₁ ?_
    dsimp only
    have h₂ := writeAll_wrote fd₁ (toBe32 m.payload.length)
    generalize writeAll fd₁ (toBe32 m.payload.length) = r₂ at h₂
    cases h₂ with
    | torn k hk => exact .tear hk _
    | whole fd₂ hacc₂ => exact .append hacc₂ (writeAll_wrote fd₂ m.payload)

/-- Nothing is written on a broken connection. -/
theorem doWrite_broken (m : Message) {fd : Socket} (h : fd.answers = []) :
    doWrite m fd = (false, fd) := by
  obtain ⟨accepted, answers⟩ := fd
  subst h
  have hsrc : ∃ b bs, toBe32 m.src = b :: bs := List.exists_cons_of_length_pos (by simp)
  obtain ⟨b, bs, hsrc⟩ := hsrc
  rw [doWrite, hsrc]
  rfl

/-! ## Whole runs of the sender -/

section Runs

variable {myId : NodeId} {fd : Socket} {ms : List Message}

/-- The socket accepted the frames of `ms`, and then at most a part of one frame, with which it
broke. -/
structure Holds (myId : NodeId) (fd : Socket) (ms : List Message) : Prop where
  fits : ∀ m ∈ ms, m.Fits myId
  accepted : fd.accepted = ms.flatMap frame ∨ fd.answers = [] ∧ ∃ m : Message, m.Fits myId ∧
    ∃ k < (frame m).length, fd.accepted = ms.flatMap frame ++ (frame m).take k

theorem holds_nil (answers : List Nat) : Holds myId ⟨[], answers⟩ [] :=
  ⟨fun _ h => (nomatch h), Or.inl rfl⟩

/-- What `do_write` makes of a socket: one more frame, or none. -/
theorem Holds.doWrite {m : Message} (h : Holds myId fd ms) (hm : m.Fits myId) :
    (∃ fd', Server.doWrite m fd = (true, fd') ∧ Holds myId fd' (ms ++ [m]) ∧
      (fd.accepted = ms.flatMap frame → fd'.accepted = (ms ++ [m]).flatMap frame)) ∨
    (∃ fd', Server.doWrite m fd = (false, fd') ∧ Holds myId fd' ms) := by
  have hfits : ∀ m' ∈ ms ++ [m], m'.Fits myId := by
    intro m' hm'
    rcases List.mem_append.mp hm' with hm' | hm'
    · exact h.fits m' hm'
    · cases List.mem_singleton.mp hm'
      exact hm
  rcases h.accepted with hacc | ⟨hbroken, -⟩
  · have hw := doWrite_wrote m fd
    generalize Server.doWrite m fd = r at hw
    cases hw with
    | whole fd' hacc' =>
      have hnew : fd'.accepted = (ms ++ [m]).flatMap frame := by
        rw [hacc', hacc, List.flatMap_append, List.flatMap_singleton]
      exact Or.inl ⟨fd', rfl, ⟨hfits, Or.inl hnew⟩, fun _ => hnew⟩
    | torn k hk =>
      refine Or.inr ⟨_, rfl, h.fits, Or.inr ⟨rfl, m, hm, k, hk, ?_⟩⟩
      rw [hacc]
  · exact Or.inr ⟨fd, doWrite_broken m hbroken, h⟩

namespace Sender

/-- The closed connections and the open one hold, in this order, some of the messages sent. -/
def Carries (myId : NodeId) (s : Sender) (ms : List Message) : Prop :=
  ∃ mss last, List.Forall₂ (Holds myId) s.closed mss ∧ (∀ fd ∈ s.fd, Holds myId fd last) ∧
    (mss.flatten ++ last).Sublist ms

theorem connectTo_cases (s : Sender) :
    (∃ connects, s.connectTo = (none, { s with connects })) ∨
      ∃ answers connects, s.connectTo = (some ⟨[], answers⟩, { s with connects }) := by
  unfold connectTo
  split
  · exact Or.inl ⟨s.connects, rfl⟩
  · rename_i connects _
    exact Or.inl ⟨connects, rfl⟩
  · rename_i answers connects _
    exact Or.inr ⟨answers, connects, rfl⟩

variable {s : Sender} {m : Message}

/-- On the connection it has, or on a new one, the message is written once at most. -/
theorem Carries.write {mss : List (List Message)} {last : List Message}
    (hclosed : List.Forall₂ (Holds myId) s.closed mss) (hfd : Holds myId fd last)
    (hsub : (mss.flatten ++ last).Sublist ms) (hm : m.Fits myId) :
    (s.write m fd).Carries myId (ms ++ [m]) := by
  unfold Sender.write
  rcases hfd.doWrite hm with ⟨fd', hw, hfd', -⟩ | ⟨fd', hw, hfd'⟩
  · rw [hw]
    refine ⟨mss, last ++ [m], hclosed, fun fd hmem => ?_, ?_⟩
    · cases hmem
      exact hfd'
    · rw [← List.append_assoc]
      exact hsub.append (List.Sublist.refl _)
  · rw [hw]
    have hclosed' : List.Forall₂ (Holds myId) (s.closed ++ [fd']) (mss ++ [last]) :=
      List.rel_append hclosed (.cons hfd' .nil)
    have hflat : (mss ++ [last]).flatten = mss.flatten ++ last := by simp
    dsimp only
    rcases connectTo_cases { s with fd := none, closed := s.closed ++ [fd'] } with
      ⟨connects, hc⟩ | ⟨answers, connects, hc⟩
    · rw [hc]
      refine ⟨mss ++ [last], [], hclosed', fun fd hmem => (nomatch hmem), ?_⟩
      rw [hflat, List.append_nil]
      exact hsub.trans (List.sublist_append_left _ _)
    · rw [hc]
      dsimp only
      rcases (holds_nil answers).doWrite hm with ⟨fd'', hw', hfd'', -⟩ | ⟨fd'', hw', hfd''⟩
      · refine ⟨mss ++ [last], [m], hclosed', fun fd hmem => ?_, ?_⟩
        · rw [hw'] at hmem
          cases hmem
          exact hfd''
        · rw [hflat]
          exact hsub.append (List.Sublist.refl _)
      · refine ⟨mss ++ [last], [], hclosed', fun fd hmem => ?_, ?_⟩
        · rw [hw'] at hmem
          cases hmem
          exact hfd''
        · rw [hflat, List.append_nil]
          exact hsub.trans (List.sublist_append_left _ _)

theorem Carries.send (h : s.Carries myId ms) (hm : m.Fits myId) :
    (s.send m).Carries myId (ms ++ [m]) := by
  obtain ⟨mss, last, hclosed, hlast, hsub⟩ := h
  unfold Sender.send
  split
  · rename_i fd hfd
    exact Carries.write hclosed (hlast fd hfd) hsub hm
  · have hsub' : (mss.flatten ++ []).Sublist ms := by
      rw [List.append_nil]
      exact (List.sublist_append_left _ _).trans hsub
    rcases connectTo_cases s with ⟨connects, hc⟩ | ⟨answers, connects, hc⟩
    · rw [hc]
      exact ⟨mss, last, hclosed, hlast, hsub.trans (List.sublist_append_left _ _)⟩
    · rw [hc]
      exact Carries.write (s := { s with connects }) hclosed (holds_nil answers) hsub' hm

theorem Carries.sends {rest : List Message} (h : s.Carries myId ms)
    (hrest : ∀ m ∈ rest, m.Fits myId) : (rest.foldl Sender.send s).Carries myId (ms ++ rest) := by
  induction rest generalizing s ms with
  | nil =>
    rw [List.append_nil]
    exact h
  | cons m rest ih =>
    have hnext := ih (h.send (hrest m List.mem_cons_self))
      fun m' hm' => hrest m' (List.mem_cons_of_mem _ hm')
    rwa [List.append_assoc] at hnext

/-- A connection is never taken off the closed ones. -/
theorem closed_write (m : Message) (fd : Socket) (s : Sender) :
    s.closed <+: (s.write m fd).closed := by
  unfold Sender.write
  split
  · exact List.prefix_refl _
  · rename_i fd' _
    rcases connectTo_cases { s with fd := none, closed := s.closed ++ [fd'] } with
      ⟨connects, hc⟩ | ⟨answers, connects, hc⟩
    · rw [hc]
      exact List.prefix_append _ _
    · rw [hc]
      exact List.prefix_append _ _

theorem closed_send (m : Message) (s : Sender) : s.closed <+: (s.send m).closed := by
  unfold Sender.send
  split
  · exact closed_write m _ s
  · rcases connectTo_cases s with ⟨connects, hc⟩ | ⟨answers, connects, hc⟩
    · rw [hc]
    · rw [hc]
      exact closed_write m _ { s with connects }

theorem closed_sends (ms : List Message) (s : Sender) : s.closed <+: (ms.foldl send s).closed := by
  induction ms generalizing s with
  | nil => exact List.prefix_refl _
  | cons m ms ih => exact (closed_send m s).trans (ih (s.send m))

end Sender

/-- The receiver gets some first messages of those that a connection holds. -/
theorem Holds.recvLoop {pieces : List (List UInt8)} (h : Holds myId fd ms)
    (hne : NoEmpty pieces) (hpre : pieces.flatten <+: fd.accepted) :
    (Server.recvLoop myId pieces).Sublist ms := by
  rw [recvLoop_eq myId hne, List.prefix_iff_eq_take.mp hpre]
  generalize pieces.flatten.length = n
  rcases h.accepted with hacc | ⟨-, m, hm, k, hk, hacc⟩
  · obtain ⟨j, -, hscan, -⟩ := Scanner.scan_take_wary (fun m hm => wary (h.fits m hm)) n
    rw [hacc, hscan]
    exact List.take_sublist _ _
  · -- the part of a frame is the first part of one more frame, which is never whole
    have hcut : fd.accepted.take n =
        ((ms ++ [m]).flatMap frame).take (min n ((ms.flatMap frame).length + k)) := by
      rw [hacc, ← List.take_take, List.flatMap_append, List.flatMap_singleton, List.take_append,
        List.take_append, List.take_of_length_le (Nat.le_add_right _ _), Nat.add_sub_cancel_left,
        List.take_append]
    have hwary : ∀ m' ∈ ms ++ [m], (messages myId).Wary frame m' := by
      intro m' hm'
      rcases List.mem_append.mp hm' with hm' | hm'
      · exact wary (h.fits m' hm')
      · cases List.mem_singleton.mp hm'
        exact wary hm
    obtain ⟨j, hj, hscan, hlen⟩ := Scanner.scan_take_wary hwary
      (min n ((ms.flatMap frame).length + k))
    have hle : j ≤ ms.length := by
      refine Nat.le_of_not_lt fun hlt => ?_
      rw [List.take_of_length_le (by rw [List.length_append]; exact hlt), List.flatMap_append,
        List.flatMap_singleton, List.length_append] at hlen
      omega
    rw [hcut, hscan, List.take_append_of_le_length hle]
    exact List.take_sublist _ _

/-- Over all connections together. -/
theorem sublist_of_holds {fds : List Socket} {mss : List (List Message)}
    {inputs : List (List (List UInt8))} (h : List.Forall₂ (Holds myId) fds mss)
    (hin : List.Forall₂ (fun fd pieces => NoEmpty pieces ∧ pieces.flatten <+: fd.accepted)
      fds inputs) : (inputs.flatMap (Server.recvLoop myId)).Sublist mss.flatten := by
  induction h generalizing inputs with
  | nil =>
    cases hin
    exact List.Sublist.refl _
  | cons hfd _ ih =>
    cases hin with
    | cons hpieces hrest =>
      rw [List.flatMap_cons, List.flatten_cons]
      exact (hfd.recvLoop hpieces.1 hpieces.2).append (ih hrest)

theorem Sender.Carries.sublist {s : Sender} {inputs : List (List (List UInt8))}
    (h : s.Carries myId ms)
    (hin : List.Forall₂ (fun fd pieces => NoEmpty pieces ∧ pieces.flatten <+: fd.accepted)
      s.connections inputs) : (inputs.flatMap (Server.recvLoop myId)).Sublist ms := by
  obtain ⟨mss, last, hclosed, hlast, hsub⟩ := h
  unfold connections at hin
  cases hfd : s.fd with
  | none =>
    rw [hfd, Option.toList_none, List.append_nil] at hin
    exact ((sublist_of_holds hclosed hin).trans (List.sublist_append_left _ _)).trans hsub
  | some fd =>
    rw [hfd, Option.toList_some] at hin
    have hall := List.rel_append hclosed (.cons (hlast fd hfd) .nil)
    refine (sublist_of_holds hall hin).trans ?_
    rw [List.flatten_append, List.flatten_singleton]
    exact hsub

/-- If no connection was closed, the one there is has accepted all the frames. -/
theorem Sender.accepted_of_closed {rest : List Message} {s : Sender} (hfd : s.fd = some fd)
    (hacc : fd.accepted = ms.flatMap frame) (hms : ∀ m ∈ ms ++ rest, m.Fits myId)
    (hclosed : (rest.foldl send s).closed = []) {fd' : Socket}
    (hfd' : (rest.foldl send s).fd = some fd') : fd'.accepted = (ms ++ rest).flatMap frame := by
  induction rest generalizing s fd ms with
  | nil =>
    rw [List.append_nil]
    rw [List.foldl_nil, hfd] at hfd'
    cases hfd'
    exact hacc
  | cons m rest ih =>
    have hholds : Holds myId fd ms :=
      ⟨fun m' hm' => hms m' (List.mem_append_left _ hm'), Or.inl hacc⟩
    have hm : m.Fits myId := hms m (List.mem_append_right _ List.mem_cons_self)
    have hsend : s.send m = s.write m fd := by
      unfold send
      rw [hfd]
    have hnil : (s.send m).closed = [] := List.prefix_nil.mp (hclosed ▸ closed_sends rest _)
    rcases hholds.doWrite hm with ⟨fd₁, hw, -, hacc₁⟩ | ⟨fd₁, hw, -⟩
    · have hnext : (s.send m).fd = some fd₁ := by
        rw [hsend, write, hw]
      rw [← List.singleton_append, ← List.append_assoc] at hms ⊢
      exact ih hnext (hacc₁ hacc) hms hclosed hfd'
    · -- a failed write would have closed a connection
      exfalso
      rw [hsend, write, hw] at hnil
      dsimp only at hnil
      rcases connectTo_cases { s with fd := none, closed := s.closed ++ [fd₁] } with
        ⟨connects, hc⟩ | ⟨answers, connects, hc⟩
      · rw [hc] at hnil
        exact List.append_ne_nil_of_right_ne_nil _ (List.cons_ne_nil _ _) hnil
      · rw [hc] at hnil
        exact List.append_ne_nil_of_right_ne_nil _ (List.cons_ne_nil _ _) hnil

end Runs

/-- The frames are read as the messages they are of, if all are within the limit of the receiver:
the first that is not ends the loop. -/
theorem scan_frames_iff {myId : NodeId} {ms : List Message} (hms : ∀ m ∈ ms, m.Fits myId) :
    (messages myId).scan (ms.flatMap frame) = ms ↔ ∀ m ∈ ms, m.payload.length ≤ kPayloadLimit := by
  induction ms with
  | nil => exact iff_of_true (Scanner.scan_none rfl) fun m hm => (nomatch hm)
  | cons m ms ih =>
    obtain ⟨hm, hms⟩ := List.forall_mem_cons.mp hms
    have hnext := nextMessage_frame hm (ms.flatMap frame)
    rw [← next_messages] at hnext
    rw [List.flatMap_cons, List.forall_mem_cons]
    split at hnext
    · rename_i hbig
      rw [Scanner.scan_none hnext]
      exact iff_of_false (List.cons_ne_nil _ _).symm fun h => Nat.not_le.mpr hbig h.1
    · rename_i hsmall
      rw [Scanner.scan_some hnext, List.cons_inj_right, ih hms]
      exact (and_iff_right (Nat.not_lt.mp hsmall)).symm

/-- **Framing.**  Messages of payloads below 4 GiB are sent one after the other to one peer.  If the
first connection is made and none has to be closed, the receiver hands on exactly the messages, in
order, however its reads split the stream, if and only if no payload is above its limit.  And
whatever connections break, after whatever byte, and however much of each the receiver gets, in
whatever pieces: over all connections each message is handed on at most once, and whole. -/
theorem tcp_framing (myId : NodeId) (ms : List Message) (hms : ∀ m ∈ ms, m.Fits myId) :
    (∀ answers connects fd pieces,
      (Sender.sendAll (some answers :: connects) ms).closed = [] →
      (Sender.sendAll (some answers :: connects) ms).fd = some fd →
      NoEmpty pieces → pieces.flatten = fd.accepted →
      (recvLoop myId pieces = ms ↔ ∀ m ∈ ms, m.payload.length ≤ kPayloadLimit)) ∧
    ∀ connects inputs,
      List.Forall₂ (fun fd pieces => NoEmpty pieces ∧ pieces.flatten <+: fd.accepted)
        (Sender.sendAll connects ms).connections inputs →
      (inputs.flatMap (recvLoop myId)).Sublist ms := by
  refine ⟨?_, ?_⟩
  · intro answers connects fd pieces hclosed hfd hne hpieces
    rw [recvLoop_eq myId hne, hpieces]
    cases ms with
    | nil => exact nomatch hfd
    | cons m rest =>
      -- the first message makes the connection
      have hfirst : Sender.sendAll (some answers :: connects) (m :: rest) =
          (m :: rest).foldl Sender.send ⟨some ⟨[], answers⟩, [], connects⟩ := rfl
      rw [hfirst] at hclosed hfd
      have hacc : fd.accepted = ([] ++ m :: rest).flatMap frame :=
        Sender.accepted_of_closed rfl rfl hms hclosed hfd
      rw [hacc]
      exact scan_frames_iff hms
  · intro connects inputs hin
    have hstart : (⟨none, [], connects⟩ : Sender).Carries myId [] :=
      ⟨[], [], .nil, fun fd h => (nomatch h), List.Sublist.refl _⟩
    exact (hstart.sends hms).sublist hin

/-- Two messages of the node 1 to the node 2. -/
def twoMessages : List Message := [⟨1, 2, [7, 8, 9]⟩, ⟨1, 2, []⟩]

/-- One connection takes all.  Or the first breaks in the first payload, and the second in the
second header. -/
theorem tcp_framing_twoMessages :
    recvLoop 2 [[0, 0], [0, 1, 0, 0, 0], [3, 7, 8], [9, 0, 0, 0, 1, 0, 0, 0, 0]] = twoMessages ∧
    (Sender.sendAll [some [8, 8, 1], some [9, 9, 9, 2]] twoMessages).connections =
      [⟨[0, 0, 0, 1, 0, 0, 0, 3, 7], []⟩, ⟨[0, 0, 0, 1, 0, 0, 0, 3, 7, 8, 9, 0, 0], []⟩] ∧
    ([[[0, 0, 0, 1, 0, 0, 0, 3, 7]], [[0, 0, 0, 1, 0, 0, 0, 3, 7, 8, 9], [0, 0]]].flatMap
      (recvLoop 2)).Sublist twoMessages := by
  have hfits : ∀ m ∈ twoMessages, m.Fits 2 := by
    intro m hm
    rcases List.mem_pair.mp hm with rfl | rfl
    · exact ⟨by decide, rfl, by decide⟩
    · exact ⟨by decide, rfl, by decide⟩
  have hconn : (Sender.sendAll [some [8, 8, 1], some [9, 9, 9, 2]] twoMessages).connections =
      [⟨[0, 0, 0, 1, 0, 0, 0, 3, 7], []⟩, ⟨[0, 0, 0, 1, 0, 0, 0, 3, 7, 8, 9, 0, 0], []⟩] := by
    decide
  obtain ⟨hall, hsome⟩ := tcp_framing 2 twoMessages hfits
  refine ⟨?_, hconn, hsome [some [8, 8, 1], some [9, 9, 9, 2]] _ ?_⟩
  · refine (hall [9, 9, 9, 9, 9] []
      ⟨[0, 0, 0, 1, 0, 0, 0, 3, 7, 8, 9, 0, 0, 0, 1, 0, 0, 0, 0], []⟩ _
      (by decide) (by decide) (by decide) (by decide)).mpr (by decide)
  · rw [hconn]
    exact .cons ⟨by decide, by decide⟩ (.cons ⟨by decide, by decide⟩ .nil)

/-! ## A payload above the limit -/

theorem writeLoop_enough {buf : List UInt8} (hbuf : buf ≠ []) (answers : List Nat)
    (accepted : List UInt8) :
    writeLoop (buf.length :: answers) accepted buf = (true, ⟨accepted ++ buf, answers⟩) := by
  cases buf with
  | nil => exact absurd rfl hbuf
  | cons b buf =>
    rw [List.length_cons, writeLoop, ← List.length_cons (a := b), List.take_length,
      List.drop_length, writeLoop]

theorem doWrite_enough {m : Message} (hm : m.payload ≠ []) (accepted : List UInt8)
    (answers : List Nat) :
    doWrite m ⟨accepted, 4 :: 4 :: m.payload.length :: answers⟩ =
      (true, ⟨accepted ++ frame m, answers⟩) := by
  have hword (v : Nat) (answers : List Nat) (accepted : List UInt8) :
      writeAll ⟨accepted, 4 :: answers⟩ (toBe32 v) = (true, ⟨accepted ++ toBe32 v, answers⟩) := by
    have hne : toBe32 v ≠ [] := List.ne_nil_of_length_pos (by simp)
    have h := writeLoop_enough hne answers accepted
    rwa [length_toBe32] at h
  have hpayload (accepted : List UInt8) :
      writeAll ⟨accepted, m.payload.length :: answers⟩ m.payload =
        (true, ⟨accepted ++ m.payload, answers⟩) := writeLoop_enough hm answers accepted
  rw [doWrite, hword]
  dsimp only
  rw [hword]
  dsimp only
  rw [hpayload, frame, List.append_assoc, List.append_assoc]

/-- What is sent behind a payload above the limit is lost with it. -/
theorem recvLoop_oversize {big small : Message} (hfits : big.Fits 2)
    (hbig : big.payload.length > kPayloadLimit) (hsmall : small.payload ≠ []) :
    ∃ fd, Sender.sendAll [some [4, 4, big.payload.length, 4, 4, small.payload.length]]
        [big, small] = ⟨some fd, [], []⟩ ∧
      fd.accepted = frame big ++ frame small ∧ recvLoop 2 [fd.accepted] = [] := by
  have hne : big.payload ≠ [] := List.ne_nil_of_length_pos (Nat.zero_lt_of_lt hbig)
  refine ⟨⟨frame big ++ frame small, []⟩, ?_, rfl, ?_⟩
  · have hfirst : Sender.send ⟨none, [], [some [4, 4, big.payload.length, 4, 4,
        small.payload.length]]⟩ big = ⟨some ⟨frame big, [4, 4, small.payload.length]⟩, [], []⟩ := by
      simp only [Sender.send, Sender.connectTo, Sender.write, doWrite_enough hne, List.nil_append]
    have hsecond : Sender.send ⟨some ⟨frame big, [4, 4, small.payload.length]⟩, [], []⟩ small =
        ⟨some ⟨frame big ++ frame small, []⟩, [], []⟩ := by
      simp only [Sender.send, Sender.write, doWrite_enough hsmall]
    rw [Sender.sendAll, List.foldl_cons, List.foldl_cons, List.foldl_nil, hfirst, hsecond]
  · have hframe : frame big ++ frame small ≠ [] := by
      refine List.ne_nil_of_length_pos ?_
      rw [List.length_append, length_frame]
      omega
    have hpieces : NoEmpty [frame big ++ frame small] := by
      intro piece hpiece
      cases List.mem_singleton.mp hpiece
      exact hframe
    have hnone : (messages 2).next (frame big ++ frame small) = none := by
      rw [next_messages, nextMessage_frame hfits, if_pos hbig]
    rw [recvLoop_eq 2 hpieces, List.flatten_singleton, Scanner.scan_none hnone]

/-- A payload of one byte more than 64 MiB, and one of one byte: both frames are accepted, and no
message is handed on. -/
theorem oversize_payload_lost : ∃ big small fd,
    big.Fits 2 ∧ small.Fits 2 ∧ big.payload.length = 64 * 1024 * 1024 + 1 ∧
    Sender.sendAll [some [4, 4, big.payload.length, 4, 4, 1]] [big, small] = ⟨some fd, [], []⟩ ∧
    fd.accepted = frame big ++ frame small ∧ recvLoop 2 [fd.accepted] = [] := by
  have hlen := List.length_replicate (n := 64 * 1024 * 1024 + 1) (a := (0 : UInt8))
  generalize List.replicate (64 * 1024 * 1024 + 1) (0 : UInt8) = payload at hlen
  have hword : payload.length < 2 ^ 32 := by omega
  have hbig : (⟨1, 2, payload⟩ : Message).Fits 2 := ⟨Nat.one_lt_two_pow (by decide), rfl, hword⟩
  have hlimit : payload.length > kPayloadLimit := by
    rw [hlen]
    decide
  have hsmall : (⟨1, 2, [7]⟩ : Message).payload ≠ [] := List.cons_ne_nil _ _
  obtain ⟨fd, hsend, hacc, hrecv⟩ := recvLoop_oversize hbig hlimit hsmall
  exact ⟨⟨1, 2, payload⟩, ⟨1, 2, [7]⟩, fd, hbig, ⟨by decide, rfl, by decide⟩, hlen, hsend, hacc,
    hrecv⟩

end SimKV.Server
