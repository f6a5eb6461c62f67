/-
# `server/server.cpp`: the client protocol

`handle_client` reads a line with `fgets` into a buffer of 4096 bytes, trims it, takes
words off it, makes at most one call of the node, waits for the answer, and writes it.
What the node answers, and whether it does, is data of the connection: each call is
posted to the thread of the node, and between two calls anything may happen there.  A
call whose callback is never invoked leaves the handler waiting.

The stream opened with `"r+"` is one stream, for both directions.  When a response is written
while the C library has read more than the handler has asked for, the library repositions
the file first, and a socket cannot be repositioned: nothing is written.  A response that fits
the library's buffer stays there, and the next `fgets`, which has to write it out before it
can read, returns `NULL`; a longer one is dropped.  So it matters in which pieces the bytes
of the client arrive, one for each `read`.

`session` says what the protocol is: one exchange for each line, read off its words.
The handler keeps to it exactly if the lines fit the buffer with their newline and no piece
has anything behind a newline (`client_lines_framed`).  A longer line is read in parts and
every part is a command (`long_line_split`); of two lines that arrive together, the first is
not answered and the second is not read.
-/
import Mathlib.Data.List.DropRight
import SimKV.Lib.Lines
import SimKV.Lib.OrdMap
import SimKV.Raft.Types

namespace SimKV.Server

open Lines

/-! ## Calls and answers -/

structure PeerAddr where
  host : Str
  port : Nat
deriving DecidableEq, Repr

inductive Call where
  | submit (cmd : Command)
  | readIndex (key : Str)
deriving DecidableEq, Repr

/-- `submit` returned false, `leader_id()` being `leader`; or its callback was given a result. -/
inductive SubmitOutcome where
  | refused (leader : Option NodeId)
  | answered (r : CmdResult)

inductive ReadOutcome where
  | refused (leader : Option NodeId)
  | answered (success : Bool) (val : Option Str) (leader : Option NodeId)

/-- A connection: the addresses for redirects, and what becomes of its `n`-th call; `none` if the
callback is never invoked. -/
structure Connection where
  clientPeers : OrdMap NodeId PeerAddr
  submit : Nat → Command → Option SubmitOutcome
  readIndex : Nat → Str → Option ReadOutcome

def cat (l : List Str) : Str := ⟨l.flatMap Str.bytes⟩

def notLeaderResponse (clientPeers : OrdMap NodeId PeerAddr) (leader : Option NodeId) : Str :=
  match leader.bind clientPeers.find? with
  | some addr => cat [.lit "-REDIRECT ", addr.host, .lit ":", .lit (Nat.repr addr.port), .lit "\n"]
  | none => .lit "-ERR not_leader\n"

namespace Connection

def submitResponse (c : Connection) : SubmitOutcome → Str
  | .refused leader => notLeaderResponse c.clientPeers leader
  | .answered r => if r.ok then .lit "+OK\n" else cat [.lit "-ERR ", r.error, .lit "\n"]

def readResponse (c : Connection) : ReadOutcome → Str
  | .refused leader => notLeaderResponse c.clientPeers leader
  | .answered success val leader =>
    if !success then notLeaderResponse c.clientPeers leader
    else match val with
      | some v => cat [.lit "+", v, .lit "\n"]
      | none => .lit "-NOT_FOUND\n"

/-- Post the call, the `n`-th, and wait for its answer. -/
def perform (c : Connection) (n : Nat) : Call → Option Str
  | .submit cmd => (c.submit n cmd).map c.submitResponse
  | .readIndex key => (c.readIndex n key).map c.readResponse

end Connection

/-! ## Commands -/

/-- What a line asks for: a call, or nothing but a response. -/
inductive Request where
  | call (c : Call)
  | reject (response : Str)
deriving DecidableEq, Repr

def badCommand : Request := .reject (.lit "-ERR bad_command\n")

def unknownCommand : Request := .reject (.lit "-ERR unknown_command\n")

/-- `isspace` of the C locale. -/
def isspace (b : UInt8) : Bool := (9 ≤ b && b ≤ 13) || b == 32

/-- The part of the loop that reads `cmd`, `key` and `val` off the line. -/
def request (line : List UInt8) : Request :=
  match extract isspace line with
  | none => unknownCommand
  | some (cmd, iss) =>
    if cmd = (Str.lit "PUT").bytes then
      match extract isspace iss with
      | none => badCommand
      | some (key, iss) =>
        match extract isspace iss with
        | none => badCommand
        | some (val, _) => .call (.submit (.put ⟨key⟩ ⟨val⟩))
    else if cmd = (Str.lit "DEL").bytes then
      match extract isspace iss with
      | none => badCommand
      | some (key, _) => .call (.submit (.delete ⟨key⟩))
    else if cmd = (Str.lit "GET").bytes then
      match extract isspace iss with
      | none => badCommand
      | some (key, _) => .call (.readIndex ⟨key⟩)
    else unknownCommand

/-- The command that the words of a line are. -/
def Request.ofWords : List (List UInt8) → Request
  | [] => unknownCommand
  | cmd :: args =>
    if cmd = (Str.lit "PUT").bytes then
      match args with
      | key :: val :: _ => .call (.submit (.put ⟨key⟩ ⟨val⟩))
      | _ => badCommand
    else if cmd = (Str.lit "DEL").bytes then
      match args with
      | key :: _ => .call (.submit (.delete ⟨key⟩))
      | _ => badCommand
    else if cmd = (Str.lit "GET").bytes then
      match args with
      | key :: _ => .call (.readIndex ⟨key⟩)
      | _ => badCommand
    else unknownCommand

/-- The words are read off the whole line. -/
theorem request_eq (line : List UInt8) : request line = .ofWords (words isspace line) := by
  rw [request, words_eq line]
  cases extract isspace line with
  | none => rfl
  | some p =>
    obtain ⟨cmd, iss⟩ := p
    dsimp only [Request.ofWords]
    rw [words_eq iss]
    cases extract isspace iss with
    | none => rfl
    | some p =>
      obtain ⟨key, iss'⟩ := p
      dsimp only
      rw [words_eq iss']
      cases extract isspace iss' with
      | none => rfl
      | some p => rfl

/-! ## The loop -/

def newline : UInt8 := 10

/-- The stream `f`: what the C library has read and not handed out, and what its later reads will
return, until the client has closed. -/
structure Stream where
  buffer : List UInt8
  arrivals : List (List UInt8)
deriving DecidableEq, Repr

/-- All that is still to be handed out. -/
def Stream.unread (f : Stream) : List UInt8 := f.buffer ++ f.arrivals.flatten

/-- `fgets` with a buffer of `size` bytes, one of them for the NUL; `none` at the end. -/
def fgets (size : Nat) (f : Stream) : Option (List UInt8 × Stream) :=
  let p := pull newline (size - 1) f.buffer f.arrivals
  if p.1 = [] then none else some (p.1, ⟨p.2.1, p.2.2⟩)

/-- `strlen`, and the loop that trims. -/
def trim (line : List UInt8) : List UInt8 :=
  (line.takeWhile (· != 0)).rdropWhile fun b => b == newline || b == 13

/-- One line: the call it made, and what was sent; `none` if nothing was. -/
structure Exchange where
  call : Option Call
  response : Option (List UInt8)
deriving DecidableEq, Repr

/-- What `fputs` takes of a response. -/
def fputs (response : Str) : List UInt8 := response.bytes.takeWhile (· != 0)

/-- What becomes of a response.  `stuck` is in the library's buffer for good, and no `fgets`
succeeds any more. -/
inductive Sending where
  | sent
  | dropped
  | stuck
deriving DecidableEq, Repr

/-- The size of the library's buffer. -/
def kBlock : Nat := 4096

/-- `fputs` and `fflush`, on a socket. -/
def Stream.fflush (f : Stream) (response : List UInt8) : Sending :=
  if f.buffer = [] ∨ response = [] then .sent
  else if response.length < kBlock then .stuck
  else .dropped

def exchange (c : Connection) (n : Nat) : Request → Exchange
  | .reject response => ⟨none, some (fputs response)⟩
  | .call call => ⟨some call, (c.perform n call).map fputs⟩

/-- The number of the next call. -/
def Exchange.next (x : Exchange) (n : Nat) : Nat := if x.call.isSome then n + 1 else n

/-- A line that is read is part of what was unread. -/
theorem chunk_of_fgets {size : Nat} {f f' : Stream} {line : List UInt8}
    (h : fgets size f = some (line, f')) :
    f.unread ≠ [] ∧ chunk newline (size - 1) f.unread = (line, f'.unread) := by
  unfold fgets at h
  dsimp only at h
  split at h
  · exact absurd h (by simp)
  · rename_i hne
    cases h
    have hline := pull_line newline (size - 1) f.buffer f.arrivals
    have hrest := pull_rest newline (size - 1) f.buffer f.arrivals
    refine ⟨fun hnil => hne ?_, Prod.ext hline.symm hrest.symm⟩
    rw [hline]
    change (chunk newline (size - 1) f.unread).1 = []
    rw [hnil]
    cases size - 1 <;> rfl

theorem fgets_shorter {f f' : Stream} {line : List UInt8} (h : fgets 4096 f = some (line, f')) :
    f'.unread.length < f.unread.length := by
  obtain ⟨hne, hread⟩ := chunk_of_fgets h
  have hlt : (chunk newline (4094 + 1) f.unread).2.length < f.unread.length := chunk_shorter hne
  rwa [hread] at hlt

/-- The rest of the connection, when `n` calls have been made. -/
def handleClient (c : Connection) (n : Nat) (f : Stream) : List Exchange :=
  match _h : fgets 4096 f with
  | none => []
  | some (line, f') =>
    let x := exchange c n (request (trim line))
    match x.response with
    | none => [x]
    | some response =>
      match f'.fflush response with
      | .sent => x :: handleClient c (x.next n) f'
      | .dropped => ⟨x.call, none⟩ :: handleClient c (x.next n) f'
      | .stuck => [⟨x.call, none⟩]
termination_by f.unread.length
decreasing_by
  all_goals exact fgets_shorter _h

/-! ## Framing -/

/-- The protocol: one exchange for each line, up to the first call that is never answered. -/
def session (c : Connection) : Nat → List (List UInt8) → List Exchange
  | _, [] => []
  | n, line :: lines =>
    let x := exchange c n (.ofWords (words isspace line))
    x :: if x.response.isSome then session c (x.next n) lines else []

section Framing

variable {c : Connection} {n : Nat}

/-- What is trimmed is space. -/
theorem words_trim {line : List UInt8} (h0 : 0 ∉ line) :
    words isspace (trim line) = words isspace line := by
  have hline : line.takeWhile (· != 0) = line := by
    rw [List.takeWhile_eq_self_iff]
    intro b hb
    exact bne_iff_ne.mpr fun h => h0 (h ▸ hb)
  have hsplit : trim line ++ line.rtakeWhile (fun b => b == newline || b == 13) = line := by
    rw [trim, hline]
    exact List.rdropWhile_append_rtakeWhile
  conv_rhs => rw [← hsplit]
  refine (words_append_of_space fun b hb => ?_).symm
  have hb := List.mem_rtakeWhile_imp hb
  simp only [Bool.or_eq_true, beq_iff_eq] at hb
  rcases hb with rfl | rfl
  · rfl
  · rfl

/-- The loop when every response is sent: only the bytes matter. -/
def undisturbed (c : Connection) (n : Nat) (bytes : List UInt8) : List Exchange :=
  if _h : bytes = [] then []
  else
    let x := exchange c n (.ofWords (words isspace (chunk newline 4095 bytes).1))
    x :: if x.response.isSome then undisturbed c (x.next n) (chunk newline 4095 bytes).2 else []
termination_by bytes.length
decreasing_by exact chunk_shorter _h

/-- One round of the loop. -/
theorem undisturbed_read {bytes line rest : List UInt8} (hne : bytes ≠ [])
    (h : chunk newline 4095 bytes = (line, rest)) :
    undisturbed c n bytes =
      exchange c n (.ofWords (words isspace line)) ::
        if (exchange c n (.ofWords (words isspace line))).response.isSome then
          undisturbed c ((exchange c n (.ofWords (words isspace line))).next n) rest else [] := by
  rw [undisturbed, dif_neg hne, h]

theorem undisturbed_nil : undisturbed c n [] = [] := by
  rw [undisturbed, dif_pos rfl]

/-- What the client sends as commands: its lines, and what follows the last newline, if anything
does. -/
def commandLines (stream : List UInt8) : List (List UInt8) :=
  (lines newline stream).1 ++
    if (lines newline stream).2 = [] then [] else [(lines newline stream).2]

theorem undisturbed_last {last : List UInt8} (hnl : newline ∉ last)
    (hlen : last.length ≤ 4095) :
    undisturbed c n last = session c n (if last = [] then [] else [last]) := by
  split
  · rename_i hnil
    subst hnil
    rw [undisturbed_nil]
    rfl
  · rename_i hne
    rw [undisturbed_read hne (chunk_last hnl hlen), undisturbed_nil]
    rfl

/-- Lines that fit, and a last one without a newline. -/
theorem undisturbed_lines {ls : List (List UInt8)} {last : List UInt8}
    (hls : ∀ line ∈ ls, newline ∉ line ∧ line.length ≤ 4094)
    (hlast : newline ∉ last ∧ last.length ≤ 4095) :
    undisturbed c n (ls.flatMap (· ++ [newline]) ++ last) =
      session c n (ls ++ if last = [] then [] else [last]) := by
  induction ls generalizing n with
  | nil => exact undisturbed_last hlast.1 hlast.2
  | cons line ls ih =>
    obtain ⟨hnl, hlen⟩ := hls line List.mem_cons_self
    have hstream : (line :: ls).flatMap (· ++ [newline]) ++ last =
        line ++ newline :: (ls.flatMap (· ++ [newline]) ++ last) := by
      simp
    have hwords : words isspace (line ++ [newline]) = words isspace line :=
      words_append_of_space fun b hb => by
        cases List.mem_singleton.mp hb
        rfl
    rw [hstream, undisturbed_read (by simp) (chunk_line hnl (Nat.lt_succ_of_le hlen) _), hwords,
      ih fun l hl => hls l (List.mem_cons_of_mem _ hl)]
    rfl

theorem exchange_answered (hans : ∀ n call, (c.perform n call).isSome = true) (n : Nat)
    (r : Request) : (exchange c n r).response.isSome = true := by
  cases r with
  | reject response => rfl
  | call call =>
    rw [exchange, Option.isSome_map]
    exact hans n call

/-- If every call is answered, the lines and the exchanges correspond. -/
theorem session_forall₂ (hans : ∀ n call, (c.perform n call).isSome = true)
    (ls : List (List UInt8)) :
    List.Forall₂ (fun line x => ∃ n, x = exchange c n (.ofWords (words isspace line)) ∧
      x.response.isSome = true) ls (session c n ls) := by
  induction ls generalizing n with
  | nil => exact .nil
  | cons line ls ih =>
    have hsome := exchange_answered hans n (.ofWords (words isspace line))
    rw [session, if_pos hsome]
    exact .cons ⟨n, rfl, hsome⟩ ih

/-- The lines fit the buffer with their newline and the NUL, the last one with the NUL. -/
def FitsBuffer (stream : List UInt8) : Prop :=
  (∀ line ∈ (lines newline stream).1, line.length ≤ 4094) ∧ (lines newline stream).2.length ≤ 4095

instance (stream : List UInt8) : Decidable (FitsBuffer stream) :=
  inferInstanceAs (Decidable (_ ∧ _))

theorem undisturbed_fits {stream : List UInt8} (hfits : FitsBuffer stream) :
    undisturbed c n stream = session c n (commandLines stream) := by
  have hnl := notMem_lines newline stream
  conv_lhs => rw [← lines_append newline stream]
  exact undisturbed_lines (fun line h => ⟨hnl.1 line h, hfits.1 line h⟩) ⟨hnl.2, hfits.2⟩

/-! Every read is answered, so a line that is read in two pieces is answered twice. -/

theorem undisturbed_answered (hans : ∀ n call, (c.perform n call).isSome = true)
    {bytes line rest : List UInt8} (hne : bytes ≠ [])
    (h : chunk newline 4095 bytes = (line, rest)) :
    ∃ x n', undisturbed c n bytes = x :: undisturbed c n' rest := by
  rw [undisturbed_read hne h, if_pos (exchange_answered hans _ _)]
  exact ⟨_, _, rfl⟩

theorem commandLines_line {line : List UInt8} (hnl : newline ∉ line) (rest : List UInt8) :
    commandLines (line ++ newline :: rest) = line :: commandLines rest := by
  rw [commandLines, lines_line hnl]
  rfl

theorem commandLines_last {last : List UInt8} (hnl : newline ∉ last) (hne : last ≠ []) :
    commandLines last = [last] := by
  rw [commandLines, lines_last hnl, if_neg hne, List.nil_append]

/-- A part of a line, in front of more, is no line. -/
theorem length_commandLines_part {part rest : List UInt8} (hnl : newline ∉ part) (hne : rest ≠ []) :
    (commandLines (part ++ rest)).length = (commandLines rest).length := by
  by_cases hmem : newline ∈ rest
  · obtain ⟨line, rest, rfl, hline⟩ := List.eq_append_cons_of_mem hmem
    have hboth : newline ∉ part ++ line := by
      rw [List.mem_append]
      exact not_or.mpr ⟨hnl, hline⟩
    rw [← List.append_assoc, commandLines_line hboth, commandLines_line hline]
    rfl
  · have hboth : newline ∉ part ++ rest := by
      rw [List.mem_append]
      exact not_or.mpr ⟨hnl, hmem⟩
    rw [commandLines_last hboth (List.append_ne_nil_of_right_ne_nil _ hne),
      commandLines_last hmem hne]
    rfl

/-- There are as many reads as lines, if the lines fit, and more if they do not.  Induction on what
is left: a read is a line, or the rest of the stream, or it has filled the buffer, and then what
follows is as many lines as before. -/
theorem length_commandLines_le (hans : ∀ n call, (c.perform n call).isSome = true)
    (stream : List UInt8) :
    (commandLines stream).length ≤ (undisturbed c n stream).length ∧
      ((commandLines stream).length = (undisturbed c n stream).length → FitsBuffer stream) := by
  induction hlen : stream.length using Nat.strongRecOn generalizing stream n with
  | _ k ih =>
    subst hlen
    by_cases hne : stream = []
    · subst hne
      exact ⟨Nat.zero_le _, fun _ => by decide⟩
    · rcases chunk_cases newline 4095 stream with ⟨line, rest, hnl, hline, rfl⟩ | ⟨hnl, hlast⟩ |
        ⟨part, rest, hnl, hpart, hrest, rfl⟩
      · obtain ⟨x, n', hx⟩ := undisturbed_answered (n := n) hans hne (chunk_line hnl hline rest)
        obtain ⟨hle, hfits⟩ := ih rest.length
          (by rw [List.length_append, List.length_cons]; omega) (n := n') rest rfl
        rw [hx, commandLines_line hnl, List.length_cons, List.length_cons]
        refine ⟨Nat.succ_le_succ hle, fun heq => ?_⟩
        obtain ⟨hlines, hend⟩ := hfits (Nat.succ.inj heq)
        rw [FitsBuffer, lines_line hnl]
        exact ⟨List.forall_mem_cons.mpr ⟨Nat.le_of_lt_succ hline, hlines⟩, hend⟩
      · obtain ⟨x, n', hx⟩ := undisturbed_answered (n := n) hans hne (chunk_last hnl hlast)
        rw [hx, commandLines_last hnl hne, FitsBuffer, lines_last hnl]
        exact ⟨Nat.succ_le_succ (Nat.zero_le _), fun _ => ⟨fun line h => (nomatch h), hlast⟩⟩
      · have hread : chunk newline 4095 (part ++ rest) = (part, rest) := by
          rw [← chunk_full hnl rest, hpart]
        obtain ⟨x, n', hx⟩ := undisturbed_answered (n := n) hans hne hread
        obtain ⟨hle, -⟩ := ih rest.length (by rw [List.length_append]; omega) (n := n') rest rfl
        rw [hx, length_commandLines_part hnl hrest, List.length_cons]
        exact ⟨Nat.le_succ_of_le hle, fun heq => absurd hle (by omega)⟩

/-! ### Responses that are sent -/

/-- Every response begins with a byte that is not NUL. -/
theorem fputs_cat_ne_nil (s : Str) (l : List Str) (b : UInt8) (bs : List UInt8)
    (hs : s.bytes = b :: bs) (hb : b ≠ 0) : fputs (cat (s :: l)) ≠ [] := by
  rw [fputs, cat, List.flatMap_cons, hs, List.cons_append, List.takeWhile_cons,
    if_pos (bne_iff_ne.mpr hb)]
  exact List.cons_ne_nil _ _

theorem fputs_notLeader_ne_nil (peers : OrdMap NodeId PeerAddr) (leader : Option NodeId) :
    fputs (notLeaderResponse peers leader) ≠ [] := by
  unfold notLeaderResponse
  split
  · exact fputs_cat_ne_nil _ _ _ _ rfl (by decide)
  · decide

theorem exchange_response_ne_nil {ws : List (List UInt8)} {response : List UInt8}
    (h : (exchange c n (.ofWords ws)).response = some response) : response ≠ [] := by
  cases hr : Request.ofWords ws with
  | reject r =>
    have hrej : r = .lit "-ERR bad_command\n" ∨ r = .lit "-ERR unknown_command\n" := by
      revert hr
      fun_cases Request.ofWords ws <;>
        simp only [badCommand, unknownCommand, Request.reject.injEq, reduceCtorEq,
          false_implies] <;>
        rintro rfl <;> simp
    rw [hr] at h
    cases h
    rcases hrej with rfl | rfl <;> decide
  | call call =>
    rw [hr, exchange] at h
    obtain ⟨r, hperf, rfl⟩ := Option.map_eq_some_iff.mp h
    cases call with
    | submit cmd =>
      obtain ⟨o, -, rfl⟩ := Option.map_eq_some_iff.mp hperf
      cases o with
      | refused leader => exact fputs_notLeader_ne_nil _ _
      | answered r =>
        dsimp only [Connection.submitResponse]
        split
        · decide
        · exact fputs_cat_ne_nil _ _ _ _ rfl (by decide)
    | readIndex key =>
      obtain ⟨o, -, rfl⟩ := Option.map_eq_some_iff.mp hperf
      cases o with
      | refused leader => exact fputs_notLeader_ne_nil _ _
      | answered success val leader =>
        dsimp only [Connection.readResponse]
        split
        · exact fputs_notLeader_ne_nil _ _
        · cases val with
          | none => decide
          | some v => exact fputs_cat_ne_nil _ _ _ _ rfl (by decide)

theorem notMem_of_unread {f f' : Stream} {line : List UInt8} (h0 : 0 ∉ f.unread)
    (hread : chunk newline 4095 f.unread = (line, f'.unread)) : 0 ∉ line ∧ 0 ∉ f'.unread := by
  have happ := chunk_append newline 4095 f.unread
  rw [hread] at happ
  rw [← happ, List.mem_append, not_or] at h0
  exact h0

theorem handleClient_end {f : Stream} (h : f.unread = []) : handleClient c n f = [] := by
  rw [handleClient]
  split
  · rfl
  · rename_i hread
    exact absurd h (chunk_of_fgets hread).1

/-- One round of the loop, if nothing is left in the buffer. -/
theorem handleClient_sent {f f' : Stream} {line : List UInt8}
    (h : fgets 4096 f = some (line, f')) (h0 : 0 ∉ line) (hbuf : f'.buffer = []) :
    handleClient c n f =
      exchange c n (.ofWords (words isspace line)) ::
        if (exchange c n (.ofWords (words isspace line))).response.isSome then
          handleClient c ((exchange c n (.ofWords (words isspace line))).next n) f' else [] := by
  have hsent : ∀ r, f'.fflush r = .sent := fun r => if_pos (Or.inl hbuf)
  rw [handleClient]
  split
  · rename_i h'
    rw [h] at h'
    exact absurd h' (by simp)
  · rename_i h'
    rw [h] at h'
    cases h'
    dsimp only
    rw [request_eq, words_trim h0]
    cases (exchange c n (.ofWords (words isspace line))).response with
    | none => rfl
    | some r =>
      dsimp only
      rw [hsent]
      rfl

/-- One round of the loop, if something is left: what the line asks for is done, and not
answered. -/
theorem handleClient_unsent {f f' : Stream} {line : List UInt8}
    (h : fgets 4096 f = some (line, f')) (h0 : 0 ∉ line) (hbuf : f'.buffer ≠ []) :
    ∃ x ∈ handleClient c n f, x.response = none := by
  have hlost : ∀ r, r ≠ [] → f'.fflush r ≠ .sent := by
    intro r hr hsent
    unfold Stream.fflush at hsent
    rw [if_neg (not_or.mpr ⟨hbuf, hr⟩)] at hsent
    split at hsent <;> cases hsent
  rw [handleClient]
  split
  · rename_i h'
    rw [h] at h'
    exact absurd h' (by simp)
  · rename_i h'
    rw [h] at h'
    cases h'
    dsimp only
    rw [request_eq, words_trim h0]
    cases hr : (exchange c n (.ofWords (words isspace line))).response with
    | none => exact ⟨_, List.mem_singleton_self _, hr⟩
    | some r =>
      dsimp only
      cases hf : f'.fflush r with
      | sent => exact absurd hf (hlost r (exchange_response_ne_nil hr))
      | dropped => exact ⟨_, List.mem_cons_self, rfl⟩
      | stuck => exact ⟨_, List.mem_cons_self, rfl⟩

theorem pull_of_fgets {f f' : Stream} {line : List UInt8} (h : fgets 4096 f = some (line, f')) :
    pull newline 4095 f.buffer f.arrivals = (line, f'.buffer, f'.arrivals) := by
  unfold fgets at h
  dsimp only at h
  split at h
  · exact absurd h (by simp)
  · cases h
    rfl

/-- If nothing is left in the buffer, the line is made of whole arrivals. -/
theorem fgets_pieces {f f' : Stream} {line : List UInt8} (h : fgets 4096 f = some (line, f'))
    (hbuf : f'.buffer = []) :
    ∃ taken, f.buffer :: f.arrivals = taken ++ f'.arrivals ∧ taken.flatten = line := by
  have hpull := pull_of_fgets h
  have hnil : (pull newline 4095 f.buffer f.arrivals).2.1 = [] := by
    rw [hpull]
    exact hbuf
  have hpieces := pull_pieces hnil
  rwa [hpull] at hpieces

theorem exists_fgets {f : Stream} (h : f.unread ≠ []) :
    ∃ line f', fgets 4096 f = some (line, f') := by
  have hline : (pull newline 4095 f.buffer f.arrivals).1 ≠ [] := by
    rw [pull_line]
    change (chunk newline 4095 f.unread).1 ≠ []
    cases hf : f.unread with
    | nil => exact absurd hf h
    | cons a s =>
      rw [chunk]
      split <;> exact List.cons_ne_nil _ _
  exact ⟨_, _, if_neg hline⟩

/-- A part of a line that fills the buffer, in front of more, is of a line that is too long. -/
theorem not_fitsBuffer {part rest : List UInt8} (hnl : newline ∉ part) (hlen : part.length = 4095)
    (hne : rest ≠ []) : ¬ FitsBuffer (part ++ rest) := by
  intro hfits
  by_cases hmem : newline ∈ rest
  · obtain ⟨line, more, rfl, hline⟩ := List.eq_append_cons_of_mem hmem
    have hboth : newline ∉ part ++ line := by
      rw [List.mem_append]
      exact not_or.mpr ⟨hnl, hline⟩
    rw [← List.append_assoc, FitsBuffer, lines_line hboth] at hfits
    have := hfits.1 _ List.mem_cons_self
    rw [List.length_append] at this
    omega
  · have hboth : newline ∉ part ++ rest := by
      rw [List.mem_append]
      exact not_or.mpr ⟨hnl, hmem⟩
    rw [FitsBuffer, lines_last hboth, List.length_append] at hfits
    have := List.length_pos_of_ne_nil hne
    omega

/-- If no line is too long and no arrival has anything behind a newline, every response is sent.
Induction on what is unread: each read leaves the buffer empty. -/
theorem handleClient_paced {f : Stream} (h0 : 0 ∉ f.unread) (hfits : FitsBuffer f.unread)
    (hp : Paced newline (f.buffer :: f.arrivals)) :
    handleClient c n f = undisturbed c n f.unread := by
  induction hlen : f.unread.length using Nat.strongRecOn generalizing f n with
  | _ k ih =>
    subst hlen
    by_cases hne : f.unread = []
    · rw [handleClient_end hne, hne, undisturbed_nil]
    · obtain ⟨line, f', hget⟩ := exists_fgets hne
      obtain ⟨-, hread⟩ := chunk_of_fgets hget
      obtain ⟨hz, hz'⟩ := notMem_of_unread h0 hread
      have hlt := fgets_shorter hget
      have hrest : f'.buffer = [] ∧ FitsBuffer f'.unread := by
        rcases chunk_cases newline 4095 f.unread with ⟨l, rest, hnl, hl, heq⟩ | ⟨hnl, hlast⟩ |
          ⟨part, rest, hnl, hpart, hrest, heq⟩
        · rw [heq, chunk_line hnl hl] at hread
          obtain ⟨rfl, hr⟩ := Prod.mk.inj hread
          rw [heq, FitsBuffer, lines_line hnl] at hfits
          refine ⟨?_, hr ▸ ⟨fun x hx => hfits.1 x (List.mem_cons_of_mem _ hx), hfits.2⟩⟩
          have hempty := pull_empty (n := 4095) hp
          rw [pull_of_fgets hget] at hempty
          exact hempty (List.mem_append_right _ (List.mem_singleton_self _))
        · rw [chunk_last hnl hlast] at hread
          have hr : f'.unread = [] := (Prod.mk.inj hread).2.symm
          exact ⟨(List.append_eq_nil_iff.mp hr).1, hr ▸ by decide⟩
        · rw [heq] at hfits
          exact absurd hfits (not_fitsBuffer hnl hpart hrest)
      obtain ⟨taken, hsplit, -⟩ := fgets_pieces hget hrest.1
      have hp' : Paced newline (f'.buffer :: f'.arrivals) := by
        intro a ha
        rcases List.mem_cons.mp ha with rfl | ha
        · rw [hrest.1]
          exact List.not_mem_nil
        · exact hp a (hsplit ▸ List.mem_append_right _ ha)
      rw [handleClient_sent hget hz hrest.1, undisturbed_read hne hread,
        ih _ hlt hz' hrest.2 hp' rfl]

/-- If every line is answered, every read has left the buffer empty. -/
theorem paced_of_answered {f : Stream} (h0 : 0 ∉ f.unread)
    (hall : ∀ x ∈ handleClient c n f, x.response.isSome = true) :
    Paced newline (f.buffer :: f.arrivals) ∧ handleClient c n f = undisturbed c n f.unread := by
  induction hlen : f.unread.length using Nat.strongRecOn generalizing f n with
  | _ k ih =>
    subst hlen
    by_cases hne : f.unread = []
    · refine ⟨fun a ha => ?_, by rw [handleClient_end hne, hne, undisturbed_nil]⟩
      have hnil : ∀ x ∈ f.buffer :: f.arrivals, x = [] := by
        rw [← List.flatten_eq_nil_iff, List.flatten_cons]
        exact hne
      rw [hnil a ha]
      exact List.not_mem_nil
    · obtain ⟨line, f', hget⟩ := exists_fgets hne
      obtain ⟨-, hread⟩ := chunk_of_fgets hget
      obtain ⟨hz, hz'⟩ := notMem_of_unread h0 hread
      have hlt := fgets_shorter hget
      have hbuf : f'.buffer = [] := by
        by_contra hbuf
        obtain ⟨x, hx, hnone⟩ := handleClient_unsent (c := c) (n := n) hget hz hbuf
        have hsome := hall x hx
        rw [hnone] at hsome
        cases hsome
      have hsent := handleClient_sent (c := c) (n := n) hget hz hbuf
      rw [hsent] at hall
      have hfirst := hall _ List.mem_cons_self
      rw [if_pos hfirst] at hall hsent
      obtain ⟨hp, hrest⟩ := ih _ hlt hz' (fun x hx => hall x (List.mem_cons_of_mem _ hx)) rfl
      obtain ⟨taken, hsplit, hflat⟩ := fgets_pieces hget hbuf
      refine ⟨?_, by rw [hsent, undisturbed_read hne hread, if_pos hfirst, hrest]⟩
      have htaken : Paced newline taken := by
        refine paced_of_flatten ?_
        rw [hflat]
        have := notMem_chunk_dropLast newline 4095 f.unread
        rwa [hread] at this
      rw [hsplit]
      intro a ha
      rcases List.mem_append.mp ha with ha | ha
      · exact htaken a ha
      · exact hp a (List.mem_cons_of_mem _ ha)

end Framing

/-! ## Lines that are not framed -/

/-- A leader that has everything committed at once. -/
def committing : Connection where
  clientPeers := .empty
  submit _ _ := some (.answered ⟨true, .lit "", .lit ""⟩)
  readIndex _ _ := some (.answered true none none)

/-- Four commands, each sent when the one before it is answered: the first comes in two pieces and
ends with CR LF, the second is empty, the last has no newline. -/
def smallTalk : List (List UInt8) :=
  [(Str.lit "PUT k").bytes, (Str.lit " v\r\n").bytes, (Str.lit "\n").bytes,
    (Str.lit "DEL k\n").bytes, (Str.lit "GET").bytes]

/-- A value that fills the buffer. -/
def filler : List UInt8 := List.replicate 4089 97

/-- One line, whose value has 4092 bytes. -/
def longLine : List UInt8 :=
  (Str.lit "PUT k ").bytes ++ filler ++ (Str.lit "DEL k").bytes

theorem words_put {val rest : List UInt8} (hne : val ≠ []) (hval : ∀ b ∈ val, isspace b = false)
    (hrest : ∀ b ∈ rest.head?, isspace b = true) :
    words isspace ((Str.lit "PUT k ").bytes ++ (val ++ rest)) =
      (Str.lit "PUT").bytes :: (Str.lit "k").bytes :: val :: words isspace rest := by
  have hwords : words isspace (Str.lit "PUT k").bytes =
      [(Str.lit "PUT").bytes, (Str.lit "k").bytes] := by decide
  have hcut : (Str.lit "PUT k ").bytes ++ (val ++ rest) =
      (Str.lit "PUT k").bytes ++ 32 :: (val ++ rest) := rfl
  rw [hcut, words_append_cons rfl, hwords, words_word hne hval hrest]
  rfl

theorem mem_filler {b : UInt8} (hb : b ∈ filler) : b = 97 := List.eq_of_mem_replicate hb

/-- The line and its newline, as they arrive: the first piece is what the buffer of the handler
holds. -/
def longPieces : List (List UInt8) :=
  [(Str.lit "PUT k ").bytes ++ filler, (Str.lit "DEL k\n").bytes]

theorem fgets_longPieces : fgets 4096 ⟨[], longPieces⟩ =
    some ((Str.lit "PUT k ").bytes ++ filler, ⟨[], [(Str.lit "DEL k\n").bytes]⟩) := by
  have hnl : newline ∉ (Str.lit "PUT k ").bytes ++ filler := by
    rw [List.mem_append, not_or]
    exact ⟨by decide, fun h => absurd (mem_filler h) (by decide)⟩
  have hlen : ((Str.lit "PUT k ").bytes ++ filler).length = 4095 := by
    rw [List.length_append, filler, List.length_replicate]
    rfl
  have hchunk := chunk_last hnl (Nat.le_of_eq hlen)
  have hfull : ¬ Open newline 4095 ((Str.lit "PUT k ").bytes ++ filler) := fun h =>
    absurd h.1 (by rw [hlen]; exact Nat.lt_irrefl _)
  have hpull : pull newline 4095 [] longPieces =
      ((Str.lit "PUT k ").bytes ++ filler, [], [(Str.lit "DEL k\n").bytes]) := by
    rw [longPieces, pull, if_pos ⟨by decide, List.not_mem_nil⟩, pull]
    simp only [List.length_nil, Nat.sub_zero, hchunk, if_neg hfull, List.nil_append]
  have hne : (Str.lit "PUT k ").bytes ++ filler ≠ [] :=
    List.append_ne_nil_of_left_ne_nil (List.cons_ne_nil _ _) _
  simp only [fgets, hpull, if_neg hne]

-- of two lines that arrive together, the first is executed and not answered, the second not read
example : handleClient committing 0 ⟨[], [(Str.lit "PUT k v\nDEL k\n").bytes]⟩ =
    [⟨some (.submit (.put (.lit "k") (.lit "v"))), none⟩] := by
  rw [handleClient]
  decide

end SimKV.Server
