/-
# The terms of outgoing messages

A receiver drops a message of an earlier term, so a reply that carries a term its
sender has left behind is lost; and a term that goes out before it is flushed can be
forgotten by a crash and used twice.  This module says of every step what term its
messages carry and what the meta store holds when they go out.

What is flushed at the moment a message is sent is read off the effects: it is what
the store calls before the message made of the store (`SimKV.Raft.Writes`).  The term
in memory is raised at most once in a step, before anything is sent, so the term at
that moment is the term at the end of the step (`Moves.term_eq`).

One message breaks the rule.  `handle_append_entries` builds its reply before
`become_follower`, and overwrites the term only when it accepts; a rejection for want
of the predecessor carries the term from before the step (`Node.LateConflict`).
-/
import SimKV.Raft.Writes

namespace SimKV

variable {M : Medium}

/-- The term of a message between nodes. -/
def Msg.term? {B : Type} : Msg B → Option Nat
  | .requestVote m => some m.term
  | .requestVoteReply m => some m.term
  | .appendEntries m => some m.term
  | .appendEntriesReply m => some m.term
  | .installSnapshot m => some m.term
  | .installSnapshotReply m => some m.term
  | .readIndexRequest m => some m.term
  | .readIndexReply m => some m.term
  | .clientRequest _ => none
  | .clientReply _ => none

/-- The term `T` is the one that is flushed; a store that was never written stands for term 0. -/
def HoldsTerm (st : DurableStore M.Cell) (T : Nat) : Prop :=
  (st = .empty ∧ T = 0) ∨ ∃ v, st = .holding (M.encodeMeta ⟨T, v⟩)

namespace Node

/-- Every message between nodes that the step sends carries the node's term, and that term is
already flushed when the message is sent. -/
def SpeaksCurrent (s : Node M) (ticket : Nat) (inp : Input M) : Prop :=
  ∀ before dst m after T, (s.handle ticket inp).out = before ++ .send dst m :: after →
    m.term? = some T → T = (s.handle ticket inp).currentTerm ∧
      HoldsTerm (M := M) (s.metaStore.calls (callsOn .metaStore (storeCalls before))) T

/-- An `AppendEntries` of a later term whose predecessor the log lacks. -/
def LateConflict (s : Node M) : Input M → Prop
  | .message _ (.appendEntries ae) => s.running = true ∧ s.currentTerm < ae.term ∧
      s.log.contains ae.prevLogIndex ae.prevLogTerm = false
  | _ => False

/-- The meta store mirrors term and vote. -/
def MetaFlushed (s : Node M) : Prop :=
  (s.metaStore = .empty ∧ s.currentTerm = 0 ∧ s.votedFor = none) ∨
    s.metaStore = .holding (M.encodeMeta ⟨s.currentTerm, s.votedFor⟩)

theorem MetaFlushed.holdsTerm {s : Node M} (h : s.MetaFlushed) :
    HoldsTerm (M := M) s.metaStore s.currentTerm :=
  h.imp (fun h => ⟨h.1, h.2.1⟩) fun h => ⟨_, h⟩

end Node

/-! ## The term within a step -/

section Moves

variable {n₀ s s' : Node M} {t : Nat} {inp : Input M}

/-- The term changes only before anything has happened in the step. -/
theorem Move.term_eq (h : Move n₀ t inp s s') :
    s'.currentTerm = s.currentTerm ∨ s.out = n₀.out := by
  cases h with
  | newTerm T l tm es hq hT h₀ => exact Or.inr (by rw [h₀])
  | stand tm es es' hq hq' hrun hrole hpeers hinp h₀ =>
    obtain ⟨tm₀, rfl⟩ := h₀
    exact Or.inr rfl
  | crash kv hinp h₀ => exact Or.inr (by rw [h₀])
  | boot s' hinp h₀ => exact Or.inr (by rw [h₀])
  | _ => exact Or.inl rfl

/-- Once something has been sent the term stays. -/
theorem Moves.term_eq (h : Moves n₀ t inp s s') (h₀ : n₀.out = []) {e : Effect M}
    (he : e ∈ s.out) : s'.currentTerm = s.currentTerm ∧ e ∈ s'.out := by
  induction h with
  | refl => exact ⟨rfl, he⟩
  | @tail s₁ s₂ _ hm ih =>
    refine ⟨?_, hm.kept.out e ih.2⟩
    rcases hm.term_eq with hterm | hout
    · exact hterm.trans ih.1
    · rw [hout, h₀] at ih
      exact nomatch ih.2

/-- `T` is the term from before a step that has moved to the term of an `AppendEntries` whose
predecessor it lacks. -/
def Belated (n₀ : Node M) (inp : Input M) (s : Node M) (T : Nat) : Prop :=
  T = n₀.currentTerm ∧ ∃ src ae, inp = .message src (.appendEntries ae) ∧
    s.currentTerm = ae.term ∧ n₀.currentTerm ≤ ae.term ∧
    n₀.log.contains ae.prevLogIndex ae.prevLogTerm = false

theorem Emitted.term_eq {d : NodeId} {m : Msg M.Blob} {T : Nat}
    (h : Emitted n₀ t inp s s' (.send d m)) (hT : m.term? = some T) :
    T = s'.currentTerm ∨ Belated n₀ inp s' T := by
  cases h with
  | rejectConflict src ae hinp hterm h₀ hprev hlog =>
    rw [hlog] at hprev
    exact Or.inr ⟨(Option.some.inj hT).symm, d, ae, hinp, hterm, hterm ▸ h₀, hprev⟩
  | readIndexRequest d key hd hinp h₀ hrole hs =>
    rw [hs]
    exact Or.inl (Option.some.inj hT).symm
  | clientReply d cr => exact nomatch hT
  | _ => exact Or.inl (Option.some.inj hT).symm

/-- **The term of a message is the node's**, a rejection for want of the predecessor apart. -/
theorem Moves.sent_term (h : Moves n₀ t inp n₀ s) (h₀ : n₀.out = []) {d : NodeId}
    {m : Msg M.Blob} {T : Nat} (hT : m.term? = some T) (hsent : .send d m ∈ s.out) :
    T = s.currentTerm ∨ Belated n₀ inp s T := by
  induction h with
  | refl =>
    rw [h₀] at hsent
    exact nomatch hsent
  | @tail s₁ s₂ _ hm ih =>
    rcases hm.emits hsent with hold | hquiet | hnew
    · have hterm := (Moves.term_eq (.single hm) h₀ hold).1
      have hold := ih hold
      rw [Belated] at hold ⊢
      rw [hterm]
      exact hold
    · exact nomatch hquiet
    · exact hnew.term_eq hT

/-- What a move leaves in the meta store mirrors term and vote. -/
theorem Move.metaFlushed (h : Move n₀ t inp s s') (hr : Recoverable n₀ .restart)
    (hs : s.MetaFlushed) : s'.MetaFlushed := by
  cases h with
  | newTerm | grant | stand | accept | place | snapshot | install => exact Or.inr rfl
  | crash kv hinp h₀ | crashFail err hinp h₀ =>
    rw [h₀]
    exact hr.mirror.stop.metaRec
  | boot s' hinp h₀ hrun hboot =>
    obtain ⟨kv, rfl, -⟩ := hr.booted h₀ hrun hboot
    exact hs
  | _ => exact hs

/-! ## What is flushed when a message goes out -/

/-- Where the element after `a` lies in a concatenation. -/
theorem split_append {α : Type} {l₁ l₂ a b : List α} {x : α} (h : l₁ ++ l₂ = a ++ x :: b) :
    (∃ c, l₁ = a ++ x :: c) ∨ ∃ c, a = l₁ ++ c ∧ l₂ = c ++ x :: b := by
  rcases List.append_eq_append_iff.mp h with ⟨c, ha, hl⟩ | ⟨c, hl, hx⟩
  · exact Or.inr ⟨c, ha, hl⟩
  · cases c with
    | nil => exact Or.inr ⟨[], by rw [hl, List.append_nil, List.append_nil], hx.symm⟩
    | cons y c =>
      obtain ⟨rfl, -⟩ := List.cons.inj hx
      exact Or.inl ⟨c, hl⟩

/-- A step that began in `n₀` with nothing sent has come to `s`: the stores are what its calls made
of them, and at each message the meta store held the term the node has now. -/
structure Spoken (n₀ s : Node M) : Prop where
  wrote : n₀.Wrote s.out s
  metaFlushed : s.MetaFlushed
  sent : ∀ before dst m after, s.out = before ++ .send dst m :: after →
    HoldsTerm (M := M) (n₀.metaStore.calls (callsOn .metaStore (storeCalls before))) s.currentTerm

theorem Spoken.move (hM : M.WritesLogs) (hr : Recoverable n₀ .restart) (h₀ : n₀.out = [])
    (h : Spoken n₀ s) (hm : Move n₀ t inp s s') : Spoken n₀ s' := by
  obtain ⟨es, hw, es₁, es₂, hes, hsilent, hunstored⟩ := hm.writes hM hr.mirror.flushed_storeOf
  have hwrote : n₀.Wrote s'.out s' := by
    rw [hw.out]
    exact h.wrote.trans hw
  have hflushed := hm.metaFlushed hr h.metaFlushed
  refine ⟨hwrote, hflushed, fun before dst m after hout => ?_⟩
  rw [hw.out, hes] at hout
  rcases split_append hout with ⟨c, hold⟩ | ⟨c, rfl, hnew⟩
  · -- sent by an earlier move: the term has not changed since
    have hsent : Effect.send dst m ∈ s.out := by rw [hold]; simp
    rw [(Moves.term_eq (.single hm) h₀ hsent).1]
    exact h.sent before dst m c hold
  · -- sent by this move: all its store calls are made
    rcases split_append hnew with ⟨c', hold⟩ | ⟨c', rfl, hes₂⟩
    · exact nomatch hsilent (.send dst m) (by rw [hold]; simp)
    · have hnone : storeCalls c' = [] := by
        have hu := hunstored
        rw [Unstored, hes₂, storeCalls_append] at hu
        exact (List.append_eq_nil_iff.mp hu).1
      have hcalls : storeCalls (s.out ++ (es₁ ++ c')) = storeCalls s'.out := by
        rw [hw.out, hes, storeCalls_append, storeCalls_append, storeCalls_append, storeCalls_append,
          hnone, hunstored]
      have hstore : s'.metaStore = n₀.metaStore.calls (callsOn .metaStore (storeCalls s'.out)) :=
        hwrote.store .metaStore
      rw [hcalls, ← hstore]
      exact hflushed.holdsTerm

theorem Spoken.moves (hM : M.WritesLogs) (hr : Recoverable n₀ .restart) (h₀ : n₀.out = [])
    (h : Moves n₀ t inp n₀ s) : Spoken n₀ s := by
  induction h with
  | refl =>
    refine ⟨.of_unstored (by rw [h₀]; rfl) (by rw [h₀]; rfl) rfl, hr.mirror.metaRec, ?_⟩
    intro before dst m after hout
    rw [h₀] at hout
    exact absurd hout (by simp)
  | tail _ hm ih => exact ih.move hM hr h₀ hm

end Moves

/-! ## Every step -/

namespace Node

/-- **The terms of outgoing messages**, for a node between two steps whose stores mirror its
memory: they are the node's own and flushed, unless the step rejects an `AppendEntries` of a later
term. -/
theorem speaksCurrent_iff (hM : M.WritesLogs) {s : Node M} (hi : s.Rested) (hout : s.out = [])
    (hr : Recoverable s .restart) (t : Nat) (inp : Input M) :
    s.SpeaksCurrent t inp ↔ ¬ s.LateConflict inp := by
  have hmoves := (s.handle_moves t inp hi).1
  constructor
  · intro hspeaks hlate
    cases inp with
    | message src m =>
      cases m with
      | appendEntries ae =>
        obtain ⟨hrun, hlt, hprev⟩ := hlate
        have hstep := s.handle_conflict t src ae hrun (Nat.le_of_lt hlt) hprev
        have hterm := (hspeaks (s.becomeFollower ae.term (some src)).out src _ []
          s.currentTerm (by rw [hstep]; rfl) rfl).1
        rw [hstep] at hterm
        have hnew := (s.becomeFollower_spec (some src) (Nat.le_of_lt hlt)).term
        exact absurd (hterm.trans hnew) (Nat.ne_of_lt hlt)
      | _ => exact hlate
    | _ => exact hlate
  · intro hlate before dst m after T hsplit hT
    have hsent : Effect.send dst m ∈ (s.handle t inp).out := by rw [hsplit]; simp
    have hterm : T = (s.handle t inp).currentTerm := by
      rcases hmoves.sent_term hout hT hsent with h | ⟨rfl, src, ae, rfl, hcur, hle, hprev⟩
      · exact h
      · -- the node runs, or the message would not have been looked at
        have hrun : s.running = true := by
          by_contra hdown
          rw [handle, onMessage, Bool.not_eq_true _ |>.mp hdown, Bool.not_false, if_pos rfl,
            hout] at hsent
          cases hsent
        rw [hcur]
        exact Nat.le_antisymm hle (Nat.not_lt.mp fun hlt => hlate ⟨hrun, hlt, hprev⟩)
    refine ⟨hterm, ?_⟩
    rw [hterm]
    exact (Spoken.moves hM hr hout hmoves).sent before dst m after hsplit

end Node

namespace Cluster

/-- **Outgoing terms are current and durable.**  In every run whose states fit their formats, for
every node and whatever it handles next: each message between nodes carries the node's term and
that term is flushed when the message is sent, if and only if the node is not rejecting an
`AppendEntries` of a later term. -/
theorem outgoing_terms_current (r : Roster) (cfg : NodeId → RaftConfig) (es : List Event)
    (hs : ∀ es', es' <+: es → ((launch Medium.bytes r cfg).run es').Sized) (n : NodeId)
    (hn : n ∈ r.members) (ticket : Nat) (inp : Input Medium.bytes) :
    (((launch Medium.bytes r cfg).run es).node n).SpeaksCurrent ticket inp ↔
      ¬ (((launch Medium.bytes r cfg).run es).node n).LateConflict inp := by
  have hC := settled_run (settled_launch Medium.bytes r cfg) es
  have hmem : n ∈ ((launch Medium.bytes r cfg).run es).members := by
    rw [run_members]
    exact hn
  have hd := (durable_launch Medium.bytes r cfg).run (settled_launch Medium.bytes r cfg) es hs
  have hr : Recoverable (((launch Medium.bytes r cfg).run es).node n) .restart :=
    ⟨(hs es List.prefix_rfl).node n hmem, hd.down n hmem, hd.mirror n hmem, fun _ _ h => nomatch h⟩
  exact Node.speaksCurrent_iff Medium.bytes_writesLogs (hC n).2 (hC n).1 hr ticket inp

/-- The first heartbeat of node 2 raises the term of node 1, which accepts it. -/
theorem outgoing_terms_current_heartbeat :
    (((launched [1, 2, 3]).run []).node 1).SpeaksCurrent 0
      (.message 2 (.appendEntries ⟨1, 2, 0, 0, [], 0⟩)) :=
  (outgoing_terms_current (.ofList [1, 2, 3]) (fun _ => {}) []
    (sized_of_fits (by decide +kernel)) 1 (by decide) 0 _).mpr fun h => absurd h.2.2 (by decide)

/-- Node 2 leads term 1 with the vote of node 3 and gives it an entry; node 3 leads term 2 with the
vote of node 2, and its first heartbeat is on the way to node 1, which has heard of nothing. -/
def belatedRun : List Event :=
  [.electionTimer 2 1, .deliver 1, .deliver 2,
    .submit 2 0 0 (.put (Str.lit "k") (Str.lit "v")), .deliver 6,
    .electionTimer 3 7, .deliver 9, .deliver 10]

/-- **A rejection goes out under the old term.**  Node 1 moves to term 2 and rejects the heartbeat
under term 0; node 3 takes the reply for a stale one and does not back up. -/
theorem rejection_belated :
    (((launched [1, 2, 3]).run belatedRun).net[11]?).map (fun p => (p.src, p.dst, p.msg)) =
      some (3, 1, .appendEntries ⟨2, 3, 1, 1, [], 0⟩) ∧
    ¬ (((launched [1, 2, 3]).run belatedRun).node 1).SpeaksCurrent 8
      (.message 3 (.appendEntries ⟨2, 3, 1, 1, [], 0⟩)) ∧
    (((launched [1, 2, 3]).run (belatedRun ++ [Event.deliver 11])).node 1).currentTerm = 2 ∧
    (((launched [1, 2, 3]).run (belatedRun ++ [Event.deliver 11])).net[13]?).map (·.msg) =
      some (.appendEntriesReply ⟨0, false, 1, 0⟩) ∧
    (((launched [1, 2, 3]).run
      (belatedRun ++ [Event.deliver 11, .deliver 13])).node 3).nextIndex.find? 1
      = (((launched [1, 2, 3]).run belatedRun).node 3).nextIndex.find? 1 := by
  refine ⟨by decide +kernel, fun h => ?_, by decide +kernel⟩
  have hstep := Node.handle_conflict (((launched [1, 2, 3]).run belatedRun).node 1) 8 3
    ⟨2, 3, 1, 1, [], 0⟩ (by decide +kernel) (by decide +kernel) (by decide +kernel)
  have hterm := (h _ 3 _ [] _ (congrArg Node.out hstep) rfl).1
  exact absurd hterm (by decide +kernel)

end Cluster

end SimKV
