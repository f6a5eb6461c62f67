/-
# Nodes as voters

The votes of a cluster of nodes are a `Ballot`: every change a node makes to its
term, its vote and its role is one of the ballot's steps.  `Elector` says how the
node's fields and the ballot fit together, `VoteMsg` what a vote message in flight
stands for, `Electoral` what a move is to an election, and each lemma `Elector.…` is
one step of the ballot.  None of it looks at logs, so compaction, snapshots and the
bug flags make no difference.
-/
import SimKV.Lib.Ballot
import SimKV.Raft.Formats

namespace SimKV

variable {M : Medium}

/-! ## Configurations -/

/-- The peers of node `n` are the other members. -/
def PeersAre (mem : Finset NodeId) (n : NodeId) (s : Node M) : Prop :=
  ∀ m, m ∈ s.peers ↔ m ∈ mem ∧ m ≠ n

instance (mem : Finset NodeId) (n : NodeId) (s : Node M) : Decidable (PeersAre mem n s) :=
  decidable_of_iff (s.peers.toFinset = mem.erase n) (by
    simp only [Finset.ext_iff, List.mem_toFinset, Finset.mem_erase, PeersAre]
    exact forall_congr' fun m => by rw [and_comm])

theorem PeersAre.config {mem : Finset NodeId} {n : NodeId} {s : Node M} (hp : PeersAre mem n s)
    (hn : n ∈ mem) : insert n s.peers.toFinset = mem := by
  ext m
  rw [Finset.mem_insert, List.mem_toFinset, hp m]
  by_cases hmn : m = n
  · simp [hmn, hn]
  · simp [hmn]

/-- What `quorum()` counts is a majority of the configuration. -/
theorem Node.majority {s : Node M} {n : NodeId} {A : Finset NodeId}
    (hA : A ⊆ insert n s.peers.toFinset) (hq : s.quorum ≤ A.card) :
    Majority (insert n s.peers.toFinset) A := by
  have h1 := Finset.card_insert_le n s.peers.toFinset
  have h2 := List.toFinset_card_le s.peers
  unfold Node.quorum at hq
  exact ⟨hA, by omega⟩

theorem PeersAre.majority {mem A : Finset NodeId} {n : NodeId} {s : Node M} (hp : PeersAre mem n s)
    (hn : n ∈ mem) (hA : A ⊆ mem) (hq : s.quorum ≤ A.card) : Majority mem A := by
  rw [← hp.config hn] at hA ⊢
  exact Node.majority hA hq

/-! ## Nodes as voters -/

/-- Node `n` in state `s` and the ballot `b` agree; a candidate counts votes of its peers. -/
structure Elector (b : Ballot NodeId) (n : NodeId) (s : Node M) : Prop where
  term : b.term n = s.currentTerm
  vote : b.vote n s.currentTerm = s.votedFor
  leader : s.role = .leader → b.leader s.currentTerm = some n
  stood : s.role = .candidate → s.votedFor = some n ∧ b.leader s.currentTerm ≠ some n
  votes : s.role = .candidate → s.voteCount ≤ s.votesReceived.card + 1 ∧
    ∀ m ∈ s.votesReceived, m ∈ s.peers ∧ m ≠ n ∧ b.vote m s.currentTerm = some n

/-- What a vote message from `src` to `dst` stands for. -/
def VoteMsg {B : Type} (b : Ballot NodeId) (src dst : NodeId) : Msg B → Prop
  | .requestVote rv => src = rv.candidateId ∧ dst ≠ src
  | .requestVoteReply r => r.voteGranted = true → dst ≠ src ∧ b.vote src r.term = some dst
  | _ => True

theorem VoteMsg.extends {B : Type} {b b' : Ballot NodeId} {src dst : NodeId} {m : Msg B}
    (hx : b.Extends b') (h : VoteMsg b src dst m) : VoteMsg b' src dst m := by
  cases m with
  | requestVoteReply r => exact fun hg => ⟨(h hg).1, hx.vote_keep _ _ _ (h hg).2⟩
  | requestVote rv => exact h
  | _ => trivial

/-- From `b` to `b'` only node `n` has done anything. -/
structure OnlyOf (n : NodeId) (b b' : Ballot NodeId) : Prop where
  term : ∀ m, m ≠ n → b'.term m = b.term m
  vote : ∀ m, m ≠ n → b'.vote m = b.vote m
  leader : ∀ m T, m ≠ n → b'.leader T = some m → b.leader T = some m

namespace OnlyOf

variable {n : NodeId} {b b' b'' : Ballot NodeId}

theorem refl (n : NodeId) (b : Ballot NodeId) : OnlyOf n b b :=
  ⟨fun _ _ => rfl, fun _ _ => rfl, fun _ _ _ h => h⟩

theorem trans (h : OnlyOf n b b') (h' : OnlyOf n b' b'') : OnlyOf n b b'' :=
  ⟨fun m hm => (h'.term m hm).trans (h.term m hm), fun m hm => (h'.vote m hm).trans (h.vote m hm),
    fun m T hm hl => h.leader m T hm (h'.leader m T hm hl)⟩

theorem advance (b : Ballot NodeId) (n : NodeId) (T : Nat) : OnlyOf n b (b.advance n T) :=
  ⟨fun m hm => by simp [Ballot.advance, Function.update_of_ne hm], fun _ _ => rfl,
    fun _ _ _ h => h⟩

theorem cast (b : Ballot NodeId) (n c : NodeId) : OnlyOf n b (b.cast n c) :=
  ⟨fun _ _ => rfl, fun m hm => by simp [Ballot.cast, set2, Function.update_of_ne hm],
    fun _ _ _ h => h⟩

theorem elect (b : Ballot NodeId) (n : NodeId) : OnlyOf n b (b.elect n) := by
  refine ⟨fun _ _ => rfl, fun _ _ => rfl, fun m T hm hl => ?_⟩
  by_cases hT : T = b.term n
  · subst hT
    have hnm : n = m := by simpa [Ballot.elect] using hl
    exact absurd hnm.symm hm
  · simpa [Ballot.elect, Function.update_of_ne hT] using hl

end OnlyOf

/-! ## Steps of the ballot -/

namespace Elector

variable {b b' : Ballot NodeId} {n m : NodeId} {s s' : Node M}

/-- Another node's step. -/
theorem others (h : Elector b m s) (hx : b.Extends b') (ho : OnlyOf n b b') (hmn : m ≠ n) :
    Elector b' m s where
  term := (ho.term m hmn).trans h.term
  vote := by rw [ho.vote m hmn]; exact h.vote
  leader hr := hx.leader_keep _ _ (h.leader hr)
  stood hr := ⟨(h.stood hr).1, fun hl => (h.stood hr).2 (ho.leader m _ hmn hl)⟩
  votes hr := ⟨(h.votes hr).1, fun k hk =>
    ⟨((h.votes hr).2 k hk).1, ((h.votes hr).2 k hk).2.1,
      hx.vote_keep _ _ _ ((h.votes hr).2 k hk).2.2⟩⟩

/-- The node keeps its term, its vote and its role, or gives the role up. -/
theorem same (h : Elector b n s) (ht : s'.currentTerm = s.currentTerm)
    (hv : s'.votedFor = s.votedFor)
    (hr : s'.role = .follower ∨ (s'.role = s.role ∧ (s.role = .candidate →
      s'.voteCount = s.voteCount ∧ s'.votesReceived = s.votesReceived ∧ s'.peers = s.peers))) :
    Elector b n s' := by
  refine ⟨h.term.trans ht.symm, by rw [ht, hv]; exact h.vote, ?_, ?_, ?_⟩
  · intro hl
    rcases hr with hr | ⟨hr, -⟩
    · exact nomatch hr.symm.trans hl
    · rw [ht]; exact h.leader (hr.symm.trans hl)
  · intro hl
    rcases hr with hr | ⟨hr, -⟩
    · exact nomatch hr.symm.trans hl
    · rw [ht, hv]; exact h.stood (hr.symm.trans hl)
  · intro hl
    rcases hr with hr | ⟨hr, hkeep⟩
    · exact nomatch hr.symm.trans hl
    · have hc := hr.symm.trans hl
      obtain ⟨hcount, hvr, hp⟩ := hkeep hc
      rw [ht, hcount, hvr, hp]
      exact h.votes hc

/-- Only what concerns elections matters. -/
theorem frame (h : Elector b n s) (ht : s'.currentTerm = s.currentTerm)
    (hv : s'.votedFor = s.votedFor) (hr : s'.role = s.role) (hc : s'.voteCount = s.voteCount)
    (hvr : s'.votesReceived = s.votesReceived) (hp : s'.peers = s.peers) : Elector b n s' :=
  h.same ht hv (Or.inr ⟨hr, fun _ => ⟨hc, hvr, hp⟩⟩)

/-- A later term. -/
theorem newTerm (hb : b.Timely) (h : Elector b n s) {T : Nat} (hT : s.currentTerm < T)
    (ht : s'.currentTerm = T) (hv : s'.votedFor = none) (hr : s'.role = .follower) :
    Elector (b.advance n T) n s' := by
  refine ⟨by rw [ht]; simp, ?_, fun hl => (nomatch hr.symm.trans hl),
    fun hl => (nomatch hr.symm.trans hl), fun hl => nomatch hr.symm.trans hl⟩
  rw [ht, hv]
  exact hb.unvoted (h.term ▸ hT)

/-- The vote. -/
theorem grant (h : Elector b n s) (hnone : s.votedFor = none) {c : NodeId}
    (ht : s'.currentTerm = s.currentTerm) (hv : s'.votedFor = some c) (hr : s'.role = s.role) :
    Elector (b.cast n c) n s' := by
  -- a candidate has voted for itself
  have hnot : s'.role ≠ .candidate := fun hl =>
    nomatch hnone.symm.trans (h.stood (hr.symm.trans hl)).1
  refine ⟨h.term.trans ht.symm, ?_, fun hl => ?_, fun hl => absurd hl hnot,
    fun hl => absurd hl hnot⟩
  · rw [hv, ht, ← h.term]
    simp [Ballot.cast]
  · rw [ht]
    exact h.leader (hr.symm.trans hl)

/-- A candidate enters a new term and votes for itself; nobody has answered yet. -/
theorem stand (hb : b.Timely) (h : Elector b n s) {T : Nat} (hT : s.currentTerm < T)
    (ht : s'.currentTerm = T) (hv : s'.votedFor = some n) (hc : s'.voteCount = 1)
    (hvr : s'.votesReceived = ∅) (hr : s'.role = .candidate) :
    Elector ((b.advance n T).cast n n) n s' := by
  have hterm : (b.advance n T).term n = T := Ballot.advance_term_self b n T
  refine ⟨hterm.trans ht.symm, ?_, fun hl => (nomatch hr.symm.trans hl),
    fun _ => ⟨hv, fun hl => ?_⟩, fun _ => ?_⟩
  · rw [hv, ht]
    simp [Ballot.cast]
  · rw [ht] at hl
    have := hb.leader_le _ _ hl
    rw [h.term] at this
    omega
  · rw [hc, hvr]
    exact ⟨Nat.le_refl 1, fun m hm => absurd hm (Finset.notMem_empty m)⟩

/-- A vote comes in. -/
theorem countVote (h : Elector b n s) {src : NodeId}
    (hv : src ∈ s.peers ∧ n ≠ src ∧ b.vote src s.currentTerm = some n) :
    Elector b n (s.countVote src) where
  term := h.term
  vote := h.vote
  leader := h.leader
  stood := h.stood
  votes hr := by
    refine ⟨Nat.le_refl _, fun m hm => ?_⟩
    rcases Finset.mem_insert.mp hm with rfl | hm
    · exact ⟨hv.1, hv.2.1.symm, hv.2.2⟩
    · exact (h.votes hr).2 m hm

/-- A candidate with a quorum of votes: a majority of its configuration. -/
theorem majority (h : Elector b n s) (hr : s.role = .candidate) (hq : s.quorum ≤ s.voteCount) :
    ∃ A, Majority (insert n s.peers.toFinset) A ∧ ∀ m ∈ A, b.vote m s.currentTerm = some n := by
  obtain ⟨hc, hv⟩ := h.votes hr
  have hnot : n ∉ s.votesReceived := fun hmem => (hv n hmem).2.1 rfl
  refine ⟨insert n s.votesReceived, Node.majority ?_ ?_, fun m hm => ?_⟩
  · exact Finset.insert_subset_insert n fun m hm => List.mem_toFinset.mpr (hv m hm).1
  · rw [Finset.card_insert_of_notMem hnot]
    omega
  · rcases Finset.mem_insert.mp hm with rfl | hm
    · rw [h.vote]
      exact (h.stood hr).1
    · exact (hv m hm).2.2

/-- A candidate takes the lead. -/
theorem win (h : Elector b n s) (ht : s'.currentTerm = s.currentTerm)
    (hv : s'.votedFor = s.votedFor) (hr : s'.role = .leader) : Elector (b.elect n) n s' := by
  refine ⟨h.term.trans ht.symm, by rw [ht, hv]; exact h.vote, fun _ => ?_,
    fun hl => (nomatch hr.symm.trans hl), fun hl => nomatch hr.symm.trans hl⟩
  rw [ht, ← h.term]
  simp [Ballot.elect]

end Elector

/-! ## Moves -/

/-- What a move is to an election. -/
inductive Electoral (n₀ : Node M) (inp : Input M) (s s' : Node M) : Prop
  /-- Nothing, or the end of a candidacy or a lead; only a node that is no candidate changes its
  peers. -/
  | keep (ht : s'.currentTerm = s.currentTerm) (hv : s'.votedFor = s.votedFor)
      (hr : s'.role = .follower ∨ (s'.role = s.role ∧ (s.role = .candidate →
        s'.voteCount = s.voteCount ∧ s'.votesReceived = s.votesReceived ∧ s'.peers = s.peers)))
  | newTerm (hT : s.currentTerm < s'.currentTerm) (hv : s'.votedFor = none)
      (hr : s'.role = .follower)
  | grant (c : NodeId) (ht : s'.currentTerm = s.currentTerm) (hnone : s.votedFor = none)
      (hv : s'.votedFor = some c) (hr : s'.role = s.role) (hp : s'.peers = s.peers)
  | countVote (src : NodeId) (rvr : RequestVoteReply)
      (hinp : inp = .message src (.requestVoteReply rvr)) (hg : rvr.voteGranted = true)
      (hrole : s.role = .candidate) (hterm : rvr.term = s.currentTerm) (hs : s' = s.countVote src)
  | stand (ht : s'.currentTerm = s.currentTerm + 1)
      (hv : s'.votedFor = some s.id) (hc : s'.voteCount = 1) (hvr : s'.votesReceived = ∅)
      (hr : s'.role = .candidate) (hp : s'.peers = s.peers)
      (hinp : inp = .electionTimer n₀.timers.electionGeneration) (hrun : s.running = true)
      (hrole : s.role ≠ .leader) (h₀ : ∃ tm, s = { n₀ with timers := tm })
  | win (ht : s'.currentTerm = s.currentTerm) (hv : s'.votedFor = s.votedFor)
      (hr : s'.role = .leader) (hrole : s.role = .candidate) (hcount : s.quorum ≤ s.voteCount)

theorem Move.electoral {n₀ s s' : Node M} {t : Nat} {inp : Input M} (h : Move n₀ t inp s s')
    (hrec : Recoverable n₀ inp) : Electoral n₀ inp s s' := by
  have keep : ∀ {s' : Node M}, s'.currentTerm = s.currentTerm → s'.votedFor = s.votedFor →
      s'.role = s.role → s'.voteCount = s.voteCount → s'.votesReceived = s.votesReceived →
      s'.peers = s.peers → Electoral n₀ inp s s' :=
    fun ht hv hr hc hvr hp => .keep ht hv (Or.inr ⟨hr, fun _ => ⟨hc, hvr, hp⟩⟩)
  cases h with
  | newTerm T l tm es hq hT => exact .newTerm hT rfl rfl
  | follow => exact .keep rfl rfl (Or.inl rfl)
  | grant src rv tm es hq hinp hrv hvote hup =>
    rcases hvote with hvote | hvote
    · exact .grant rv.candidateId rfl hvote rfl rfl rfl
    · exact keep rfl hvote.symm rfl rfl rfl rfl
  | countVote src rvr hinp hg hrole hrvr => exact .countVote src rvr hinp hg hrole hrvr rfl
  | stand tm es es' hq hq' hrun hrole hpeers hinp h₀ =>
    exact .stand rfl rfl rfl rfl rfl rfl hinp hrun hrole h₀
  | win tm es hq hrole hcount => exact .win rfl rfl rfl hrole hcount
  | joinPeer e kv newId happ he hnew hid hrole =>
    exact .keep rfl rfl (Or.inr ⟨rfl, fun hc => absurd hc hrole⟩)
  | leavePeer e kv remId happ he hrole =>
    exact .keep rfl rfl (Or.inr ⟨rfl, fun hc => absurd hc hrole⟩)
  | crash kv hinp => exact .keep rfl rfl (Or.inl rfl)
  | crashFail => exact .keep rfl rfl (Or.inl rfl)
  | boot _ hinp h₀ hrun hboot =>
    obtain ⟨kv, rfl, -⟩ := hrec.booted h₀ hrun hboot
    exact keep rfl rfl rfl rfl rfl rfl
  | _ => exact keep rfl rfl rfl rfl rfl rfl

/-- The vote messages a move sends. -/
theorem Emitted.voteMsg {n₀ s s' : Node M} {t : Nat} {inp : Input M} {b : Ballot NodeId}
    {n d : NodeId} {m : Msg M.Blob} (h : Emitted n₀ t inp s s' (.send d m)) (hb : s'.Basic n)
    (hmsg : ∀ src m, inp = .message src m → VoteMsg b src n m) (he : Elector b n s') :
    VoteMsg b n d m := by
  cases h with
  | requestVote d hd hpeers hrole => exact ⟨hb.id.symm, fun heq => hb.self (heq ▸ hd)⟩
  | requestVoteReply _ rv granted hinp hg =>
    intro hgr
    obtain ⟨h1, h2⟩ := hmsg d _ hinp
    obtain ⟨h3, h4⟩ := hg hgr
    exact ⟨h2.symm, by rw [he.vote, h4, h1]⟩
  | _ => trivial

end SimKV
