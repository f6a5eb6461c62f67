/-
# Elections while the membership changes

A node changes its configuration when it applies the command, so nodes that stand
for the same term may ask different electorates.  The votes of a cluster are then a
`Poll`: the ballot of `SimKV.Raft.Election`, and for each candidacy the
configuration it was made in.  A candidate keeps its peers until the election is
over, so it leads with a majority of the configuration it stood in.

Any two candidates of one term must have overlapping configurations for the leader
to be unique (`election_safety_changing`).  Nothing in the code sees to that: a node
that has two removals in its log, and has not been told that they are committed, and
one that has applied both, can both win (`two_leaders`).
-/
import SimKV.Lib.Poll
import SimKV.Raft.Election

namespace SimKV

variable {M : Medium}

/-! ## Candidacies -/

/-- Who stands for which term in which configuration. -/
abbrev Candidacy := NodeId × Nat × Finset NodeId

/-- The candidacy of node `n` that an input brings about. -/
def Node.candidacy (s : Node M) (n : NodeId) : Input M → Option Candidacy
  | .electionTimer gen =>
    if gen = s.timers.electionGeneration ∧ s.running = true ∧ s.role ≠ .leader then
      some (n, s.currentTerm + 1, insert n s.peers.toFinset)
    else none
  | _ => none

theorem Node.candidacy_eq {s : Node M} {n : NodeId} {inp : Input M} {c : Candidacy}
    (h : s.candidacy n inp = some c) : c = (n, s.currentTerm + 1, insert n s.peers.toFinset) := by
  unfold candidacy at h
  split at h
  · obtain ⟨-, hc⟩ := Option.ite_none_right_eq_some.mp h
    cases hc
    rfl
  · exact nomatch h

/-! ## Nodes as voters and candidates -/

/-- Node `n` in state `s` and the poll `p` agree; a candidate is in the configuration it stood
in. -/
structure Polled (p : Poll NodeId) (n : NodeId) (s : Node M) : Prop where
  elector : Elector p.toBallot n s
  asks : s.role = .candidate →
    p.electorate s.currentTerm n = some (insert n s.peers.toFinset)

/-- What a vote message from `src` to `dst` stands for. -/
def PollMsg {B : Type} (p : Poll NodeId) (src dst : NodeId) : Msg B → Prop
  | .requestVote rv => src = rv.candidateId ∧ dst ≠ src ∧
      ∃ e, p.electorate rv.term src = some e ∧ dst ∈ e
  | .requestVoteReply r => r.voteGranted = true →
      dst ≠ src ∧ p.vote src r.term = some dst ∧ ∃ e, p.electorate r.term dst = some e ∧ src ∈ e
  | _ => True

theorem PollMsg.extends {B : Type} {p p' : Poll NodeId} {src dst : NodeId} {m : Msg B}
    (hx : p.Extends p') (h : PollMsg p src dst m) : PollMsg p' src dst m := by
  cases m with
  | requestVote rv =>
    obtain ⟨h1, h2, e, he, hd⟩ := h
    exact ⟨h1, h2, e, hx.electorate_keep _ _ _ he, hd⟩
  | requestVoteReply r =>
    intro hg
    obtain ⟨h1, h2, e, he, hd⟩ := h hg
    exact ⟨h1, hx.vote_keep _ _ _ h2, e, hx.electorate_keep _ _ _ he, hd⟩
  | _ => trivial

/-- What a move of node `n` on `inp` does to the poll. -/
structure PollStep (n₀ : Node M) (inp : Input M) (n : NodeId) (p p' : Poll NodeId) : Prop where
  step : p' = p ∨ Poll.Step p p'
  only : OnlyOf n p.toBallot p'.toBallot
  electorate : ∀ m, m ≠ n → ∀ T, p'.electorate T m = p.electorate T m
  stood : ∀ T c e, p'.electorate T c = some e →
    p.electorate T c = some e ∨ n₀.candidacy n inp = some (c, T, e)

theorem PollStep.refl (n₀ : Node M) (inp : Input M) (n : NodeId) (p : Poll NodeId) :
    PollStep n₀ inp n p p :=
  ⟨Or.inl rfl, OnlyOf.refl n _, fun _ _ _ => rfl, fun _ _ _ h => Or.inl h⟩

theorem PollStep.ballot {n₀ : Node M} {inp : Input M} {n : NodeId} {p : Poll NodeId}
    {b : Ballot NodeId} (h : Poll.Step p { p with toBallot := b }) (ho : OnlyOf n p.toBallot b) :
    PollStep n₀ inp n p { p with toBallot := b } :=
  ⟨Or.inr h, ho, fun _ _ _ => rfl, fun _ _ _ h => Or.inl h⟩

/-- Another node's step. -/
theorem Polled.others {n₀ : Node M} {inp : Input M} {n m : NodeId} {p p' : Poll NodeId}
    {s : Node M} (h : Polled p m s) (hx : p.Extends p') (hst : PollStep n₀ inp n p p')
    (hmn : m ≠ n) : Polled p' m s := by
  refine ⟨h.elector.others hx.toExtends hst.only hmn, fun hr => ?_⟩
  rw [hst.electorate m hmn]
  exact h.asks hr

/-- **Every move of a node is a step of the poll, or none.** -/
theorem Move.polled {n₀ s s' : Node M} {t : Nat} {inp : Input M} {p : Poll NodeId} {n : NodeId}
    (h : Move n₀ t inp s s') (hrec : Recoverable n₀ inp) (hb : s.Basic n) (hp : p.Sound)
    (hover : ∀ c, n₀.candidacy n inp = some c → ∀ m e, n ≠ m →
      p.electorate c.2.1 m = some e → Overlap c.2.2 e)
    (hmsg : ∀ src m, inp = .message src m → PollMsg p src n m) (hs : Polled p n s) :
    ∃ p', PollStep n₀ inp n p p' ∧ Polled p' n s' := by
  have hterm : p.term n = s.currentTerm := hs.elector.term
  cases h.electoral hrec with
  | keep ht hv hr =>
    refine ⟨p, .refl _ _ _ _, hs.elector.same ht hv hr, fun hc => ?_⟩
    rcases hr with hr | ⟨hr, hkeep⟩
    · exact nomatch hr.symm.trans hc
    · have hcand := hr.symm.trans hc
      rw [ht, (hkeep hcand).2.2]
      exact hs.asks hcand
  | newTerm hT hv hr =>
    exact ⟨_, .ballot (.advance p n _ (hterm ▸ hT)) (OnlyOf.advance _ n _),
      hs.elector.newTerm hp.timely hT rfl hv hr, fun hc => nomatch hr.symm.trans hc⟩
  | grant c ht hnone hv hr hpeers =>
    refine ⟨_, .ballot (.cast p n c ?_) (OnlyOf.cast _ n c), hs.elector.grant hnone ht hv hr,
      fun hc => ?_⟩
    · rw [hterm, hs.elector.vote, hnone]
    · rw [ht, hpeers]
      exact hs.asks (hr.symm.trans hc)
  | countVote src rvr hinp hg hrole hrvr hs' =>
    obtain ⟨h1, h2, e, he, hmem⟩ := hmsg src _ hinp hg
    subst hs'
    rw [hrvr, hs.asks hrole] at he
    rw [hrvr] at h2
    cases he
    have hpeer := (Finset.mem_insert.mp hmem).resolve_left h1.symm
    exact ⟨p, .refl _ _ _ _, hs.elector.countVote ⟨List.mem_toFinset.mp hpeer, h1, h2⟩, hs.asks⟩
  | stand ht hv hc hvr hr hpeers hinp hrun hrole hs₀ =>
    obtain ⟨tm, rfl⟩ := hs₀
    have hlt : n₀.currentTerm < n₀.currentTerm + 1 := Nat.lt_succ_self _
    have hcand : n₀.candidacy n inp =
        some (n, n₀.currentTerm + 1, insert n n₀.peers.toFinset) := by
      rw [hinp]
      exact if_pos ⟨rfl, hrun, hrole⟩
    have hstep : Poll.Step p (p.stand n (n₀.currentTerm + 1) (insert n n₀.peers.toFinset)) :=
      .stand p n _ _ (by rw [hterm]; exact hlt) fun m e hne he => hover _ hcand m e hne he
    have hself : (p.stand n (n₀.currentTerm + 1) (insert n n₀.peers.toFinset)).electorate
        (n₀.currentTerm + 1) n = some (insert n n₀.peers.toFinset) := set2_self _ _ _ _
    refine ⟨_, ⟨Or.inr hstep, (OnlyOf.advance _ n _).trans (OnlyOf.cast _ n n), ?_, ?_⟩,
      hs.elector.stand hp.timely hlt ht (hv.trans (congrArg some hb.id)) hc hvr hr, ?_⟩
    · exact fun m hmn T => set2_of_ne _ _ fun h => hmn h.2
    · intro T c e he
      by_cases hTc : T = n₀.currentTerm + 1 ∧ c = n
      · obtain ⟨rfl, rfl⟩ := hTc
        rw [hself] at he
        cases he
        exact Or.inr hcand
      · exact Or.inl ((set2_of_ne _ _ hTc).symm.trans he)
    · intro _
      rw [ht, hpeers]
      exact hself
  | win ht hv hr hrole hcount =>
    obtain ⟨A, hA, hvote⟩ := hs.elector.majority hrole hcount
    rw [← hterm] at hvote
    have he := hs.asks hrole
    rw [← hterm] at he
    exact ⟨_, .ballot (.elect p n _ A he hA hvote) (OnlyOf.elect _ n),
      hs.elector.win ht hv hr, fun hc => nomatch hr.symm.trans hc⟩

/-- The vote messages a move sends. -/
theorem Emitted.pollMsg {n₀ s s' : Node M} {t : Nat} {inp : Input M} {p p' : Poll NodeId}
    {n d : NodeId} {m : Msg M.Blob} (h : Emitted n₀ t inp s s' (.send d m)) (hx : p.Extends p')
    (hmsg : ∀ src m, inp = .message src m → PollMsg p src n m) (hb : s'.Basic n)
    (hs : Polled p' n s') : PollMsg p' n d m := by
  cases h with
  | requestVote d hd hpeers hrole =>
    refine ⟨hb.id.symm, fun heq => hb.self (heq ▸ hd), _, hs.asks hrole, ?_⟩
    exact Finset.mem_insert_of_mem (List.mem_toFinset.mpr hd)
  | requestVoteReply _ rv granted hinp hg =>
    intro hgr
    obtain ⟨h1, h2, e, he, hmem⟩ := hmsg d _ hinp
    obtain ⟨h3, h4⟩ := hg hgr
    refine ⟨h2.symm, by rw [hs.elector.vote, h4, h1], e, ?_, hmem⟩
    rw [← h3]
    exact hx.electorate_keep _ _ _ he
  | _ => trivial

/-! ## Runs -/

/-- Any two candidates of one term stand in configurations that overlap. -/
def CandidatesOverlap (cs : List Candidacy) : Prop :=
  ∀ a ∈ cs, ∀ b ∈ cs, a.1 ≠ b.1 → a.2.1 = b.2.1 → Overlap a.2.2 b.2.2

instance (cs : List Candidacy) : Decidable (CandidatesOverlap cs) := by
  unfold CandidatesOverlap
  infer_instance

namespace Cluster

/-- The candidacies of a run. -/
abbrev candidacies (C : Cluster M) : List Event → List Candidacy :=
  C.collect (atStep Node.candidacy)

/-- A poll with the invariant that makes leaders unique, all of whose candidacies are in `cs`. -/
abbrev SoundPoll (cs : List Candidacy) : Type :=
  { p : Poll NodeId // p.Sound ∧ ∀ T c e, p.electorate T c = some e → (c, T, e) ∈ cs }

def pollInvariant (M : Medium) (cs : List Candidacy) : Invariant M (SoundPoll cs) where
  le p p' := p.1.Extends p'.1
  node p n s := Polled p.1 n s
  packet p pk := PollMsg p.1 pk.src pk.dst pk.msg
  effect _ _ _ _ := True
  le_refl p := Poll.Extends.refl p.1
  le_trans _ _ _ h h' := h.trans h'
  packet_mono _ _ _ hx h := h.extends hx
  effect_mono _ _ _ _ _ _ h := h
  node_settle _ _ _ h _ := ⟨h.elector.frame rfl rfl rfl rfl rfl rfl, h.asks⟩

variable {C : Cluster M} {cs : List Candidacy}

theorem poll_exec (hC : C.Settled) (hd : C.Durable) (hs : C.Sized)
    (hb : ∀ n ∈ C.members, (C.node n).Basic n) (hover : CandidatesOverlap cs) {e : Event}
    (hcs : ∀ c ∈ C.atStep Node.candidacy e, c ∈ cs) {p : SoundPoll cs}
    (h : (pollInvariant M cs).Holds p C) :
    ∃ p', (pollInvariant M cs).le p p' ∧ (pollInvariant M cs).Holds p' (C.exec e) := by
  refine Invariant.exec hC h ?_ fun _ _ _ _ => trivial
  intro n inp s s' p₁ hinp hn _ hms hm hh
  have hs₀ : Polled p₁.1 n s := by
    have h := hh.node n hn
    rwa [set_node_self] at h
  have hmsg : ∀ src m, inp = .message src m → PollMsg p₁.1 src n m := by
    rintro src m rfl
    obtain ⟨-, pk, -, -, rfl, rfl, rfl, hp⟩ := hh.delivered hinp
    exact hp
  have hmem : ∀ c, (C.node n).candidacy n inp = some c → c ∈ cs := fun c hc =>
    hcs c (by rw [atStep_eq hinp hn, hc]; exact List.mem_singleton_self c)
  have hb₁ := hms.basic (hb n hn)
  obtain ⟨p', hstep, hs'⟩ := hm.polled (hd.recoverable hs hinp hn) hb₁ p₁.2.1
    (fun c hc m e hne he => by
      have hn' : c.1 = n := congrArg Prod.fst (Node.candidacy_eq hc)
      exact hover c (hmem c hc) _ (p₁.2.2 _ m e he) (by rw [hn']; exact hne) rfl) hmsg hs₀
  have hx : p₁.1.Extends p' ∧ p'.Sound := by
    rcases hstep.step with rfl | hst
    · exact ⟨Poll.Extends.refl _, p₁.2.1⟩
    · exact ⟨hst.extends p₁.2.1, hst.sound p₁.2.1⟩
  have hcs' : ∀ T c e, p'.electorate T c = some e → (c, T, e) ∈ cs := fun T c e he =>
    (hstep.stood T c e he).elim (p₁.2.2 T c e) (hmem _)
  exact ⟨⟨p', hx.2, hcs'⟩, hx.1, hs', fun m _ hmn hm => hm.others hx.1 hstep hmn,
    fun _ _ => trivial, fun d m hsent => hsent.pollMsg hx.1 hmsg (hm.basic hb₁) hs',
    fun _ _ h => h.elim⟩

theorem Fresh.poll (h : C.Fresh) (cs : List Candidacy) :
    (pollInvariant M cs).Holds ⟨Poll.init, Poll.init_sound, fun _ _ _ h => nomatch h⟩ C where
  node n _ := by
    obtain ⟨ps, cfg, hn⟩ := h.node n
    rw [hn]
    exact ⟨⟨rfl, rfl, fun h => (nomatch h), fun h => (nomatch h), fun h => nomatch h⟩,
      fun h => nomatch h⟩
  packet p hp := by
    rw [h.settled.inFlight_iff, h.net] at hp
    exact absurd hp List.not_mem_nil
  effect _ _ _ _ _ := trivial
  seen _ _ h := h.elim

/-- **At most one leader in each term**, at any time of a run in which candidates overlap. -/
theorem leader_unique {es es₁ es₂ : List Event} (h : C.Fresh)
    (hs : ∀ es', es' <+: es → (C.run es').Sized) (hover : CandidatesOverlap (C.candidacies es))
    (h₁ : es₁ <+: es) (h₂ : es₂ <+: es) {n m : NodeId} (hn : n ∈ C.members) (hm : m ∈ C.members)
    (hln : ((C.run es₁).node n).role = .leader) (hlm : ((C.run es₂).node m).role = .leader)
    (ht : ((C.run es₁).node n).currentTerm = ((C.run es₂).node m).currentTerm) : n = m := by
  -- the earlier of the two moments comes first
  wlog hle : es₁ <+: es₂ generalizing es₁ es₂ n m
  · have hle' : es₂ <+: es₁ := (List.prefix_or_prefix_of_prefix h₁ h₂).resolve_left hle
    exact (this h₂ h₁ hm hn hlm hln ht.symm hle').symm
  have hstep : ∀ es' e, es' ++ [e] <+: es → ∀ p : SoundPoll (C.candidacies es),
      (pollInvariant M _).Holds p (C.run es') → ∃ p', (pollInvariant M _).le p p' ∧
        (pollInvariant M _).Holds p' ((C.run es').exec e) := by
    intro es' e hpre p hp
    have hpre' : es' <+: es := (List.prefix_append _ _).trans hpre
    exact poll_exec (settled_run h.settled _)
      (h.durable.run h.settled _ fun es'' h => hs es'' (h.trans hpre')) (hs _ hpre')
      (fun n hn => h.basic_run _ n (by rwa [run_members] at hn)) hover
      (fun c hc => mem_collect.mpr ⟨_, e, hpre, hc⟩) hp
  -- the poll of the run up to there, and on to the later moment
  obtain ⟨p₁, -, hp₁⟩ := Invariant.run_from (C := C) (List.nil_prefix (l := es₁))
    (fun es' e hpre => hstep es' e (hpre.trans h₁)) (h.poll _)
  obtain ⟨p₂, hext, hp₂⟩ := Invariant.run_from hle
    (fun es' e hpre => hstep es' e (hpre.trans h₂)) hp₁
  have hled₁ := (hp₁.node n (by rw [run_members]; exact hn)).elector.leader hln
  have hled₂ := (hp₂.node m (by rw [run_members]; exact hm)).elector.leader hlm
  have hkeep := hext.leader_keep _ _ hled₁
  rw [ht, hled₂] at hkeep
  exact (Option.some.inj hkeep).symm

/-! ## Fixed membership -/

/-- **Election safety.**  In a run in which the peers of every node are always the other members,
two nodes that lead the same term, at the same or at different times, are the same node. -/
theorem election_safety (M : Medium) (mem : Membership) (cfg : NodeId → RaftConfig)
    (es es₁ es₂ : List Event) (h₁ : es₁ <+: es) (h₂ : es₂ <+: es)
    (hs : ∀ es', es' <+: es → ((init M mem cfg).run es').Sized)
    (hp : ∀ es', es' <+: es → ∀ n ∈ mem.members,
      PeersAre mem.members n (((init M mem cfg).run es').node n))
    (n m : NodeId) (hn : n ∈ mem.members) (hm : m ∈ mem.members)
    (hln : (((init M mem cfg).run es₁).node n).role = .leader)
    (hlm : (((init M mem cfg).run es₂).node m).role = .leader)
    (ht : (((init M mem cfg).run es₁).node n).currentTerm =
      (((init M mem cfg).run es₂).node m).currentTerm) : n = m := by
  refine leader_unique (fresh_init M mem cfg) hs ?_ h₁ h₂ hn hm hln hlm ht
  -- all candidates stand in the one configuration there is
  have hall : ∀ c ∈ (init M mem cfg).candidacies es, c.2.2 = mem.members := by
    intro c hc
    obtain ⟨es', e, hpre, hc⟩ := mem_collect.mp hc
    obtain ⟨k, inp, -, hk, hc⟩ := mem_atStep hc
    rw [run_members] at hk
    rw [Node.candidacy_eq hc]
    exact (hp es' ((List.prefix_append _ _).trans hpre) k hk).config hk
  intro a ha b hb _ _
  rw [hall a ha, hall b hb]
  exact Overlap.refl _

/-- Node 1 leads term 1 with the vote of node 2; then node 2 leads term 2 with that of node 3. -/
def twoTermsRun : List Event :=
  [.electionTimer 1 1, .deliver 0, .deliver 2, .electionTimer 2 5, .deliver 6, .deliver 7]

/-- Nodes 1 and 2 lead in this run; whoever leads term 1 at some moment of it is node 1, whoever
leads term 2 is node 2. -/
theorem election_safety_three :
    (((ofIds [1, 2, 3]).run (twoTermsRun.take 3)).node 1).role = .leader ∧
    (((ofIds [1, 2, 3]).run twoTermsRun).node 2).role = .leader ∧
    ∀ es', es' <+: twoTermsRun → ∀ m ∈ [(1 : NodeId), 2, 3],
      (((ofIds [1, 2, 3]).run es').node m).role = .leader →
      ((((ofIds [1, 2, 3]).run es').node m).currentTerm = 1 → 1 = m) ∧
        ((((ofIds [1, 2, 3]).run es').node m).currentTerm = 2 → 2 = m) := by
  have hpeers : ∀ es' ∈ twoTermsRun.inits, ∀ n ∈ (Membership.ofList [1, 2, 3]).members,
      PeersAre (Membership.ofList [1, 2, 3]).members n (((ofIds [1, 2, 3]).run es').node n) := by
    decide +kernel
  have hfirst : (((ofIds [1, 2, 3]).run (twoTermsRun.take 3)).node 1).role = .leader ∧
      (((ofIds [1, 2, 3]).run (twoTermsRun.take 3)).node 1).currentTerm = 1 := by decide +kernel
  have hsecond : (((ofIds [1, 2, 3]).run twoTermsRun).node 2).role = .leader ∧
      (((ofIds [1, 2, 3]).run twoTermsRun).node 2).currentTerm = 2 := by decide +kernel
  refine ⟨hfirst.1, hsecond.1, fun es' hpre m hm hlead => ?_⟩
  have hsafe := fun es₁ h₁ n hn hln ht =>
    election_safety Medium.bytes (.ofList [1, 2, 3]) (fun _ => {}) twoTermsRun es₁ es' h₁ hpre
      (sized_of_fits (by decide +kernel))
      (fun es' h => hpeers es' ((List.mem_inits _ _).mpr h)) n m hn (List.mem_toFinset.mpr hm) hln
      hlead ht
  exact ⟨fun ht => hsafe _ (List.take_prefix _ _) 1 (by decide) hfirst.1 (hfirst.2.trans ht.symm),
    fun ht => hsafe _ List.prefix_rfl 2 (by decide) hsecond.1 (hsecond.2.trans ht.symm)⟩

/-! ## Changing membership -/

/-- **Election safety while the membership changes.**  In a run in which any two nodes that stand
for one term stand in configurations that overlap, two nodes that lead the same term, at the same
or at different times, are the same node. -/
theorem election_safety_changing (M : Medium) (r : Roster) (cfg : NodeId → RaftConfig)
    (es es₁ es₂ : List Event) (h₁ : es₁ <+: es) (h₂ : es₂ <+: es)
    (hs : ∀ es', es' <+: es → ((launch M r cfg).run es').Sized)
    (hover : CandidatesOverlap ((launch M r cfg).candidacies es))
    (n m : NodeId) (hn : n ∈ r.members) (hm : m ∈ r.members)
    (hln : (((launch M r cfg).run es₁).node n).role = .leader)
    (hlm : (((launch M r cfg).run es₂).node m).role = .leader)
    (ht : (((launch M r cfg).run es₁).node n).currentTerm =
      (((launch M r cfg).run es₂).node m).currentTerm) : n = m :=
  leader_unique (fresh_launch M r cfg) hs hover h₁ h₂ hn hm hln hlm ht

/-- Five nodes.  Node 1 leads term 1 and puts the removal of node 5 into its log; node 2 takes it
in. -/
def removalRun : List Event :=
  [.electionTimer 1 1, .deliver 0, .deliver 1, .deliver 4, .deliver 5,
    .submit 1 0 0 (.removeServer 5), .deliver 10]

/-- Then nodes 3 and 4 elect node 2 in term 2. -/
def handoverRun : List Event :=
  removalRun ++ [Event.electionTimer 2 7, .deliver 16, .deliver 17, .deliver 19, .deliver 20]

/-- Nodes 1 and 2 lead at its end; whoever leads term 1 at some moment of it is node 1, whoever
leads term 2 is node 2. -/
theorem election_safety_changing_five :
    (∀ n ∈ [(1 : NodeId), 2],
      (((launched [1, 2, 3, 4, 5]).run handoverRun).node n).role = .leader) ∧
    ∀ es', es' <+: handoverRun → ∀ m ∈ [(1 : NodeId), 2, 3, 4, 5],
      (((launched [1, 2, 3, 4, 5]).run es').node m).role = .leader →
      ((((launched [1, 2, 3, 4, 5]).run es').node m).currentTerm = 1 → 1 = m) ∧
        ((((launched [1, 2, 3, 4, 5]).run es').node m).currentTerm = 2 → 2 = m) := by
  have hled : ∀ n ∈ [(1 : NodeId), 2],
      (((launched [1, 2, 3, 4, 5]).run handoverRun).node n).role = .leader ∧
      (((launched [1, 2, 3, 4, 5]).run handoverRun).node n).currentTerm = n := by decide +kernel
  refine ⟨fun n hn => (hled n hn).1, fun es' hpre m hm hlead => ?_⟩
  have hsafe := fun n hn hln ht =>
    election_safety_changing Medium.bytes (.ofList [1, 2, 3, 4, 5]) (fun _ => {}) handoverRun
      handoverRun es' List.prefix_rfl hpre (sized_of_fits (by decide +kernel)) (by decide +kernel)
      n m hn (List.mem_toFinset.mpr hm) hln hlead ht
  have h₁ := hled 1 (by decide)
  have h₂ := hled 2 (by decide)
  exact ⟨fun ht => hsafe 1 (by decide) h₁.1 (h₁.2.trans ht.symm),
    fun ht => hsafe 2 (by decide) h₂.1 (h₂.2.trans ht.symm)⟩

/-- Node 2 leads term 2, adds the removal of node 4, and commits both removals with nodes 1 and 3.
Node 1 is told and applies both, node 3 is not.  Then node 1 stands for term 3 and node 2 votes for
it; node 3 stands as well, and the removed nodes 4 and 5 vote for it. -/
def dividedRun : List Event :=
  removalRun ++ [Event.electionTimer 2 7, .deliver 16, .deliver 17, .deliver 19, .deliver 20,
    .deliver 22, .submit 2 0 0 (.removeServer 4), .deliver 26, .deliver 30, .deliver 25,
    .deliver 31, .deliver 32, .heartbeatTimer 2, .deliver 33, .electionTimer 1 6, .deliver 36,
    .deliver 38, .electionTimer 3 13, .deliver 43, .deliver 44, .deliver 45, .deliver 46]

/-- **Two leaders in one term.** -/
theorem two_leaders :
    (((launched [1, 2, 3, 4, 5]).run dividedRun).node 1).role = .leader ∧
    (((launched [1, 2, 3, 4, 5]).run dividedRun).node 1).currentTerm = 3 ∧
    (((launched [1, 2, 3, 4, 5]).run dividedRun).node 1).peers = [2, 3] ∧
    (((launched [1, 2, 3, 4, 5]).run dividedRun).node 3).role = .leader ∧
    (((launched [1, 2, 3, 4, 5]).run dividedRun).node 3).currentTerm = 3 ∧
    (((launched [1, 2, 3, 4, 5]).run dividedRun).node 3).peers = [1, 2, 4, 5] := by
  decide +kernel

end Cluster

end SimKV
