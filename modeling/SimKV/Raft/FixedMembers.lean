/-
# Runs in which the membership never changes

`peers_` changes only when a membership command is applied, a command is applied out
of the log, and a log grows only by what a leader is asked to place and by what an
`AppendEntries` brings out of another log (`Move.logged`).  So in a run in which no
client asks for a change of the membership, the peers of every node are always the
other members, and the members talk to each other alone (`fixed_run`).
-/
import SimKV.Raft.Election
import SimKV.Raft.LogRep

namespace SimKV

variable {M : Medium}

/-- The event asks for no change of the membership. -/
def Event.plain : Event → Bool
  | .submit _ _ _ cmd => !cmd.isConfig
  | .clientSend _ _ cr => !cr.cmd.isConfig
  | _ => true

/-- The peers of node `n` are the other members, and it is not about to change that. -/
structure Node.Fixed (mem : Finset NodeId) (n : NodeId) (s : Node M) : Prop where
  peers : PeersAre mem n s
  log : ∀ e ∈ s.log.entries, e.cmd.isConfig = false
  applying : ∀ e kv, s.applying = some (e, kv) → e.cmd.isConfig = false

/-- A message from `src` to `dst` that is no client's goes from one member to another, and none
carries a change of the membership. -/
def Msg.Fixed {B : Type} (mem : Finset NodeId) (src dst : NodeId) : Msg B → Prop
  | .clientRequest cr => cr.cmd.isConfig = false
  | .clientReply _ => True
  | .appendEntries ae => (src ∈ mem ∧ src ≠ dst) ∧ ∀ e ∈ ae.entries, e.cmd.isConfig = false
  | _ => src ∈ mem ∧ src ≠ dst

/-- The same, of what node `n` is given. -/
def Input.Fixed (mem : Finset NodeId) (n : NodeId) : Input M → Prop
  | .message src m => m.Fixed mem src n
  | .submit _ _ cmd => cmd.isConfig = false
  | _ => True

section Moves

variable {n₀ s s' : Node M} {t : Nat} {inp : Input M} {mem : Finset NodeId} {n : NodeId}

/-- **What a move puts into the log**: the entries of the `AppendEntries` at hand, or the one it
is asked to place. -/
theorem Move.logged (h : Move n₀ t inp s s') (hrec : Recoverable n₀ inp) {x : LogEntry}
    (hx : x ∈ s'.log.entries) :
    x ∈ s.log.entries ∨ (∃ src ae, inp = .message src (.appendEntries ae) ∧ x ∈ ae.entries) ∨
      ∃ cb, Asks t x.cmd cb inp ∧ .placed cb x ∈ s'.out := by
  cases h with
  | accept src ae es hq hinp =>
    rcases Node.mem_appendLoop hx with hx | hx
    · exact Or.inr (Or.inl ⟨src, ae, hinp, hx⟩)
    · exact Or.inl hx
  | place cmd cb cfgPending es hq h₀ hinp =>
    rcases List.mem_append.mp hx with hx | hx
    · exact Or.inl hx
    · rw [List.mem_singleton.mp hx]
      exact Or.inr (Or.inr ⟨cb, hinp, List.mem_append_right _ (List.mem_singleton_self _)⟩)
  | snapshot => exact Or.inl (RaftLog.mem_of_mem_setSnapshot hx)
  | install => exact Or.inl (RaftLog.mem_of_mem_setSnapshot hx)
  | boot _ hinp h₀ hrun hboot =>
    -- what the log store gives back is the log that was written
    obtain ⟨kv, rfl, -⟩ := hrec.booted h₀ hrun hboot
    exact Or.inl hx
  | _ => exact Or.inl hx

/-- **Nothing a node does changes its peers**, unless it is asked to. -/
theorem Move.fixed (h : Move n₀ t inp s s') (hrec : Recoverable n₀ inp) (hin : inp.Fixed mem n)
    (hs : s.Fixed mem n) : s'.Fixed mem n := by
  have hlog : ∀ e ∈ s'.log.entries, e.cmd.isConfig = false := by
    intro x hx
    rcases h.logged hrec hx with hx | ⟨src, ae, rfl, hx⟩ | ⟨cb, hasks, -⟩
    · exact hs.log x hx
    · exact hin.2 x hx
    · rcases hasks with ⟨cid, rid, rfl, -⟩ | ⟨src, cr, rfl, hcr, -⟩
      · exact hin
      · exact hcr ▸ hin
  have plain : ∀ {e kv}, s.applying = some (e, kv) → e.cmd.isConfig = true → False :=
    fun ha he => nomatch (hs.applying _ _ ha).symm.trans he
  cases h with
  | applyKv e hlt hnone he =>
    refine ⟨hs.peers, hlog, fun e' kv heq => ?_⟩
    cases heq
    exact hs.log e (RaftLog.mem_of_entryAt he)
  | joinPeer e kv newId happ he => exact (plain happ (by rw [he]; rfl)).elim
  | leavePeer e kv remId happ he => exact (plain happ (by rw [he]; rfl)).elim
  | answer => exact ⟨hs.peers, hlog, fun _ _ h => nomatch h⟩
  | boot _ hinp h₀ hrun hboot =>
    obtain ⟨kv, rfl, -⟩ := hrec.booted h₀ hrun hboot
    exact ⟨hs.peers, hlog, hs.applying⟩
  | _ => exact ⟨hs.peers, hlog, hs.applying⟩

theorem Moves.fixed (h : Moves n₀ t inp s s') (hrec : Recoverable n₀ inp)
    (hin : inp.Fixed mem n) (hs : s.Fixed mem n) : s'.Fixed mem n := by
  induction h with
  | refl => exact hs
  | tail _ hm ih => exact hm.fixed hrec hin ih

/-- **Members write to members.** -/
theorem Emitted.fixed {d : NodeId} {m : Msg M.Blob} (h : Emitted n₀ t inp s s' (.send d m))
    (hn : n ∈ mem) (hin : inp.Fixed mem n) (hs : s.Fixed mem n) (hs' : s'.Fixed mem n) :
    m.Fixed mem n d := by
  have hpeer : ∀ {s : Node M}, s.Fixed mem n → d ∈ s.peers → n ∈ mem ∧ n ≠ d :=
    fun hs hd => ⟨hn, ((hs.peers d).mp hd).2.symm⟩
  have hbooked : Booked n₀ s' inp d → n ∈ mem ∧ n ≠ d := by
    rintro (hd | ⟨-, -, aer, rfl, -⟩)
    · exact hpeer hs' hd
    · exact ⟨hn, hin.2.symm⟩
  cases h with
  | requestVote d hd => exact hpeer hs' hd
  | requestVoteReply src rv granted hinp =>
    subst hinp
    exact ⟨hn, hin.2.symm⟩
  | installSnapshot d hbook => exact hbooked hbook
  | appendEntries d next prevTerm hbook =>
    exact ⟨hbooked hbook, fun e he => hs'.log e (RaftLog.mem_of_mem_slice he)⟩
  | acceptReply src ae hinp =>
    subst hinp
    exact ⟨hn, hin.1.2.symm⟩
  | rejectStale src ae hinp =>
    subst hinp
    exact ⟨hn, hin.1.2.symm⟩
  | rejectConflict src ae hinp =>
    subst hinp
    exact ⟨hn, hin.1.2.symm⟩
  | clientReply => trivial
  | installSnapshotReply src is hc =>
    rw [hc.message] at hin
    exact ⟨hn, hin.2.symm⟩
  | readIndexReply src req hinp =>
    subst hinp
    exact ⟨hn, hin.2.symm⟩
  | readIndexRequest d key hd => exact hpeer hs hd

end Moves

/-! ## Runs -/

namespace Cluster

/-- The members and what they write to each other. -/
def fixedInvariant (M : Medium) (mem : Finset NodeId) : Invariant M Unit where
  le _ _ := True
  node _ n s := s.Fixed mem n
  packet _ p := p.msg.Fixed mem p.src p.dst
  effect _ _ _ _ := True
  le_refl _ := trivial
  le_trans _ _ _ _ _ := trivial
  packet_mono _ _ _ _ h := h
  effect_mono _ _ _ _ _ _ h := h
  node_settle _ _ _ h _ := ⟨h.peers, h.log, fun _ _ h => nomatch h⟩

variable {C : Cluster M} {mem : Finset NodeId} {e : Event} {n : NodeId} {inp : Input M}

/-- What a plain event gives to its node. -/
theorem fixed_input (hC : C.Settled) (h : (fixedInvariant M mem).Holds () C)
    (he : e.plain = true) (hinp : C.input e = some (n, inp)) : inp.Fixed mem n := by
  cases inp with
  | message src m =>
    obtain ⟨k, p, -, hk, rfl, rfl, rfl⟩ := input_message hinp
    exact h.packet p (hC.inFlight_iff.mpr (List.mem_of_getElem? hk))
  | submit cid rid cmd =>
    cases e with
    | submit m c r cmd' =>
      cases hinp
      simpa [Event.plain, Input.Fixed] using he
    | deliver k => simp [input] at hinp
    | _ => simp [input] at hinp
  | _ => trivial

theorem fixed_exec (hC : C.Settled) (hd : C.Durable) (hs : C.Sized) (hmem : C.members = mem)
    (he : e.plain = true) (h : (fixedInvariant M mem).Holds () C) :
    (fixedInvariant M mem).Holds () (C.exec e) := by
  refine (Invariant.exec (e := e) hC h ?_ ?_).elim fun _ h' => h'.2
  · intro n inp s s' _ hinp hn _ _ hm hh
    have hin := fixed_input hC h he hinp
    have hs₀ : s.Fixed mem n := by
      have := hh.node n hn
      rwa [set_node_self] at this
    have hs' := hm.fixed (hd.recoverable hs hinp hn) hin hs₀
    exact ⟨(), .stay hs' (fun _ _ => trivial) fun d m hsent =>
      hsent.fixed (hmem ▸ hn) hin hs₀ hs'⟩
  · rintro src dst cr rfl
    simpa [Event.plain, fixedInvariant, Msg.Fixed] using he

theorem plain_of_isPre {es es' : List Event} (h : ∀ e ∈ es, e.plain = true)
    (hpre : es' ++ [e] <+: es) : e.plain = true :=
  h e (hpre.subset (List.mem_append_right _ (List.mem_singleton_self e)))

/-- **In a run of plain events the membership is what it was at the start.** -/
theorem fixed_run (mem : Membership) (cfg : NodeId → RaftConfig) {es : List Event}
    (hs : ∀ es', es' <+: es → ((init M mem cfg).run es').Sized)
    (hplain : ∀ e ∈ es, e.plain = true) {es' : List Event} (hpre : es' <+: es) :
    (fixedInvariant M mem.members).Holds () ((init M mem cfg).run es') := by
  have hC := settled_init M mem cfg
  refine (Invariant.run (I := fixedInvariant M mem.members) (g := ()) ?_ es' ?_).elim
    fun _ h => h.2
  · refine ⟨fun n hn => ?_, fun p hp => absurd (hC.inFlight_iff.mp hp) List.not_mem_nil,
      fun _ _ _ _ _ => trivial, fun _ _ h => h.elim⟩
    rw [init_node]
    exact ⟨fun m => (List.mem_insertionSort _).trans (mem.mem_peers n hn m),
      fun e he => absurd he List.not_mem_nil, fun _ _ h => nomatch h⟩
  · intro es'' e hpre'' _ _ h
    have hle := hpre''.trans hpre
    have hle' : es'' <+: es := (List.prefix_append _ _).trans hle
    exact ⟨(), trivial, fixed_exec (settled_run hC es'')
      ((durable_init M mem cfg).run hC es'' fun es₀ h => hs es₀ (h.trans hle')) (hs es'' hle')
      (run_members _ _) (plain_of_isPre hplain hle) h⟩

end Cluster

end SimKV
