/-
# Callbacks are invoked at most once

A callback is named by the step that made it.  The tickets invoked so far and the
tickets still waiting are two parts of one *ledger*: whatever a node does, a
ticket moves from the second part to the first, or is dropped, and only the
opening of a step writes a new one (`Act.accounts`, `Opening.accounts`).  Steps
have different numbers, so no ticket is ever in the ledger twice, and one that
was invoked is not waiting any more.

For reads the waiting part also knows rounds.  A round is handed out once, so an
element of `pending_reads_` with the round of some read is that read's own.
-/
import SimKV.Raft.Acts
import Mathlib.Data.List.Perm.Subperm

namespace SimKV

variable {M : Medium} {inp : Input M} {t : Nat}

/-! ## Ledgers -/

/-- The tickets of the client callbacks invoked, in order. -/
def clientTickets (es : List (Effect M)) : List Nat :=
  es.filterMap fun
    | .clientDone cb _ => some cb.ticket
    | _ => none

/-- The tickets of the read callbacks invoked, in order. -/
def readTickets (es : List (Effect M)) : List Nat :=
  es.filterMap fun
    | .readDone ticket _ _ => some ticket
    | _ => none

@[simp] theorem clientTickets_append (es es' : List (Effect M)) :
    clientTickets (es ++ es') = clientTickets es ++ clientTickets es' := List.filterMap_append

@[simp] theorem readTickets_append (es es' : List (Effect M)) :
    readTickets (es ++ es') = readTickets es ++ readTickets es' := List.filterMap_append

theorem clientTickets_mute {es : List (Effect M)} (h : ∀ e ∈ es, e.mute = true) :
    clientTickets es = [] := by
  refine List.filterMap_eq_nil_iff.mpr fun e he => ?_
  cases e with
  | clientDone cb r => exact nomatch h _ he
  | _ => rfl

theorem readTickets_mute {es : List (Effect M)} (h : ∀ e ∈ es, e.mute = true) :
    readTickets es = [] := by
  refine List.filterMap_eq_nil_iff.mpr fun e he => ?_
  cases e with
  | readDone ticket ok v => exact nomatch h _ he
  | _ => rfl

namespace Node

/-- Client callbacks: those invoked and those waiting. -/
def clientLedger (s : Node M) : List Nat :=
  clientTickets s.out ++ s.pendingClients.toList.map fun p => p.2.ticket

/-- Read callbacks: those invoked and those waiting. -/
def readLedger (s : Node M) : List Nat :=
  readTickets s.out ++ s.pendingReads.map PendingRead.ticket

/-- The rounds of the waiting reads, with their tickets. -/
def readSlips (s : Node M) : List (Nat × Nat) := s.pendingReads.map fun pr => (pr.round, pr.ticket)

/-- From `s` to `s'` no ticket was written into a ledger, and no round handed out. -/
structure Accounts (s s' : Node M) : Prop where
  clients : s'.clientLedger.Subperm s.clientLedger
  reads : s'.readLedger.Subperm s.readLedger
  slips : s'.readSlips.Sublist s.readSlips
  round : s'.nextReadRound = s.nextReadRound

namespace Accounts

variable {s s' s'' : Node M}

theorem refl (s : Node M) : Accounts s s := ⟨.refl _, .refl _, .refl _, rfl⟩

theorem trans (h : Accounts s s') (h' : Accounts s' s'') : Accounts s s'' :=
  ⟨h'.clients.trans h.clients, h'.reads.trans h.reads, h'.slips.trans h.slips,
    h'.round.trans h.round⟩

/-- Nothing was invoked, and nobody stopped waiting. -/
theorem of_silent {es : List (Effect M)} (hc : s'.pendingClients = s.pendingClients)
    (hr : s'.pendingReads = s.pendingReads) (hn : s'.nextReadRound = s.nextReadRound)
    (ho : s'.out = s.out ++ es) (hes : clientTickets es = [] ∧ readTickets es = []) :
    Accounts s s' := by
  have hclients : s'.clientLedger = s.clientLedger := by simp [clientLedger, ho, hc, hes.1]
  have hreads : s'.readLedger = s.readLedger := by simp [readLedger, ho, hr, hes.2]
  have hslips : s'.readSlips = s.readSlips := by simp [readSlips, hr]
  exact ⟨hclients ▸ .refl _, hreads ▸ .refl _, hslips ▸ .refl _, hn⟩

theorem of_desk {es : List (Effect M)} {r : Role} (hd : s'.desk = { s.desk with role := r })
    (ho : s'.out = s.out ++ es) (hes : ∀ e ∈ es, e.mute = true) : Accounts s s' :=
  of_silent (congrArg Desk.pendingClients hd :) (congrArg Desk.pendingReads hd :)
    (congrArg Desk.nextReadRound hd :) ho ⟨clientTickets_mute hes, readTickets_mute hes⟩

end Accounts

theorem Elsewhere.accounts {s s' : Node M} (h : Elsewhere s s') : Accounts s s' := by
  obtain ⟨es, ho, hes⟩ := h.out
  exact .of_desk h.desk ho hes

theorem cancelElection_accounts (s : Node M) : Accounts s s.cancelElectionTimeout := by
  unfold cancelElectionTimeout
  split
  · exact .of_silent rfl rfl rfl rfl ⟨rfl, rfl⟩
  · exact .refl s

theorem scheduleElection_accounts (s : Node M) : Accounts s s.scheduleElectionTimeout := by
  unfold scheduleElectionTimeout
  split
  · exact .refl s
  · exact .of_silent rfl rfl rfl rfl ⟨rfl, rfl⟩

theorem resetElection_accounts (s : Node M) :
    Accounts s s.cancelElectionTimeout.scheduleElectionTimeout :=
  s.cancelElection_accounts.trans (scheduleElection_accounts _)

/-! ## Reads -/

/-- Reads leave `pending_reads_`, each with its callback invoked or without. -/
theorem Accounts.of_reads {s s' : Node M} {es : List (Effect M)} (gone : List PendingRead)
    (hperm : (gone ++ s'.pendingReads).Perm s.pendingReads)
    (hsub : s'.pendingReads.Sublist s.pendingReads)
    (hc : s'.pendingClients = s.pendingClients) (hn : s'.nextReadRound = s.nextReadRound)
    (ho : s'.out = s.out ++ es) (hes : clientTickets es = [])
    (hgone : (readTickets es).Sublist (gone.map PendingRead.ticket)) : Accounts s s' where
  clients := by
    rw [clientLedger, clientLedger, ho, clientTickets_append, hes, List.append_nil, hc]
  reads := by
    rw [readLedger, readLedger, ho, readTickets_append, List.append_assoc]
    refine List.Subperm.append (.refl _) ?_
    refine (hgone.append_right _).subperm.trans ?_
    rw [← List.map_append]
    exact (hperm.map _).subperm
  slips := hsub.map _
  round := hn

theorem readTickets_flatMap (prs : List PendingRead) (ok : Bool) (f : PendingRead → Option Str) :
    readTickets (M := M) (prs.flatMap fun pr =>
      [.timer (.cancelRead pr.round), .readDone pr.ticket ok (f pr)]) =
      prs.map PendingRead.ticket := by
  induction prs with
  | nil => rfl
  | cons pr prs ih => rw [List.flatMap_cons, readTickets_append, ih]; rfl

theorem clientTickets_flatMap (prs : List PendingRead) (ok : Bool)
    (f : PendingRead → Option Str) :
    clientTickets (M := M) (prs.flatMap fun pr =>
      [.timer (.cancelRead pr.round), .readDone pr.ticket ok (f pr)]) = [] :=
  List.filterMap_eq_nil_iff.mpr (forall_closedReads prs ok f (fun _ => rfl) fun _ _ => rfl)

theorem drain_accounts (s : Node M) : Accounts s s.drainPendingReads := by
  refine .of_reads (s.pendingReads.filter fun pr =>
      decide (pr.acks ≥ s.quorum ∧ s.lastApplied ≥ pr.readIndex)) ?_ List.filter_sublist rfl rfl rfl
    (clientTickets_flatMap _ _ _) (by rw [readTickets_flatMap])
  have hperm := List.filter_append_perm
    (fun pr : PendingRead => decide (pr.acks ≥ s.quorum ∧ s.lastApplied ≥ pr.readIndex))
    s.pendingReads
  simp only [← decide_not] at hperm
  exact hperm

theorem readTimeout_accounts (s : Node M) (round : Nat) : Accounts s (s.readTimeout round) := by
  unfold readTimeout
  split
  · exact .refl s
  · rename_i pr hpr
    obtain ⟨hround, as, bs, hsplit, has⟩ := List.find?_eq_some_iff_append.mp hpr
    have herase : (s.pendingReads.eraseP fun pr => pr.round == round) = as ++ bs := by
      rw [hsplit, List.eraseP_append_right _ (by simpa using has),
        List.eraseP_cons_of_pos (by exact hround)]
    refine .of_reads [pr] ?_ List.eraseP_sublist rfl rfl rfl rfl (.refl _)
    change ([pr] ++ s.pendingReads.eraseP fun pr => pr.round == round).Perm s.pendingReads
    rw [herase, hsplit]
    change (pr :: (as ++ bs)).Perm (as ++ pr :: bs)
    exact List.perm_middle.symm

theorem ackRead_map (round : Nat) (prs : List PendingRead) {α : Type} {f : PendingRead → α}
    (hf : ∀ pr : PendingRead, ∀ k, f { pr with acks := k } = f pr) :
    (ackRead round prs).map f = prs.map f := by
  induction prs with
  | nil => rfl
  | cons pr prs ih =>
    rw [ackRead]
    split
    · rw [List.map_cons, List.map_cons, hf]
    · rw [List.map_cons, List.map_cons, ih]

theorem ackRead_accounts (s : Node M) (round : Nat) :
    Accounts s { s with pendingReads := ackRead round s.pendingReads } where
  clients := .refl _
  reads := by
    rw [readLedger, ackRead_map round s.pendingReads fun _ _ => rfl]
    exact .refl _
  slips := by
    rw [readSlips, ackRead_map round s.pendingReads fun _ _ => rfl]
    exact .refl _
  round := rfl

/-! ## Clients -/

theorem invoke_tickets (s : Node M) (cb : Callback) (r : CmdResult) :
    ∃ es, s.invoke cb r = { s with out := s.out ++ es } ∧ clientTickets es = [cb.ticket] ∧
      readTickets es = [] := by
  unfold invoke
  cases cb.origin with
  | none => exact ⟨_, rfl, rfl, rfl⟩
  | some p => exact ⟨[.clientDone cb r, _], by simp [send, emit]; rfl, rfl, rfl⟩

theorem invokeAll_tickets (ps : List (Nat × Callback)) (r : CmdResult) (s : Node M) :
    ∃ es, ps.foldl (fun s p => s.invoke p.2 r) s = { s with out := s.out ++ es } ∧
      clientTickets es = ps.map (fun p => p.2.ticket) ∧ readTickets es = [] := by
  induction ps generalizing s with
  | nil => exact ⟨[], by simp, rfl, rfl⟩
  | cons p ps ih =>
    obtain ⟨es, he, hc, hr⟩ := s.invoke_tickets p.2 r
    obtain ⟨es', he', hc', hr'⟩ := ih (s.invoke p.2 r)
    refine ⟨es ++ es', ?_, by rw [clientTickets_append, hc, hc']; rfl,
      by rw [readTickets_append, hr, hr']; rfl⟩
    rw [List.foldl_cons, he', he]
    simp only [List.append_assoc]

/-- Answering a client moves one ticket. -/
theorem answer_accounts (s : Node M) (r : CmdResult) : Accounts s (s.answer r) := by
  unfold answer
  split
  · exact .of_silent rfl rfl rfl (List.append_nil _).symm ⟨rfl, rfl⟩
  · rename_i cb hcb
    obtain ⟨es, he, hc, hr⟩ := s.invoke_tickets cb r
    rw [he]
    refine ⟨?_, ?_, .refl _, rfl⟩
    · rw [clientLedger, clientLedger, clientTickets_append, hc, List.append_assoc]
      exact List.Subperm.append (.refl _) (OrdMap.cons_erase_subperm hcb fun p => p.2.ticket)
    · rw [readLedger, readLedger, readTickets_append, hr, List.append_nil]

/-- A crash answers the waiting clients and forgets the waiting reads. -/
theorem dropClients_accounts (s : Node M) : Accounts s s.dropClients := by
  unfold dropClients
  obtain ⟨es, he, hc, hr⟩ := invokeAll_tickets s.pendingClients.toList nodeCrashed s
  simp only [he]
  have hmute : ∀ e ∈ s.pendingReads.map fun pr => Effect.timer (M := M) (.cancelRead pr.round),
      e.mute = true := by
    intro e h
    obtain ⟨pr, -, rfl⟩ := List.mem_map.mp h
    rfl
  refine ⟨?_, ?_, List.nil_sublist _, rfl⟩
  · simp only [clientLedger, clientTickets_append, hc, clientTickets_mute hmute, List.append_nil,
      OrdMap.empty, List.map_nil]
    exact .refl _
  · simp only [readLedger, readTickets_append, hr, readTickets_mute hmute, List.append_nil,
      List.map_nil]
    exact (List.sublist_append_left _ _).subperm

end Node

/-! ## Steps -/

theorem Act.accounts {s s' : Node M} (h : Act inp s s') : s.Accounts s' := by
  cases h with
  | elsewhere h => exact h.accounts
  | stepDown T l hT =>
    obtain ⟨s₁, dropped, es, es', he, hd, hreads, ho, hes, hes'⟩ := s.becomeFollower_reset T l
    rw [he]
    refine Node.Accounts.trans ?_ s₁.resetElection_accounts
    refine .of_reads dropped (by rw [← hreads]) (by rw [hreads]; simp)
      (congrArg Desk.pendingClients hd :) (congrArg Desk.nextReadRound hd :) ho ?_ ?_
    · rw [clientTickets_append, clientTickets_append, clientTickets_mute hes,
        clientTickets_mute hes', Node.cancelReads, Node.clientTickets_flatMap]
      rfl
    · rw [readTickets_append, readTickets_append, readTickets_mute hes, readTickets_mute hes',
        Node.cancelReads, Node.readTickets_flatMap]
      simp
  | grant src rv hinp hg =>
    obtain ⟨s₁, es, he, hd, ho, hes⟩ := s.grantVote_reset rv.candidateId
    rw [he]
    exact (Node.Accounts.of_desk hd ho hes).trans s₁.resetElection_accounts
  | expire hinp hidle => exact .of_silent rfl rfl rfl (List.append_nil _).symm ⟨rfl, rfl⟩
  | campaign hinp hrun hrole =>
    obtain ⟨s₁, es, he, hd, -, ho, hes⟩ := ({ s with
      timers := { s.timers with electionScheduled := false } } : Node M).standForElection_reset
    rw [he]
    have h₁ : s.Accounts s₁ := .of_silent (congrArg Desk.pendingClients hd :)
      (congrArg Desk.pendingReads hd :) (congrArg Desk.nextReadRound hd :) ho
      ⟨clientTickets_mute hes, readTickets_mute hes⟩
    exact h₁.trans s₁.resetElection_accounts
  | win hrole =>
    obtain ⟨s₁, helse, hd, -, ho⟩ := s.takeOffice_cancel
    have h₁ : s.Accounts s₁ := .of_desk hd (ho.trans (List.append_nil _).symm) (by simp)
    exact (h₁.trans s₁.cancelElection_accounts).trans helse.accounts
  | answer r => exact s.answer_accounts r
  | drain => exact s.drain_accounts
  | ackRead round => exact s.ackRead_accounts round
  | readTimeout round => exact s.readTimeout_accounts round
  | stop hinp => exact .of_silent rfl rfl rfl (List.append_nil _).symm ⟨rfl, rfl⟩
  | dropClients hinp => exact s.dropClients_accounts
  | boot hinp =>
    obtain ⟨T, v, l, kv, i, tm, d, c, a, he, -⟩ := s.reboot_reloads
    rw [he]
    exact .of_silent rfl rfl rfl (List.append_nil _).symm ⟨rfl, rfl⟩
  | wake hinp => exact s.scheduleElection_accounts

theorem Acts.accounts {s s' : Node M} (h : Acts inp s s') : s.Accounts s' := by
  induction h with
  | refl => exact .refl s
  | tail _ ha ih => exact ih.trans ha.accounts

namespace Node

/-- From `s` to `s'` at most the ticket `t` was written into the ledgers, and at most one round
handed out, to `t`. -/
structure Enters (t : Nat) (s s' : Node M) : Prop where
  clients : s'.clientLedger.Subperm (t :: s.clientLedger)
  reads : s'.readLedger.Subperm (t :: s.readLedger)
  slips : (s'.readSlips.Sublist s.readSlips ∧ s'.nextReadRound = s.nextReadRound) ∨
    (s'.readSlips.Sublist (s.readSlips ++ [(s.nextReadRound, t)]) ∧
      s'.nextReadRound = s.nextReadRound + 1)

theorem Accounts.enters {s s' : Node M} (h : Accounts s s') : Enters t s s' :=
  ⟨h.clients.trans (List.sublist_cons_self _ _).subperm,
    h.reads.trans (List.sublist_cons_self _ _).subperm, Or.inl ⟨h.slips, h.round⟩⟩

theorem Enters.trans {s s' s'' : Node M} (h : Enters t s s') (h' : Accounts s' s'') :
    Enters t s s'' :=
  ⟨h'.clients.trans h.clients, h'.reads.trans h.reads,
    h.slips.imp (fun h => ⟨h'.slips.trans h.1, h'.round.trans h.2⟩)
      fun h => ⟨h'.slips.trans h.1, h'.round.trans h.2⟩⟩

theorem placeEntry_enters (s : Node M) (cmd : Command) {cb : Callback} (hcb : cb.ticket = t) :
    Enters t s (s.placeEntry cmd cb) := by
  obtain ⟨hd, -, es, ho, hes⟩ := s.placeEntry_desk cmd cb
  have hclients : (s.placeEntry cmd cb).pendingClients = _ := congrArg Desk.pendingClients hd
  have hreads : (s.placeEntry cmd cb).pendingReads = _ := congrArg Desk.pendingReads hd
  have hround : (s.placeEntry cmd cb).nextReadRound = _ := congrArg Desk.nextReadRound hd
  refine ⟨?_, ?_, Or.inl ⟨?_, hround⟩⟩
  · rw [clientLedger, ho, clientTickets_append, clientTickets_mute hes, List.append_nil, hclients]
    have hins := s.pendingClients.insert_subperm (s.log.lastIndex + 1) cb fun p => p.2.ticket
    rw [hcb] at hins
    exact ((List.Subperm.refl _).append hins).trans List.perm_middle.subperm
  · rw [readLedger, ho, readTickets_append, readTickets_mute hes, List.append_nil, hreads]
    exact (List.sublist_cons_self _ _).subperm
  · rw [readSlips, hreads]
    exact .refl _

theorem readNow_enters (s : Node M) (key : Str) : Enters t s (s.readNow key t) := by
  refine ⟨?_, ?_, Or.inl ⟨.refl _, rfl⟩⟩
  · have hout : clientTickets (s.readNow key t).out = clientTickets s.out := by
      simp [readNow, emit, clientTickets]
    rw [clientLedger, hout]
    exact (List.sublist_cons_self _ _).subperm
  · have hout : readTickets (s.readNow key t).out = readTickets s.out ++ [t] := by
      simp [readNow, emit, readTickets]
    rw [readLedger, hout, List.append_assoc]
    exact List.perm_middle.subperm

theorem beginRead_enters (s : Node M) (key : Str) : Enters t s (s.beginRead key t) := by
  obtain ⟨hd, -, es, ho, hes⟩ := s.beginRead_desk key t
  have hclients : (s.beginRead key t).pendingClients = _ := congrArg Desk.pendingClients hd
  have hreads : (s.beginRead key t).pendingReads = _ := congrArg Desk.pendingReads hd
  have hround : (s.beginRead key t).nextReadRound = _ := congrArg Desk.nextReadRound hd
  refine ⟨?_, ?_, Or.inr ⟨?_, hround⟩⟩
  · rw [clientLedger, ho, clientTickets_append, clientTickets_mute hes, List.append_nil, hclients]
    exact (List.sublist_cons_self _ _).subperm
  · rw [readLedger, ho, readTickets_append, readTickets_mute hes, List.append_nil, hreads,
      List.map_append, ← List.append_assoc]
    exact (List.perm_append_singleton _ _).subperm
  · rw [readSlips, hreads, List.map_append]
    exact .refl _

end Node

theorem Opening.enters {s s' : Node M} (h : Opening t s s') : s.Enters t s' := by
  cases h with
  | none => exact (Node.Accounts.refl s).enters
  | place cmd cb hcb => exact s.placeEntry_enters cmd hcb
  | readNow key => exact s.readNow_enters key
  | beginRead key => exact s.beginRead_enters key

namespace Node

/-- One step of a node on which `crash` and `restart` may be called at any time. -/
def onInput (t : Nat) (s : Node M) : Input M → Node M
  | .crash => s.crash.state
  | .restart => s.restart.state
  | inp => s.handle t inp

theorem onInput_acts (s : Node M) (t : Nat) (inp : Input M) :
    ∃ s₁, Opening t s s₁ ∧ Acts inp s₁ (s.onInput t inp) := by
  cases inp with
  | crash => exact ⟨s, .none, s.crash_acts rfl⟩
  | restart => exact ⟨s, .none, s.restart_acts rfl⟩
  | message src m => exact s.handle_acts t _
  | electionTimer gen => exact s.handle_acts t _
  | heartbeatTimer => exact s.handle_acts t _
  | readTimer round => exact s.handle_acts t _
  | submit cid rid cmd => exact s.handle_acts t _
  | readIndex key => exact s.handle_acts t _

theorem onInput_enters (s : Node M) (t : Nat) (inp : Input M) : s.Enters t (s.onInput t inp) := by
  obtain ⟨s₁, ho, ha⟩ := s.onInput_acts t inp
  exact ho.enters.trans ha.accounts

/-! ## Runs of a node -/

/-- A run of one node from step `t` on; the effects of all steps stay in `out`. -/
def feed (t : Nat) : List (Input M) → Node M → Node M
  | [], s => s
  | inp :: inps, s => feed (t + 1) inps (s.onInput t inp)

theorem feed_append (t : Nat) (inps inps' : List (Input M)) (s : Node M) :
    feed t (inps ++ inps') s = feed (t + inps.length) inps' (feed t inps s) := by
  induction inps generalizing t s with
  | nil => rfl
  | cons inp inps ih =>
    rw [List.cons_append, feed, ih, feed, List.length_cons, Nat.add_right_comm, Nat.add_assoc]

/-- Before step `t` no ticket is in a ledger twice, and no round is waiting twice. -/
structure Once (t : Nat) (s : Node M) : Prop where
  clients : s.clientLedger.Nodup
  clients_lt : ∀ k ∈ s.clientLedger, k < t
  reads : s.readLedger.Nodup
  reads_lt : ∀ k ∈ s.readLedger, k < t
  rounds : (s.readSlips.map Prod.fst).Nodup
  rounds_lt : ∀ x ∈ s.readSlips, x.1 < s.nextReadRound

theorem once_init (id : NodeId) (peers : List NodeId) (cfg : RaftConfig) :
    Once 0 (init M id peers cfg) where
  clients := List.nodup_nil
  clients_lt := by simp [clientLedger, init, clientTickets, OrdMap.empty]
  reads := List.nodup_nil
  reads_lt := by simp [readLedger, init, readTickets]
  rounds := List.nodup_nil
  rounds_lt := by simp [readSlips, init]

/-- A ledger that gains at most the number of the step keeps its tickets apart. -/
theorem nodup_of_subperm {l l' : List Nat} (hsub : l'.Subperm (t :: l)) (hl : l.Nodup)
    (hlt : ∀ k ∈ l, k < t) : l'.Nodup ∧ ∀ k ∈ l', k < t + 1 := by
  have hnodup : (t :: l).Nodup := List.nodup_cons.mpr ⟨fun h => Nat.lt_irrefl _ (hlt t h), hl⟩
  refine ⟨?_, fun k hk => ?_⟩
  · obtain ⟨l₁, hperm, hl₁⟩ := hsub
    exact hperm.nodup_iff.mp (hnodup.sublist hl₁)
  · rcases List.mem_cons.mp (hsub.subset hk) with rfl | hk
    · exact Nat.lt_succ_self _
    · exact Nat.lt_succ_of_lt (hlt k hk)

theorem Once.enters {s s' : Node M} (h : Once t s) (he : Enters t s s') : Once (t + 1) s' := by
  obtain ⟨hc, hclt⟩ := nodup_of_subperm he.clients h.clients h.clients_lt
  obtain ⟨hr, hrlt⟩ := nodup_of_subperm he.reads h.reads h.reads_lt
  refine ⟨hc, hclt, hr, hrlt, ?_, ?_⟩
  · rcases he.slips with ⟨hsub, -⟩ | ⟨hsub, -⟩
    · exact h.rounds.sublist (hsub.map _)
    · refine List.Nodup.sublist (hsub.map _) ?_
      rw [List.map_append, List.nodup_append]
      refine ⟨h.rounds, List.nodup_singleton _, fun r hr r' hr' => ?_⟩
      obtain ⟨x, hx, rfl⟩ := List.mem_map.mp hr
      rw [List.mem_singleton.mp hr']
      exact Nat.ne_of_lt (h.rounds_lt x hx)
  · intro x hx
    rcases he.slips with ⟨hsub, hnext⟩ | ⟨hsub, hnext⟩
    · rw [hnext]
      exact h.rounds_lt x (hsub.subset hx)
    · rw [hnext]
      rcases List.mem_append.mp (hsub.subset hx) with hx | hx
      · exact Nat.lt_succ_of_lt (h.rounds_lt x hx)
      · rw [List.mem_singleton.mp hx]
        exact Nat.lt_succ_self _

theorem Once.feed {s : Node M} (h : Once t s) (inps : List (Input M)) :
    Once (t + inps.length) (feed t inps s) := by
  induction inps generalizing t s with
  | nil => exact h
  | cons inp inps ih =>
    have h' := ih (h.enters (s.onInput_enters t inp))
    rw [List.length_cons, Nat.add_comm inps.length, ← Nat.add_assoc]
    exact h'

/-- Round `r` has been handed out, and only the read with ticket `k` can be waiting under it. -/
structure Owns (r k : Nat) (s : Node M) : Prop where
  handed : r < s.nextReadRound
  only : ∀ x ∈ s.readSlips, x.1 = r → x.2 = k

theorem Once.owns {s : Node M} (h : Once t s) {r k : Nat} (hmem : (r, k) ∈ s.readSlips) :
    Owns r k s := by
  refine ⟨h.rounds_lt _ hmem, fun x hx hr => ?_⟩
  have hinj := List.inj_on_of_nodup_map h.rounds hx hmem hr
  rw [hinj]

theorem Owns.enters {s s' : Node M} {r k : Nat} (h : Owns r k s) (he : Enters t s s') :
    Owns r k s' := by
  rcases he.slips with ⟨hsub, hnext⟩ | ⟨hsub, hnext⟩
  · exact ⟨hnext ▸ h.handed, fun x hx => h.only x (hsub.subset hx)⟩
  · refine ⟨hnext ▸ Nat.lt_succ_of_lt h.handed, fun x hx hr => ?_⟩
    rcases List.mem_append.mp (hsub.subset hx) with hx | hx
    · exact h.only x hx hr
    · rw [List.mem_singleton.mp hx] at hr
      exact absurd hr (Nat.ne_of_gt h.handed)

theorem Owns.feed {s : Node M} {r k : Nat} (h : Owns r k s) (inps : List (Input M)) :
    Owns r k (feed t inps s) := by
  induction inps generalizing t s with
  | nil => exact h
  | cons inp inps ih => exact ih (h.enters (s.onInput_enters t inp))

/-- **Callbacks are invoked at most once.**  In every run of a node, whatever it is sent and
whenever its timers fire, the callback made in step `k` is invoked at most once; and once the
callback of a read that was waiting has been invoked, no element of `pending_reads_` has the round
of that read. -/
theorem callbacks_fire_once (M : Medium) (id : NodeId) (peers : List NodeId) (cfg : RaftConfig)
    (inps : List (Input M)) :
    (∀ k, (clientTickets (feed 0 inps (init M id peers cfg)).out).count k ≤ 1) ∧
    (∀ k, (readTickets (feed 0 inps (init M id peers cfg)).out).count k ≤ 1) ∧
    ∀ before after, inps = before ++ after →
      ∀ pr ∈ (feed 0 before (init M id peers cfg)).pendingReads,
        pr.ticket ∈ readTickets (feed 0 inps (init M id peers cfg)).out →
        ∀ pr' ∈ (feed 0 inps (init M id peers cfg)).pendingReads, pr'.round ≠ pr.round := by
  have h := (once_init (M := M) id peers cfg).feed inps
  have hclients := (List.nodup_append.mp h.clients).1
  obtain ⟨hreads, -, hdisj⟩ := List.nodup_append.mp h.reads
  refine ⟨fun k => List.nodup_iff_count_le_one.mp hclients k,
    fun k => List.nodup_iff_count_le_one.mp hreads k, ?_⟩
  rintro before after rfl pr hpr hfired pr' hpr' hround
  have howns : Owns pr.round pr.ticket (feed 0 before (init M id peers cfg)) :=
    ((once_init id peers cfg).feed before).owns (List.mem_map.mpr ⟨pr, hpr, rfl⟩)
  have howns' := howns.feed (t := 0 + before.length) after
  rw [← feed_append] at howns'
  have hticket := howns'.only _ (List.mem_map.mpr ⟨pr', hpr', rfl⟩) hround
  exact hdisj _ hfired _ (List.mem_map.mpr ⟨pr', hpr', rfl⟩) hticket.symm

/-- A node of two leads, begins a read and takes a command; the read's timer fires twice, and
another read begins. -/
def timedOutInputs : List (Input Medium.bytes) :=
  [.restart, .electionTimer 1, .message 2 (.requestVoteReply ⟨1, true⟩),
    .readIndex (Str.lit "k"), .submit 0 0 (.put (Str.lit "k") (Str.lit "a")), .readTimer 1,
    .readTimer 1, .readIndex (Str.lit "k")]

theorem callbacks_fire_once_timedOut :
    readTickets (feed 0 timedOutInputs (init Medium.bytes 1 [2] {})).out = [3] ∧
    (feed 0 timedOutInputs (init Medium.bytes 1 [2] {})).pendingReads =
      [⟨2, 0, Str.lit "k", 7, 1⟩] ∧
    ∀ pr' ∈ (feed 0 timedOutInputs (init Medium.bytes 1 [2] {})).pendingReads, pr'.round ≠ 1 := by
  refine ⟨by decide +kernel, by decide +kernel, ?_⟩
  exact (callbacks_fire_once Medium.bytes 1 [2] {} timedOutInputs).2.2 (timedOutInputs.take 4)
    (timedOutInputs.drop 4) (List.take_append_drop 4 _).symm ⟨1, 0, Str.lit "k", 3, 1⟩
    (by decide +kernel) (by decide +kernel)

end Node

end SimKV
