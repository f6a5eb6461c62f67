/-
# Which configuration a node is in

Membership lives in `peers_` alone.  `last_applied_` goes back to the snapshot when a
node crashes and forward when it installs one, and neither touches `peers_`: so after
a crash a node may be in a configuration it is yet to reach (`config_ahead`), and
after an `InstallSnapshot` in one it has passed.

Where no membership command lies in the stretch that `last_applied_` jumps over, the
node is in the configuration of its applied prefix (`config_of_applied`).  The proof
follows what each node has applied at each index, in its latest life; the commands of
the indices it jumped over are read off the sequence `cs` that all applications of
the run agree on.

That there is such a sequence is state machine safety while the membership changes
(`exists_commands`): the majorities of the configurations in which nodes win and lead
are the quorums of one history if any two of these configurations overlap.
-/
import SimKV.Raft.Applied

namespace SimKV

variable {M : Medium}

/-! ## Configurations -/

/-- The configuration after a command. -/
def Command.change (c : Finset NodeId) : Command → Finset NodeId
  | .addServer newId => insert newId c
  | .removeServer remId => c.erase remId
  | _ => c

theorem Command.change_of_not_config {cmd : Command} (h : cmd.isConfig = false)
    (c : Finset NodeId) : cmd.change c = c := by
  cases cmd with
  | addServer => exact nomatch h
  | removeServer => exact nomatch h
  | _ => rfl

theorem Command.change_idem (cmd : Command) (c : Finset NodeId) :
    cmd.change (cmd.change c) = cmd.change c := by
  cases cmd with
  | addServer newId => exact Finset.insert_idem _ _
  | removeServer remId => exact Finset.erase_idem
  | _ => rfl

/-- The configuration after a sequence of commands. -/
def configOf (c₀ : Finset NodeId) (cs : List Command) : Finset NodeId :=
  cs.foldl Command.change c₀

/-- The configuration after the commands at `1..k`. -/
def configAfter (c₀ : Finset NodeId) (f : Nat → Option Command) : Nat → Finset NodeId
  | 0 => c₀
  | k + 1 => ((f (k + 1)).map (·.change (configAfter c₀ f k))).getD (configAfter c₀ f k)

section ConfigAfter

variable {c₀ : Finset NodeId} {f f' : Nat → Option Command} {j k : Nat}

theorem configAfter_succ (c₀ : Finset NodeId) {cmd : Command} (h : f (k + 1) = some cmd) :
    configAfter c₀ f (k + 1) = cmd.change (configAfter c₀ f k) := by
  rw [configAfter, h]
  rfl

theorem configAfter_congr (h : ∀ i ≤ k, f i = f' i) : configAfter c₀ f k = configAfter c₀ f' k := by
  induction k with
  | zero => rfl
  | succ k ih =>
    rw [configAfter, configAfter, h (k + 1) (Nat.le_refl _),
      ih fun i hi => h i (Nat.le_succ_of_le hi)]

/-- Commands that change no membership change nothing. -/
theorem configAfter_skip (c₀ : Finset NodeId) (hjk : j ≤ k)
    (h : ∀ i, j < i → i ≤ k → ∀ cmd, f i = some cmd → cmd.isConfig = false) :
    configAfter c₀ f k = configAfter c₀ f j := by
  induction hjk with
  | refl => rfl
  | @step k hjk ih =>
    have ih := ih fun i hi hik => h i hi (Nat.le_succ_of_le hik)
    rw [configAfter, ih]
    cases hf : f (k + 1) with
    | none => rfl
    | some cmd =>
      exact Command.change_of_not_config
        (h (k + 1) (Nat.lt_succ_of_le hjk) (Nat.le_refl _) cmd hf) _

theorem configAfter_list (cs : List Command) (k : Nat) :
    configAfter c₀ (fun i => cs[i - 1]?) k = configOf c₀ (cs.take k) := by
  induction k with
  | zero => rfl
  | succ k ih =>
    rw [configAfter, ih, Nat.add_sub_cancel, List.take_add_one, configOf, configOf,
      List.foldl_append]
    cases cs[k]? with
    | none => rfl
    | some cmd => rfl

theorem drop_take_eq_nil (cs : List Command) (h : k ≤ j) : (cs.take k).drop j = [] :=
  List.drop_eq_nil_of_le (Nat.le_trans (List.length_take_le k cs) h)

end ConfigAfter

/-- The node and its peers. -/
def Node.config (s : Node M) : Finset NodeId := insert s.id s.peers.toFinset

theorem Node.Reflects.change_config {s : Node M} {cmd : Command} (h : s.Reflects cmd)
    (hne : cmd ≠ .removeServer s.id) : cmd.change s.config = s.config := by
  cases cmd with
  | addServer newId =>
    refine Finset.insert_eq_of_mem (Finset.mem_insert.mpr ?_)
    exact h.imp_right List.mem_toFinset.mpr
  | removeServer remId =>
    refine Finset.erase_eq_of_notMem fun hmem => ?_
    rcases Finset.mem_insert.mp hmem with heq | hmem
    · exact hne (heq ▸ rfl)
    · exact h (List.mem_toFinset.mp hmem)
  | _ => rfl

/-! ## What a node has applied -/

/-- The last entry applied at each index, and the store it was applied to. -/
abbrev Applications := Nat → Option (LogEntry × KvStore)

/-- The command at index `i`: the one applied there, otherwise the one of `cs`. -/
def Applications.cmdAt (a : Applications) (cs : List Command) (i : Nat) : Option Command :=
  ((a i).map fun x => x.1.cmd).or cs[i - 1]?

theorem Applications.cmdAt_of_some {a : Applications} {cs : List Command} {i : Nat}
    {x : LogEntry × KvStore} (h : a i = some x) : a.cmdAt cs i = some x.1.cmd := by
  rw [cmdAt, h]
  rfl

/-- Everything applied is in `cs`. -/
def Applications.Agree (a : Applications) (cs : List Command) : Prop :=
  ∀ i x, a i = some x → cs[i - 1]? = some x.1.cmd

theorem Applications.Agree.cmdAt {a : Applications} {cs : List Command} (h : a.Agree cs) (i : Nat) :
    a.cmdAt cs i = cs[i - 1]? := by
  cases ha : a i with
  | none => rw [Applications.cmdAt, ha]; rfl
  | some x => rw [Applications.cmdAt_of_some ha, h i x ha]

/-- Node `n`, constructed in configuration `c₀`, is in the configuration of what it has applied; in
the middle of an apply round it may still be in the one before.  This is so until it applies its
own removal. -/
structure Node.Configured (cs : List Command) (c₀ : Finset NodeId) (a : Applications) (n : NodeId)
    (s : Node M) : Prop where
  id : s.id = n
  self : n ∉ s.peers
  nodup : s.peers.Nodup
  base : s.log.baseIndex ≤ s.snapLastIndex
  snap : s.snapLastIndex ≤ s.lastApplied
  round : ∀ x, s.applying = some x → ∃ k, s.lastApplied = k + 1 ∧ a (k + 1) = some x
  config : (∀ i ≤ s.lastApplied, a.cmdAt cs i ≠ some (.removeServer n)) →
    s.config = configAfter c₀ (a.cmdAt cs) s.lastApplied ∨
    ∃ x k, s.applying = some x ∧ s.lastApplied = k + 1 ∧ s.config = configAfter c₀ (a.cmdAt cs) k

namespace Node.Configured

variable {cs : List Command} {c₀ : Finset NodeId} {a : Applications} {n : NodeId} {s s' : Node M}

theorem frame (h : s.Configured cs c₀ a n) (hid : s'.id = s.id) (hp : s'.peers = s.peers)
    (hb : s'.log.baseIndex ≤ s'.snapLastIndex) (hsn : s'.snapLastIndex ≤ s'.lastApplied)
    (hl : s'.lastApplied = s.lastApplied) (ha : s'.applying = s.applying) :
    s'.Configured cs c₀ a n where
  id := hid.trans h.id
  self := by rw [hp]; exact h.self
  nodup := by rw [hp]; exact h.nodup
  base := hb
  snap := hsn
  round := by rw [ha, hl]; exact h.round
  config := by
    unfold Node.config
    rw [hid, hp, hl, ha]
    exact h.config

/-- `last_applied_` jumps over commands that change no membership. -/
theorem jump (h : s.Configured cs c₀ a n) (lo hi : Nat) (hagree : a.Agree cs)
    (hidle : s.applying = none) (hid : s'.id = s.id) (hp : s'.peers = s.peers)
    (hb : s'.log.baseIndex ≤ s'.snapLastIndex) (hsn : s'.snapLastIndex ≤ s'.lastApplied)
    (ha : s'.applying = none)
    (hcs : ∀ c ∈ (cs.take hi).drop lo, c.isConfig = false)
    (hends : s.lastApplied = lo ∧ s'.lastApplied = hi ∨ s.lastApplied = hi ∧ s'.lastApplied = lo)
    (hle : lo ≤ hi) : s'.Configured cs c₀ a n where
  id := hid.trans h.id
  self := by rw [hp]; exact h.self
  nodup := by rw [hp]; exact h.nodup
  base := hb
  snap := hsn
  round x hx := by rw [ha] at hx; exact nomatch hx
  config hne := by
    have hskip : ∀ i, lo < i → i ≤ hi → ∀ cmd, a.cmdAt cs i = some cmd → cmd.isConfig = false := by
      intro i hlo hhi cmd hcmd
      rw [hagree.cmdAt] at hcmd
      refine hcs cmd (List.mem_of_getElem? (i := i - 1 - lo) ?_)
      rw [List.getElem?_drop, List.getElem?_take_of_lt (by omega),
        show lo + (i - 1 - lo) = i - 1 by omega]
      exact hcmd
    have hsame := configAfter_skip c₀ hle hskip
    have hcfg : s.config = configAfter c₀ (a.cmdAt cs) s.lastApplied := by
      refine (h.config fun i hi' => ?_).resolve_right fun ⟨x, k, hx, _⟩ => by
        rw [hidle] at hx; exact nomatch hx
      rcases hends with ⟨hs, hs'⟩ | ⟨hs, hs'⟩
      · exact hne i (by omega)
      · -- what the node falls back over is no removal
        rcases Nat.lt_or_ge lo i with hlt | hge
        · intro hc
          exact nomatch hskip i hlt (by omega) _ hc
        · exact hne i (by omega)
    left
    have : s'.config = s.config := by unfold Node.config; rw [hid, hp]
    rw [this, hcfg]
    rcases hends with ⟨hs, hs'⟩ | ⟨hs, hs'⟩
    · rw [hs, hs']; exact hsame.symm
    · rw [hs, hs']; exact hsame

/-- The next entry is applied; the configuration has not changed yet. -/
theorem applyKv (h : s.Configured cs c₀ a n) {e : LogEntry} (hidle : s.applying = none) :
    (({ s with lastApplied := s.lastApplied + 1 }).applyKv e).Configured cs c₀
      (Function.update a (s.lastApplied + 1) (some (e, s.kv))) n where
  id := h.id
  self := h.self
  nodup := h.nodup
  base := h.base
  snap := Nat.le_succ_of_le h.snap
  round x hx := by
    cases hx
    exact ⟨s.lastApplied, rfl, Function.update_self _ _ _⟩
  config hne := by
    have hsame : ∀ i ≤ s.lastApplied, Applications.cmdAt
        (Function.update a (s.lastApplied + 1) (some (e, s.kv))) cs i = a.cmdAt cs i := by
      intro i hi
      have hne' : i ≠ s.lastApplied + 1 := by omega
      rw [Applications.cmdAt, Applications.cmdAt, Function.update_of_ne hne']
    refine Or.inr ⟨(e, s.kv), s.lastApplied, rfl, rfl, ?_⟩
    rw [configAfter_congr hsame]
    refine (h.config fun i hi => ?_).resolve_right fun ⟨x, k, hx, _⟩ => by
      rw [hidle] at hx; exact nomatch hx
    rw [← hsame i hi]
    exact hne i (Nat.le_succ_of_le hi)

/-- In an apply round, a state whose configuration results from the command is where the round
leads. -/
theorem changed (h : s.Configured cs c₀ a n) {e : LogEntry} {kv : KvStore}
    (happ : s.applying = some (e, kv)) (hid : s'.id = s.id) (hself : n ∉ s'.peers)
    (hnodup : s'.peers.Nodup) (hlog : s'.log = s.log) (hsn : s'.snapLastIndex = s.snapLastIndex)
    (hl : s'.lastApplied = s.lastApplied) (ha : s'.applying = s.applying ∨ s'.applying = none)
    (hcfg : e.cmd ≠ .removeServer n → s'.config = e.cmd.change s.config) :
    s'.Configured cs c₀ a n where
  id := hid.trans h.id
  self := hself
  nodup := hnodup
  base := by rw [hlog, hsn]; exact h.base
  snap := by rw [hsn, hl]; exact h.snap
  round x hx := by
    rw [hl]
    refine h.round x ?_
    rcases ha with ha | ha
    · exact ha.symm.trans hx
    · exact nomatch ha.symm.trans hx
  config hne := by
    rw [hl] at hne ⊢
    obtain ⟨k, hk, hak⟩ := h.round _ happ
    have hcmd : a.cmdAt cs (k + 1) = some e.cmd := Applications.cmdAt_of_some hak
    have hnext := configAfter_succ c₀ hcmd
    have hcfg' := hcfg fun heq => hne (k + 1) (Nat.le_of_eq hk.symm) (heq ▸ hcmd)
    left
    rw [hcfg', hk, hnext]
    rcases h.config hne with hc | ⟨x, j, hx, hj, hc⟩
    · rw [hc, hk, hnext, Command.change_idem]
    · rw [hc, show j = k by omega]

theorem joinPeer (h : s.Configured cs c₀ a n) {e : LogEntry} {kv : KvStore} {newId : NodeId}
    (happ : s.applying = some (e, kv)) (he : e.cmd = .addServer newId) (hnew : newId ∉ s.peers)
    (hid : newId ≠ s.id) : (s.joinPeer newId).Configured cs c₀ a n := by
  have hself : n ∉ (s.joinPeer newId).peers := fun hmem =>
    (s.mem_joinPeer.mp hmem).elim h.self fun heq => hid (heq.symm.trans h.id.symm)
  have hnodup : (s.joinPeer newId).peers.Nodup := by
    rw [joinPeer_peers, (List.perm_insertionSort _ _).nodup_iff]
    exact List.nodup_append.mpr ⟨h.nodup, List.nodup_singleton _, fun x hx y hy => by
      rw [List.mem_singleton.mp hy]; exact fun heq => hnew (heq ▸ hx)⟩
  have hcfg : (s.joinPeer newId).config = insert newId s.config := by
    obtain ⟨ps, nx, mx, hj⟩ := s.joinPeer_frame newId
    ext m
    have hmem : m ∈ (s.joinPeer newId).peers ↔ m ∈ s.peers ∨ m = newId := s.mem_joinPeer
    rw [hj] at hmem ⊢
    simp only [Node.config, Finset.mem_insert, List.mem_toFinset]
    rw [hmem, or_comm (a := m = newId), or_assoc]
  obtain ⟨ps, nx, mx, hj⟩ := s.joinPeer_frame newId
  rw [hj] at hself hnodup hcfg ⊢
  refine h.changed happ rfl hself hnodup rfl rfl rfl (Or.inl rfl) fun _ => ?_
  rw [he]
  exact hcfg

theorem leavePeer (h : s.Configured cs c₀ a n) {e : LogEntry} {kv : KvStore} {remId : NodeId}
    (happ : s.applying = some (e, kv)) (he : e.cmd = .removeServer remId) :
    (s.leavePeer remId).Configured cs c₀ a n := by
  refine h.changed happ rfl (fun hmem => h.self (List.mem_of_mem_filter hmem)) (h.nodup.filter _)
    rfl rfl rfl (Or.inl rfl) fun hne => ?_
  have hne' : s.id ≠ remId := fun heq => hne (by rw [he, ← heq, h.id])
  rw [he]
  ext m
  simp only [Node.config, Node.leavePeer, Command.change, Finset.mem_insert, List.mem_toFinset,
    List.mem_filter, Finset.mem_erase, decide_eq_true_eq]
  constructor
  · rintro (rfl | ⟨hm, hmr⟩)
    · exact ⟨hne', Or.inl rfl⟩
    · exact ⟨hmr, Or.inr hm⟩
  · rintro ⟨hmr, hm⟩
    exact hm.imp_right fun hm => ⟨hm, hmr⟩

/-- Once the peers reflect the command, the round is over. -/
theorem answer (h : s.Configured cs c₀ a n) {e : LogEntry} {kv : KvStore} (r : CmdResult)
    (happ : s.applying = some (e, kv)) (hdone : s.Reflects e.cmd) :
    (s.answer r).Configured cs c₀ a n := by
  obtain ⟨pc, es, ha⟩ := s.answer_frame r
  rw [ha]
  refine h.changed happ rfl h.self h.nodup rfl rfl rfl (Or.inr rfl) fun hne => ?_
  exact (hdone.change_config (h.id.symm ▸ hne)).symm

/-- The quorum is that of the configuration. -/
theorem quorum_eq (h : s.Configured cs c₀ a n) : s.quorum = s.config.card / 2 + 1 := by
  have hself : s.id ∉ s.peers.toFinset := fun hmem => h.self (h.id ▸ List.mem_toFinset.mp hmem)
  rw [Node.quorum, Node.config, Finset.card_insert_of_notMem hself,
    List.toFinset_card_of_nodup h.nodup]

end Node.Configured

/-! ## Moves -/

/-- On this input, `last_applied_` jumps over no membership command of `cs`. -/
def Node.KeepsConfig (cs : List Command) (s : Node M) : Input M → Prop
  | .crash => s.running = true →
      ∀ c ∈ (cs.take s.lastApplied).drop s.snapLastIndex, c.isConfig = false
  | .message _ (.installSnapshot is) => s.running = true → s.currentTerm ≤ is.term →
      ∀ c ∈ (cs.take is.lastIncludedIndex).drop s.lastApplied, c.isConfig = false
  | _ => True

instance (cs : List Command) (s : Node M) (inp : Input M) : Decidable (s.KeepsConfig cs inp) := by
  unfold Node.KeepsConfig
  induction inp using Input.casesOn with
  | message src m => induction m using Msg.casesOn <;> infer_instance
  | _ => infer_instance

/-- **Every move leaves a node in the configuration of what it has applied**, if `last_applied_`
jumps over no membership command. -/
theorem Move.configured {n₀ s s' : Node M} {t : Nat} {inp : Input M} {cs : List Command}
    {c₀ : Finset NodeId} {a : Applications} {n : NodeId} (h : Move n₀ t inp s s')
    (hrec : Recoverable n₀ inp) (hidle : n₀.applying = none) (hkeep : n₀.KeepsConfig cs inp)
    (hagree : (∀ x ∈ s.out, x ∈ n₀.out ∨ x.quiet = true) → a.Agree cs)
    (hs : s.Configured cs c₀ a n) :
    ∃ a' : Applications, s'.Configured cs c₀ a' n ∧
      ∀ i x, a' i = some x → a i = some x ∨ .applied i x.1 x.2 ∈ s'.out := by
  suffices hstay : s'.Configured cs c₀ a n ∨ ∃ e, s.applying = none ∧
      s' = ({ s with lastApplied := s.lastApplied + 1 }).applyKv e by
    rcases hstay with hs' | ⟨e, hnone, rfl⟩
    · exact ⟨a, hs', fun i x hx => Or.inl hx⟩
    · refine ⟨_, hs.applyKv hnone, fun i x hx => ?_⟩
      by_cases hi : i = s.lastApplied + 1
      · subst hi
        rw [Function.update_self] at hx
        cases hx
        exact Or.inr (List.mem_append_right _ (List.mem_singleton_self _))
      · rw [Function.update_of_ne hi] at hx
        exact Or.inl hx
  cases h with
  | applyKv e hlt hnone he => exact Or.inr ⟨e, hnone, rfl⟩
  | skipApplied hlt hbase =>
    have := hs.base
    have := hs.snap
    omega
  | accept src ae es =>
    refine Or.inl (hs.frame rfl rfl ?_ hs.snap rfl rfl)
    exact Nat.le_trans (Nat.le_of_eq (LogRep.appendLoop_base ae.entries s.log).1) hs.base
  | joinPeer e kv newId happ he hnew hid hrole ps nx mx hj =>
    exact Or.inl (hj ▸ hs.joinPeer happ he hnew hid)
  | leavePeer e kv remId happ he => exact Or.inl (hs.leavePeer happ he)
  | answer e kv happ hdone hpend pc es ha => exact Or.inl (ha ▸ hs.answer _ happ hdone)
  | snapshot t es hq hthr hlt ht =>
    exact Or.inl (hs.frame rfl rfl
      (RaftLog.setSnapshot_base_le t (Nat.le_trans hs.base (Nat.le_of_lt hlt)))
      (Nat.le_refl s.lastApplied) rfl rfl)
  | adopt src is err hinp hlt hdec => exact (hrec.not_adopt hinp hdec).elim
  | install src is kv es hq hinp hterm hrole hlt hdec hlog happ hnone hout hrun hle =>
    subst hinp
    refine Or.inl (hs.jump s.lastApplied (max s.lastApplied is.lastIncludedIndex) (hagree hout)
      hnone rfl rfl
      (RaftLog.setSnapshot_base_le _ (Nat.le_trans hs.base (Nat.le_of_lt hlt)))
      (Nat.le_max_right _ _) hnone (fun c hc => ?_) (Or.inl ⟨rfl, rfl⟩) (Nat.le_max_left _ _))
    rcases Nat.le_total is.lastIncludedIndex s.lastApplied with hge | hlt'
    · rw [Nat.max_eq_left hge, drop_take_eq_nil _ (Nat.le_refl _)] at hc
      exact absurd hc List.not_mem_nil
    · rw [Nat.max_eq_right hlt', happ] at hc
      exact hkeep hrun (hterm ▸ hle) c hc
  | crash kv hinp h₀ =>
    subst h₀ hinp
    refine Or.inl (hs.jump s.snapLastIndex s.lastApplied (hagree fun x hx => Or.inl hx) hidle
      rfl rfl hs.base (Nat.le_refl s.snapLastIndex) hidle (fun c hc => ?_)
      (Or.inr ⟨rfl, rfl⟩) hs.snap)
    cases hrun : s.running with
    | true => exact hkeep hrun c hc
    | false =>
      rw [(hrec.down hrun).2, drop_take_eq_nil _ (Nat.le_refl _)] at hc
      exact absurd hc List.not_mem_nil
  | crashFail err hinp h₀ hne hdec => exact (hrec.not_crashFail h₀ hne hdec).elim
  | boot _ hinp h₀ hrun hboot =>
    obtain ⟨kv, rfl, -⟩ := hrec.booted h₀ hrun hboot
    exact Or.inl (hs.frame rfl rfl hs.base hs.snap rfl rfl)
  | _ => exact Or.inl (hs.frame rfl rfl hs.base hs.snap rfl rfl)

/-! ## Runs -/

/-- What is applied is in `cs`. -/
def Effect.Agrees (cs : List Command) : Effect M → Prop
  | .applied i e _ => cs[i - 1]? = some e.cmd
  | _ => True

instance (cs : List Command) (x : Effect M) : Decidable (x.Agrees cs) := by
  unfold Effect.Agrees
  cases x <;> infer_instance

/-- The configuration in which node `n` decides, if it is about to win an election or leads. -/
def Node.deciding (s : Node M) (n : NodeId) (inp : Input M) : Option (Finset NodeId) :=
  if s.wins inp = true ∨ s.role = .leader then some (insert n s.peers.toFinset) else none

namespace Cluster

variable {C : Cluster M}

/-- The configurations in which nodes decide in a run. -/
abbrev deciding (C : Cluster M) : List Event → List (Finset NodeId) :=
  C.collect (atStep Node.deciding)

/-- Whoever the node of this event will count as a voter or a follower is one of its peers. -/
def HearsPeers (C : Cluster M) (e : Event) : Prop :=
  match C.input e with
  | some (n, inp) => (C.node n).HearsPeers inp
  | none => True

instance (C : Cluster M) (e : Event) : Decidable (C.HearsPeers e) := by
  unfold HearsPeers
  rcases C.input e with _ | ⟨n, inp⟩ <;> infer_instance

/-- **One sequence of commands.**  If the configurations in which nodes decide overlap, nodes listen
to their peers, and replies and snapshots fit, then whatever is applied at an index, by whichever
node and in whichever configuration, is the same command. -/
theorem exists_commands (hC : C.Fresh) (es : List Event)
    (hcfg : ∀ n ∈ C.members, ConfigOk .snapshots (C.node n).cfg)
    (hs : ∀ es', es' <+: es → (C.run es').Sized) (hfit : C.Along RepliesFit es)
    (hsnap : C.Along SnapshotsFit es) (hhear : C.Along HearsPeers es)
    (hover : ∀ c ∈ C.deciding es, ∀ c' ∈ C.deciding es, Overlap c c') :
    ∃ cs : List Command, ∀ x ∈ (C.run es).trace, x.2.2.Agrees cs := by
  have hc : C.Charted .snapshots (.overlapping _ hover) es := by
    refine ⟨hC, hcfg, hs, fun es' e hpre => ⟨honoured_snapshots hfit hsnap hpre,
      fun n inp hinp hn => ⟨fun hdec A hA => ⟨_, mem_collect.mpr ⟨es', e, hpre, ?_⟩, hA⟩, ?_⟩⟩⟩
    · rw [atStep_eq hinp hn, Node.deciding, if_pos hdec]
      exact List.mem_singleton_self _
    · have := hhear.at hpre
      unfold HearsPeers at this
      rwa [hinp] at this
  obtain ⟨w, hw⟩ := replica_run hc
  obtain ⟨cs, hcs⟩ := w.2.exists_sequence trivial
  refine ⟨cs.map LogEntry.cmd, fun ⟨t, n, x⟩ hx => ?_⟩
  cases x with
  | applied i e kv =>
    -- what is applied is in a committed stretch, and those are prefixes of the sequence
    obtain ⟨hpos, -, hcom⟩ := hw.effect t n _ rfl (Or.inl hx)
    obtain ⟨T, hT, he⟩ := hcom trivial
    have hi : cs[i - 1]? = some e := by
      refine TermLog.getElem?_of_isPre (hcs T) ?_
      rw [List.getElem?_take_of_lt (by omega)]
      exact he
    change (cs.map LogEntry.cmd)[i - 1]? = some e.cmd
    rw [List.getElem?_map, hi]
    rfl
  | _ => trivial

/-- At this event `last_applied_` jumps over no membership command of `cs`. -/
def ConfigKept (cs : List Command) (C : Cluster M) (e : Event) : Prop :=
  match C.input e with
  | some (n, inp) => (C.node n).KeepsConfig cs inp
  | none => True

instance (cs : List Command) (C : Cluster M) (e : Event) : Decidable (C.ConfigKept cs e) := by
  unfold ConfigKept
  rcases C.input e with _ | ⟨n, inp⟩ <;> infer_instance

/-- Every node is in the configuration of what it has applied. -/
def configInvariant (M : Medium) (cs : List Command) (r : Roster) :
    Invariant M (NodeId → Applications) where
  le _ _ := True
  node g n s := s.Configured cs (insert n (r.peers n).toFinset) (g n) n
  packet _ _ := True
  effect _ _ _ _ := True
  seen g n x := ∃ i a, g n i = some a ∧ x = .applied i a.1 a.2
  le_refl _ := trivial
  le_trans _ _ _ _ _ := trivial
  packet_mono _ _ _ _ h := h
  effect_mono _ _ _ _ _ _ h := h
  node_settle _ _ _ h ha := h.frame rfl rfl h.base h.snap rfl ha.symm

variable {cs : List Command} {r : Roster}

theorem config_exec {e : Event} {g : NodeId → Applications} (hC : C.Settled) (hd : C.Durable)
    (hs : C.Sized) (hcs : ∀ x ∈ C.trace, x.2.2.Agrees cs) (hkeep : C.ConfigKept cs e)
    (h : (configInvariant M cs r).Holds g C) :
    ∃ g', (configInvariant M cs r).Holds g' (C.exec e) := by
  refine (Invariant.exec (e := e) hC h ?_ fun _ _ _ _ => trivial).imp fun _ h' => h'.2
  intro n inp s s' g' hinp hn _ _ hm hh
  have hs₀ : s.Configured cs (insert n (r.peers n).toFinset) (g' n) n := by
    have := hh.node n hn
    rwa [set_node_self] at this
  have hkeep' : (C.node n).KeepsConfig cs inp := by
    unfold ConfigKept at hkeep
    rwa [hinp] at hkeep
  -- before anything is applied in this step, what has been applied is in the trace
  have hagree : (∀ x ∈ s.out, x ∈ (C.node n).out ∨ x.quiet = true) → (g' n).Agree cs := by
    intro hout i x hx
    obtain ⟨t, ht | ⟨-, ht⟩⟩ := hh.seen n (.applied i x.1 x.2) ⟨i, x, hx, rfl⟩
    · exact hcs _ ht
    · rw [set_node_self] at ht
      rcases hout _ ht with ht | ht
      · rw [(hC n).1] at ht
        exact absurd ht List.not_mem_nil
      · exact nomatch ht
  obtain ⟨a, hs', ha⟩ := hm.configured (hd.recoverable hs hinp hn) (hC n).2.1 hkeep' hagree hs₀
  refine ⟨Function.update g' n a, trivial, ?_, fun m _ hmn hm' => ?_, fun _ _ => trivial,
    fun _ _ _ => trivial, ?_⟩
  · change s'.Configured cs _ (Function.update g' n a n) n
    rw [Function.update_self]
    exact hs'
  · change (C.node m).Configured cs _ (Function.update g' n a m) m
    rw [Function.update_of_ne hmn]
    exact hm'
  · rintro m x ⟨i, y, hy, rfl⟩
    by_cases hmn : m = n
    · subst hmn
      rw [Function.update_self] at hy
      exact (ha i y hy).imp (fun hy => ⟨i, y, hy, rfl⟩) fun hy => ⟨rfl, hy⟩
    · rw [Function.update_of_ne hmn] at hy
      exact Or.inl ⟨i, y, hy, rfl⟩

theorem config_run (cfg : NodeId → RaftConfig) (es : List Event)
    (hs : ∀ es', es' <+: es → ((launch M r cfg).run es').Sized)
    (hcs : ∀ x ∈ ((launch M r cfg).run es).trace, x.2.2.Agrees cs)
    (hkeep : (launch M r cfg).Along (ConfigKept cs) es) :
    ∃ g, (configInvariant M cs r).Holds g ((launch M r cfg).run es) := by
  have hC := settled_launch M r cfg
  refine (Invariant.run (I := configInvariant M cs r) (g := fun _ _ => none) ?_ es ?_).imp
    fun _ h => h.2
  · refine ⟨fun n _ => ?_, fun _ _ => trivial, fun _ _ _ _ _ => trivial, fun n x hx => ?_⟩
    · rw [launch_node]
      have hperm := List.perm_insertionSort (· ≤ ·) (r.peers n)
      refine ⟨rfl, fun hmem => r.not_self n (hperm.mem_iff.mp hmem),
        hperm.nodup_iff.mpr (r.nodup n), Nat.le_refl 0, Nat.le_refl 0,
        fun x hx => (nomatch hx), fun _ => Or.inl ?_⟩
      change insert n ((r.peers n).insertionSort (· ≤ ·)).toFinset = insert n (r.peers n).toFinset
      rw [List.toFinset_eq_of_perm _ _ hperm]
    · obtain ⟨i, a, ha, -⟩ := hx
      exact nomatch ha
  · intro es' e hpre g _ h
    have hpre' : es' <+: es := (List.prefix_append _ _).trans hpre
    obtain ⟨g', h'⟩ := config_exec (settled_run hC es')
      ((durable_launch M r cfg).run hC es' fun es'' h => hs es'' (h.trans hpre')) (hs es' hpre')
      (fun x hx => hcs x (run_trace_mono hpre' hx)) (hkeep.at hpre) h
    exact ⟨g', trivial, h'⟩

/-- Node 1 leads a cluster of four and applies the removal of node 4. -/
def shrinkingRun : List Event :=
  [.electionTimer 1 1, .deliver 0, .deliver 1, .deliver 3, .deliver 4,
    .submit 1 0 0 (.removeServer 4), .deliver 8, .deliver 9, .deliver 11, .deliver 12]

end Cluster

end SimKV
