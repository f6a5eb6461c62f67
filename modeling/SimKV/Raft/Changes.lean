/-
# One membership change at a time

`submit` refuses a membership command while `config_change_pending_` is set.  The
flag is volatile: it is set by `submit`, cleared when a membership entry is applied
and by a crash, and nobody looks at the log when a node becomes leader.  As long as
a node leads, the flag and the log stay in step (`Tracks`, kept by every move of a
leader); what is missing is the moment of election.  So in a run in which every node
that is elected has the flag it should have, each leader has at most one membership
entry in flight and refuses another exactly when it has one
(`one_change_in_flight`), and a leader that inherits an uncommitted membership entry
takes a second one (`second_change_accepted`).
-/
import SimKV.Runs

namespace SimKV

variable {M : Medium}

/-! ## Membership entries of a log -/

namespace RaftLog

/-- The entry at index `i` changes the membership. -/
def configAt (l : RaftLog) (i : Nat) : Bool := (l.entryAt i).any fun e => e.cmd.isConfig

/-- The indices after `i` whose entries change the membership. -/
def configsAfter (l : RaftLog) (i : Nat) : List Nat :=
  (List.range' (i + 1) (l.lastIndex - i)).filter l.configAt

theorem configAt_iff {l : RaftLog} {i : Nat} :
    l.configAt i = true ↔ ∃ e, l.entryAt i = some e ∧ e.cmd.isConfig = true := by
  unfold configAt
  cases l.entryAt i with
  | none => simp
  | some e => simp

theorem configAt_le {l : RaftLog} {i : Nat} (h : l.configAt i = true) : i ≤ l.lastIndex := by
  obtain ⟨e, he, -⟩ := configAt_iff.mp h
  exact (entryAt_le he).2

theorem mem_configsAfter {l : RaftLog} {i j : Nat} :
    j ∈ l.configsAfter i ↔ i < j ∧ l.configAt j = true := by
  unfold configsAfter
  rw [List.mem_filter, List.mem_range'_1]
  constructor
  · rintro ⟨⟨h1, -⟩, h2⟩
    exact ⟨h1, h2⟩
  · rintro ⟨h1, h2⟩
    have := configAt_le h2
    exact ⟨⟨h1, by omega⟩, h2⟩

/-- At most one index is listed if any two that qualify are the same. -/
theorem length_configsAfter {l : RaftLog} {i : Nat} : (l.configsAfter i).length ≤ 1 ↔
    ∀ j k, i < j → i < k → l.configAt j = true → l.configAt k = true → j = k := by
  have hnd : (l.configsAfter i).Nodup := (List.nodup_range' ..).filter _
  have hmem : ∀ j, j ∈ l.configsAfter i ↔ i < j ∧ l.configAt j = true := fun j => mem_configsAfter
  constructor
  · intro h j k hj hk hcj hck
    match hl : l.configsAfter i, h with
    | [], _ => exact absurd ((hmem j).mpr ⟨hj, hcj⟩) (by rw [hl]; exact List.not_mem_nil)
    | [x], _ =>
      have h1 := (hmem j).mpr ⟨hj, hcj⟩
      have h2 := (hmem k).mpr ⟨hk, hck⟩
      rw [hl, List.mem_singleton] at h1 h2
      exact h1.trans h2.symm
  · intro h
    match hl : l.configsAfter i with
    | [] => exact Nat.zero_le 1
    | [x] => exact Nat.le_refl 1
    | x :: y :: rest =>
      rw [hl] at hnd hmem
      obtain ⟨hx, hcx⟩ := (hmem x).mp List.mem_cons_self
      obtain ⟨hy, hcy⟩ := (hmem y).mp (List.mem_cons_of_mem _ List.mem_cons_self)
      exact absurd (h x y hx hy hcx hcy) fun heq =>
        (List.nodup_cons.mp hnd).1 (heq ▸ List.mem_cons_self)

theorem configsAfter_ne_nil {l : RaftLog} {i : Nat} :
    l.configsAfter i ≠ [] ↔ ∃ j, i < j ∧ l.configAt j = true := by
  constructor
  · intro h
    obtain ⟨j, hj⟩ := List.exists_mem_of_ne_nil _ h
    exact ⟨j, mem_configsAfter.mp hj⟩
  · rintro ⟨j, hj⟩
    exact List.ne_nil_of_mem (mem_configsAfter.mpr hj)

theorem configAt_append {l : RaftLog} {e : LogEntry} {i : Nat} :
    (l.append e).configAt i = true ↔
      l.configAt i = true ∨ (i = l.lastIndex + 1 ∧ e.cmd.isConfig = true) := by
  simp only [configAt_iff, entryAt_append]
  constructor
  · rintro ⟨x, h | ⟨hi, rfl⟩, hx⟩
    · exact Or.inl ⟨x, h, hx⟩
    · exact Or.inr ⟨hi, hx⟩
  · rintro (⟨x, h, hx⟩ | ⟨hi, hx⟩)
    · exact ⟨x, Or.inl h, hx⟩
    · exact ⟨e, Or.inr ⟨hi, rfl⟩, hx⟩

theorem configAt_setSnapshot {l : RaftLog} {a i : Nat} (t : Nat) (h : a < i) :
    (l.setSnapshot a t).configAt i = l.configAt i := by
  unfold configAt
  rw [entryAt_setSnapshot t h]

end RaftLog

/-! ## The flag of a leader -/

/-- The node is in the middle of applying a membership entry. -/
def Node.Changing (s : Node M) : Prop :=
  ∃ e kv, s.applying = some (e, kv) ∧ e.cmd.isConfig = true

/-- The log reaches what is committed, and the flag is set if and only if one membership entry
has not been applied; inside an apply round it may still be set for the one just applied. -/
structure Node.Tracks (s : Node M) : Prop where
  below : s.lastApplied ≤ s.commitIndex
  reach : s.commitIndex ≤ s.log.lastIndex
  unique : ∀ i j, s.lastApplied < i → s.lastApplied < j → s.log.configAt i = true →
    s.log.configAt j = true → i = j
  known : ∀ i, s.lastApplied < i → s.log.configAt i = true → s.configChangePending = true
  needed : s.configChangePending = true →
    (∃ i, s.lastApplied < i ∧ s.log.configAt i = true) ∨ s.Changing
  alone : s.Changing → ∀ i, s.lastApplied < i → s.log.configAt i = false

namespace Node.Tracks

variable {s s' : Node M}

/-- Only the log, the indices, the round and the flag matter. -/
theorem of_untouched (h : s.Tracks) (hu : Untouched s s') : s'.Tracks where
  below := by rw [hu.lastApplied, hu.commitIndex]; exact h.below
  reach := by rw [hu.log, hu.commitIndex]; exact h.reach
  unique := by rw [hu.log, hu.lastApplied]; exact h.unique
  known := by rw [hu.log, hu.lastApplied, hu.configChangePending]; exact h.known
  needed := by
    unfold Changing
    rw [hu.log, hu.lastApplied, hu.configChangePending, hu.applying]
    exact h.needed
  alone := by
    unfold Changing
    rw [hu.log, hu.lastApplied, hu.applying]
    exact h.alone

theorem commit (h : s.Tracks) {n : Nat} (hlt : s.commitIndex < n) (hlast : n ≤ s.log.lastIndex) :
    Tracks { s with commitIndex := n } where
  below := Nat.le_trans h.below (Nat.le_of_lt hlt)
  reach := hlast
  unique := h.unique
  known := h.known
  needed := h.needed
  alone := h.alone

/-- An index that the snapshot covers holds no entry any more. -/
theorem skip (h : s.Tracks) (hlt : s.lastApplied < s.commitIndex)
    (hbase : s.lastApplied + 1 ≤ s.log.baseIndex) :
    Tracks { s with lastApplied := s.lastApplied + 1 } := by
  have hnot : s.log.configAt (s.lastApplied + 1) ≠ true := fun hc => by
    obtain ⟨e, he, -⟩ := RaftLog.configAt_iff.mp hc
    have := (RaftLog.entryAt_le he).1
    omega
  have hlt' : ∀ i, s.lastApplied + 1 < i → s.lastApplied < i := fun i h => by omega
  refine ⟨hlt, h.reach, fun i j hi hj => h.unique i j (hlt' i hi) (hlt' j hj),
    fun i hi => h.known i (hlt' i hi), fun hp => ?_, fun hc i hi => h.alone hc i (hlt' i hi)⟩
  refine (h.needed hp).imp_left fun ⟨i, hi, hci⟩ => ⟨i, ?_, hci⟩
  change s.lastApplied + 1 < i
  rcases Nat.lt_or_ge (s.lastApplied + 1) i with hgt | hge
  · exact hgt
  · exact absurd (show i = s.lastApplied + 1 by omega) fun heq => hnot (heq ▸ hci)

/-- The next entry is applied. -/
theorem applyKv (h : s.Tracks) {e : LogEntry} (hidle : s.applying = none)
    (hlt : s.lastApplied < s.commitIndex) (he : s.log.entryAt (s.lastApplied + 1) = some e) :
    (({ s with lastApplied := s.lastApplied + 1 }).applyKv e).Tracks := by
  have hlt' : ∀ i, s.lastApplied + 1 < i → s.lastApplied < i := fun i h => by omega
  have hidle' : ¬ s.Changing := fun ⟨e, kv, ha, _⟩ => by rw [hidle] at ha; exact nomatch ha
  -- if it changes the membership, it was the only one
  have honly : e.cmd.isConfig = true → ∀ i, s.lastApplied + 1 < i → s.log.configAt i = false := by
    intro hc i hi
    by_contra hci
    have := h.unique i (s.lastApplied + 1) (hlt' i hi) (Nat.lt_succ_self _) (by simpa using hci)
      (RaftLog.configAt_iff.mpr ⟨e, he, hc⟩)
    omega
  refine ⟨hlt, h.reach, fun i j hi hj => h.unique i j (hlt' i hi) (hlt' j hj),
    fun i hi => h.known i (hlt' i hi), fun hp => ?_, ?_⟩
  · by_cases hc : e.cmd.isConfig = true
    · exact Or.inr ⟨e, s.kv, rfl, hc⟩
    · obtain ⟨i, hi, hci⟩ := (h.needed hp).resolve_right hidle'
      refine Or.inl ⟨i, ?_, hci⟩
      change s.lastApplied + 1 < i
      rcases Nat.lt_or_ge (s.lastApplied + 1) i with hgt | hge
      · exact hgt
      · obtain ⟨e', he', hc'⟩ := RaftLog.configAt_iff.mp hci
        rw [show i = s.lastApplied + 1 by omega, he] at he'
        exact absurd (Option.some.inj he' ▸ hc') hc
  · rintro ⟨e', kv, ha, hc⟩
    cases ha
    exact honly hc

theorem configDone (h : s.Tracks) (hc : s.Changing) :
    Tracks { s with configChangePending := false } where
  below := h.below
  reach := h.reach
  unique := h.unique
  known i hi hci := by rw [h.alone hc i hi] at hci; exact nomatch hci
  needed hp := nomatch hp
  alone := h.alone

theorem answer (h : s.Tracks) {e : LogEntry} {kv : KvStore} (pc : OrdMap Nat Callback)
    (es : List (Effect M)) (happ : s.applying = some (e, kv))
    (hpend : e.cmd.isConfig = true → s.configChangePending = false) :
    Tracks { s with pendingClients := pc, applying := none, out := s.out ++ es } := by
  refine ⟨h.below, h.reach, h.unique, h.known, fun hp => Or.inl ?_, fun ⟨_, _, hn, _⟩ => nomatch hn⟩
  refine (h.needed hp).resolve_right fun ⟨e', kv', ha', hc⟩ => ?_
  rw [happ] at ha'
  cases ha'
  rw [hpend hc] at hp
  exact nomatch hp

/-- A snapshot of everything applied leaves the rest of the log. -/
theorem snapshot (h : s.Tracks) (t : Nat)
    (hs : s'.log = s.log.setSnapshot s.lastApplied t) (hl : s'.lastApplied = s.lastApplied)
    (hc : s'.commitIndex = s.commitIndex) (ha : s'.applying = s.applying)
    (hp : s'.configChangePending = s.configChangePending) : s'.Tracks := by
  have hcfg : ∀ i, s.lastApplied < i → s'.log.configAt i = s.log.configAt i := fun i hi => by
    rw [hs]; exact RaftLog.configAt_setSnapshot t hi
  have hlast := RaftLog.lastIndex_setSnapshot t (Nat.le_trans h.below h.reach)
  refine ⟨by rw [hl, hc]; exact h.below, by rw [hs, hc, hlast]; exact h.reach, ?_, ?_, ?_, ?_⟩
  · intro i j hi hj
    rw [hl] at hi hj
    rw [hcfg i hi, hcfg j hj]
    exact h.unique i j hi hj
  · intro i hi
    rw [hl] at hi
    rw [hcfg i hi, hp]
    exact h.known i hi
  · rw [hp, hl]
    exact fun hpd => (h.needed hpd).imp (fun ⟨i, hi, hci⟩ => ⟨i, hi, (hcfg i hi).trans hci⟩)
      fun ⟨e, kv, hk, he⟩ => ⟨e, kv, ha.trans hk, he⟩
  · rw [hl]
    rintro ⟨e, kv, hk, he⟩ i hi
    rw [hcfg i hi]
    exact h.alone ⟨e, kv, ha.symm.trans hk, he⟩ i hi

/-- A command goes to the end of the log. -/
theorem place (h : s.Tracks) {e : LogEntry} (hidle : s.applying = none)
    (hcfg : e.cmd.isConfig = true → s.configChangePending = false)
    (hs : s'.log = s.log.append e) (hl : s'.lastApplied = s.lastApplied)
    (hc : s'.commitIndex = s.commitIndex) (ha : s'.applying = s.applying)
    (hp : s'.configChangePending = (e.cmd.isConfig || s.configChangePending)) : s'.Tracks := by
  have hnone : e.cmd.isConfig = true → ∀ i, s.lastApplied < i → ¬ s.log.configAt i = true :=
    fun he i hi hci => by
      have := h.known i hi hci
      rw [hcfg he] at this
      exact nomatch this
  have hidle' : ¬ s'.Changing := fun ⟨e, kv, hk, _⟩ => by
    rw [ha, hidle] at hk
    exact nomatch hk
  have hlast : s.lastApplied < s.log.lastIndex + 1 :=
    Nat.lt_succ_of_le (Nat.le_trans h.below h.reach)
  refine ⟨by rw [hl, hc]; exact h.below, ?_, ?_, ?_, ?_, fun hch => absurd hch hidle'⟩
  · rw [hs, hc, RaftLog.lastIndex_append]
    exact Nat.le_succ_of_le h.reach
  · rw [hs, hl]
    intro i j hi hj hci hcj
    rcases RaftLog.configAt_append.mp hci with hci | ⟨hi', he⟩
    · rcases RaftLog.configAt_append.mp hcj with hcj | ⟨hj', he⟩
      · exact h.unique i j hi hj hci hcj
      · exact absurd hci (hnone he i hi)
    · rcases RaftLog.configAt_append.mp hcj with hcj | ⟨hj', -⟩
      · exact absurd hcj (hnone he j hj)
      · exact hi'.trans hj'.symm
  · rw [hs, hl, hp]
    intro i hi hci
    rcases RaftLog.configAt_append.mp hci with hci | ⟨-, he⟩
    · rw [h.known i hi hci, Bool.or_true]
    · rw [he, Bool.true_or]
  · rw [hs, hl, hp]
    intro hpd
    left
    rcases Bool.or_eq_true_iff.mp hpd with he | hpd
    · exact ⟨s.log.lastIndex + 1, hlast, RaftLog.configAt_append.mpr (Or.inr ⟨rfl, he⟩)⟩
    · obtain ⟨i, hi, hci⟩ := (h.needed hpd).resolve_right fun ⟨e, kv, hk, _⟩ => by
        rw [hidle] at hk
        exact nomatch hk
      exact ⟨i, hi, RaftLog.configAt_append.mpr (Or.inl hci)⟩

end Node.Tracks

/-! ## Moves -/

/-- A node that is down is a follower, and the flag of a leader is right. -/
structure Node.Flagged (s : Node M) : Prop where
  down : s.running = false → s.role = .follower
  leading : s.role = .leader → s.Tracks

/-- The flag says whether the log has a membership entry after the commit index; it has one at
most, and reaches the commit index. -/
def Node.FlagRight (s : Node M) : Prop :=
  s.lastApplied ≤ s.commitIndex ∧ s.commitIndex ≤ s.log.lastIndex ∧
    (s.log.configsAfter s.commitIndex).length ≤ 1 ∧
    (s.configChangePending = true ↔ s.log.configsAfter s.commitIndex ≠ [])

instance (s : Node M) : Decidable s.FlagRight := by
  unfold Node.FlagRight
  infer_instance

theorem Node.FlagRight.tracks {s : Node M} (h : s.FlagRight) (hi : s.Rested) : s.Tracks := by
  obtain ⟨hb, hr, hlen, hflag⟩ := h
  have heq : s.lastApplied = s.commitIndex := Nat.le_antisymm hb hi.2
  rw [RaftLog.length_configsAfter] at hlen
  rw [RaftLog.configsAfter_ne_nil] at hflag
  have hidle : ¬ s.Changing := fun ⟨e, kv, ha, _⟩ => by rw [hi.1] at ha; exact nomatch ha
  refine ⟨hb, hr, by rw [heq]; exact hlen, fun i hli hci => hflag.mpr ⟨i, heq ▸ hli, hci⟩,
    fun hp => Or.inl ?_, fun hc => absurd hc hidle⟩
  rw [heq]
  exact hflag.mp hp

section Moves

variable {n₀ s s' : Node M} {t : Nat} {inp : Input M}

/-- The role and everything that `Tracks` looks at are kept. -/
theorem Node.Flagged.frame (h : s.Flagged) (hrun : s'.running = s.running)
    (hrole : s'.role = s.role) (hu : Node.Untouched s s') : s'.Flagged :=
  ⟨by rw [hrun, hrole]; exact h.down, fun hl => (h.leading (hrole.symm.trans hl)).of_untouched hu⟩

theorem Node.Flagged.of_follower (hrole : s.role = .follower) : s.Flagged :=
  ⟨fun _ => hrole, fun hl => by rw [hrole] at hl; exact absurd hl (by decide)⟩

/-- A leader goes on leading. -/
theorem Node.Flagged.lead (h : s.Flagged) (hrun : s'.running = s.running)
    (hrole : s'.role = s.role) (ht : s.Tracks → s'.Tracks) : s'.Flagged :=
  ⟨by rw [hrun, hrole]; exact h.down, fun hl => ht (h.leading (hrole.symm.trans hl))⟩

theorem Node.Flagged.reload (h : s.Flagged) (hrun : s.running = false)
    (hr : Node.Reloads { s with running := true } s') : s'.Flagged := by
  obtain ⟨T, v, l, kv, i, t, d, c, a, rfl, -⟩ := hr
  exact .of_follower (h.down hrun)

/-- **Every move keeps the flag right**, given that it is right where an election is won. -/
theorem Move.flagged (h : Move n₀ t inp s s') (hi : n₀.Rested)
    (hwin : n₀.wins inp = true → n₀.FlagRight) (hs : s.Flagged) : s'.Flagged := by
  cases h with
  | newTerm | follow => exact .of_follower rfl
  | accept src ae es hq hinp hterm hrole => exact .of_follower hrole
  | install src is kv es hq hinp hterm hrole => exact .of_follower hrole
  | adopt src is err hinp hlt hdec hrole => exact .of_follower hrole
  | stand tm es es' hq hq' hrun =>
    exact ⟨fun hdown => absurd (hrun.symm.trans hdown) (by decide), fun hl => nomatch hl⟩
  | win tm es hq hrole hcount hpeers hwins hkept =>
    refine ⟨fun hdown => ?_, fun _ => ?_⟩
    · have := hs.down hdown
      rw [hrole] at this
      exact nomatch this
    · exact ((hwin hwins).tracks hi).of_untouched ⟨hkept.log, hkept.commitIndex,
        hkept.lastApplied, hkept.applying, hkept.configChangePending⟩
  | commit n hrole hlt hbase hlast => exact hs.lead rfl rfl fun h => h.commit hlt hlast
  | skipApplied hlt hbase => exact hs.lead rfl rfl fun h => h.skip hlt hbase
  | applyKv e hlt hnone he => exact hs.lead rfl rfl fun h => h.applyKv hnone hlt he
  | configDone e kv happ he => exact hs.lead rfl rfl fun h => h.configDone ⟨e, kv, happ, he⟩
  | answer e kv happ hdone hpend pc es =>
    exact hs.lead rfl rfl fun h => h.answer pc es happ hpend
  | snapshot t es hq hthr hlt ht =>
    exact hs.lead rfl rfl fun h => h.snapshot t rfl rfl rfl rfl rfl
  | place cmd cb cfgPending es hq h₀ hinp hrun hrole hcfg hpend =>
    exact hs.lead rfl rfl fun h => h.place (h₀ ▸ hi.1) hcfg rfl rfl rfl rfl hpend
  | crash kv hinp => exact .of_follower rfl
  | crashFail => exact .of_follower rfl
  | boot _ hinp h₀ hrun hboot => exact hs.reload hrun (.of_boot hboot)
  | _ => exact hs.frame rfl rfl ⟨rfl, rfl, rfl, rfl, rfl⟩

end Moves

/-! ## Runs -/

namespace Cluster

/-- If the event lets a node win an election, the flag of that node is right. -/
def ElectsFlagged (C : Cluster M) (e : Event) : Prop :=
  match C.input e with
  | some (n, inp) => (C.node n).wins inp = true → (C.node n).FlagRight
  | none => True

instance (C : Cluster M) (e : Event) : Decidable (C.ElectsFlagged e) := by
  unfold ElectsFlagged
  rcases C.input e with _ | ⟨n, inp⟩ <;> infer_instance

theorem flagged_run (r : Roster) (cfg : NodeId → RaftConfig) (es : List Event)
    (hflag : (launch M r cfg).Along ElectsFlagged es) :
    ∀ n ∈ r.members, (((launch M r cfg).run es).node n).Flagged := by
  have hC := settled_launch M r cfg
  change ∀ n ∈ (launch M r cfg).members, _
  refine local_run (K := fun _ s => s.Flagged) (fun n _ => ?_) es fun es' e hpre hes => ?_
  · rw [launch_node]
    exact .of_follower rfl
  · have hC' := settled_run hC es'
    have hf := hflag.at hpre
    intro n hn
    refine local_exec (K := fun _ s => s.Flagged) hC' (by rw [run_members]; exact hes) ?_
      (fun _ _ ha h => h.frame rfl rfl ⟨rfl, rfl, rfl, ha.symm, rfl⟩) n
      (by rw [run_members]; exact hn)
    intro m inp s s' hinp _ _ hm hs
    refine hm.flagged (hC' m).2 (fun hw => ?_) hs
    unfold ElectsFlagged at hf
    rw [hinp] at hf
    exact hf hw

/-- **One membership change in flight.**  In a run in which every node that wins an election has
the flag it should have, every leader has at most one membership entry after its commit index,
and `submit` refuses a membership command exactly when there is one. -/
theorem one_change_in_flight (M : Medium) (r : Roster) (cfg : NodeId → RaftConfig)
    (es : List Event) (hflag : (launch M r cfg).Along ElectsFlagged es) :
    ∀ n ∈ r.members, ∀ s, ((launch M r cfg).run es).node n = s → s.role = .leader →
      (s.log.configsAfter s.commitIndex).length ≤ 1 ∧
      ∀ clientId requestId cmd cb, cmd.isConfig = true →
        ((∃ s', s.submit clientId requestId cmd cb = .ok (false, s')) ↔
          s.log.configsAfter s.commitIndex ≠ []) := by
  rintro n hn s rfl hrole
  have hf := flagged_run r cfg es hflag n hn
  have hrest := (settled_run (settled_launch M r cfg) es n).2
  generalize ((launch M r cfg).run es).node n = s at *
  have ht := hf.leading hrole
  have heq : s.lastApplied = s.commitIndex := Nat.le_antisymm ht.below hrest.2
  have hidle : ¬ s.Changing := fun ⟨e, kv, ha, _⟩ => by rw [hrest.1] at ha; exact nomatch ha
  have hpend : s.configChangePending = true ↔ s.log.configsAfter s.commitIndex ≠ [] := by
    rw [RaftLog.configsAfter_ne_nil, ← heq]
    exact ⟨fun hp => (ht.needed hp).resolve_right hidle, fun ⟨i, hi, hc⟩ => ht.known i hi hc⟩
  have hrun : s.running = true := by
    by_contra hne
    have := hf.down (by simpa using hne)
    rw [hrole] at this
    exact nomatch this
  refine ⟨?_, fun clientId requestId cmd cb hcmd => ?_⟩
  · rw [RaftLog.length_configsAfter, ← heq]
    exact ht.unique
  · rw [← hpend]
    unfold Node.submit
    rw [if_neg (by simp [hrun, hrole])]
    by_cases hp : s.configChangePending = true
    · rw [if_pos ⟨hcmd, hp⟩]
      exact ⟨fun _ => hp, fun _ => ⟨s, rfl⟩⟩
    · rw [if_neg fun h => hp h.2]
      refine ⟨fun ⟨s', hs'⟩ => ?_, fun h => absurd h hp⟩
      -- a command that was placed is not refused, whatever is thrown afterwards
      cases h1 : (s.placeEntry cmd cb).replicateAll with
      | error e => rw [h1] at hs'; exact nomatch hs'
      | ok s₁ =>
        rw [h1] at hs'
        cases h2 : s₁.maybeAdvanceCommitIndex with
        | error e => simp only [bind, Except.bind, h2] at hs'; exact nomatch hs'
        | ok s₂ => simp only [bind, Except.bind, h2] at hs'; exact nomatch hs'

/-- Node 1 leads and has taken the removal of node 3 into its log. -/
def changingRun : List Event :=
  [.electionTimer 1 1, .deliver 0, .deliver 2, .submit 1 0 0 (.removeServer 3)]

theorem one_change_in_flight_three :
    (((launched [1, 2, 3]).run changingRun).node 1).log.configsAfter 0 = [1] ∧
    ∃ s', (((launched [1, 2, 3]).run changingRun).node 1).submit 0 0 (.removeServer 2) ⟨9, none⟩ =
      .ok (false, s') := by
  have h := (one_change_in_flight Medium.bytes (.ofList [1, 2, 3]) (fun _ => {}) changingRun
    (by decide +kernel) 1 (by decide) _ rfl (by decide +kernel)).2 0 0 (.removeServer 2) ⟨9, none⟩
    rfl
  exact ⟨by decide +kernel, h.mpr (by decide +kernel)⟩

/-- Node 2 takes the entry in, node 1 crashes, and node 2 is elected by node 3. -/
def inheritingRun : List Event :=
  changingRun ++ [Event.deliver 5, .crash 1, .electionTimer 2 7, .deliver 9, .deliver 10]

/-- **A second change is accepted.**  Node 2 leads with the uncommitted removal of node 3 in its
log, its flag is not set, and it takes the removal of node 1 as well. -/
theorem second_change_accepted :
    (((launched [1, 2, 3]).run inheritingRun).node 2).role = .leader ∧
    (((launched [1, 2, 3]).run inheritingRun).node 2).commitIndex = 0 ∧
    (((launched [1, 2, 3]).run inheritingRun).node 2).log.configsAfter 0 = [1] ∧
    (((launched [1, 2, 3]).run inheritingRun).node 2).configChangePending = false ∧
    (((launched [1, 2, 3]).run
      (inheritingRun ++ [Event.submit 2 0 0 (.removeServer 1)])).node 2).role = .leader ∧
    (((launched [1, 2, 3]).run
      (inheritingRun ++ [Event.submit 2 0 0 (.removeServer 1)])).node 2).commitIndex = 0 ∧
    (((launched [1, 2, 3]).run
      (inheritingRun ++ [Event.submit 2 0 0 (.removeServer 1)])).node 2).log.configsAfter 0 =
        [1, 2] := by
  decide +kernel

end Cluster

end SimKV
