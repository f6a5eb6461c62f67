/-
# The moves of a cluster of replicated logs

Seven moves: a node enters a later term, stands for election, votes, wins,
appends as the leader, accepts a stretch of the leader's log, and (as the
leader) commits.  `Step.sound` is the step lemma of the invariant of
`SimKV.Lib.TermLog`, and `Steps.sound_extends` the run lemma.

Accepting is one move whatever the message was and however it was cut: the
node's log becomes the stretch offered, unless it already holds it
(`World.merged`).  That is all a receiver needs to guarantee; how it walks the
entries to get there is its own business.
-/
import SimKV.Lib.TermLog
import Mathlib.Logic.Relation

namespace TermLog.World

variable {N E : Type} [DecidableEq N]

/-! ## The moves -/

/-- Node `n` enters term `T`. -/
def advance (w : World N E) (n : N) (T : Nat) : World N E :=
  { w with toBallot := w.toBallot.advance n T }

/-- Node `n` stands for election in its term, with its log, and votes for itself. -/
def stand (w : World N E) (n : N) : World N E :=
  { w with
    toBallot := w.toBallot.cast n n
    cand := set2 w.cand n (w.term n) (some (w.log n))
    vlog := set2 w.vlog n (w.term n) (w.log n) }

/-- Node `n` votes for `c` in its term. -/
def castFor (w : World N E) (n c : N) : World N E :=
  { w with
    toBallot := w.toBallot.cast n c
    vlog := set2 w.vlog n (w.term n) (w.log n) }

/-- Candidate `c` becomes the leader of its term. -/
def elected (w : World N E) (c : N) : World N E :=
  { w with
    toBallot := w.toBallot.elect c
    ilog := Function.update w.ilog (w.term c) (w.log c)
    llog := Function.update w.llog (w.term c) (w.log c)
    acked := set2 w.acked c (w.term c) (w.log c).length }

/-- Leader `c` appends `e`. -/
def append (w : World N E) (c : N) (e : E) : World N E :=
  { w with
    log := Function.update w.log c (w.log c ++ [e])
    llog := Function.update w.llog (w.term c) (w.llog (w.term c) ++ [e])
    acked := set2 w.acked c (w.term c) ((w.llog (w.term c)).length + 1) }

open Classical in
/-- The log of `n` after it was offered the first `m` entries of its leader's log. -/
noncomputable def merged (w : World N E) (n : N) (m : Nat) : List E :=
  if (w.llog (w.term n)).take m <+: w.log n then w.log n else (w.llog (w.term n)).take m

/-- Node `n` accepts, and confirms, the first `m` entries of its leader's log. -/
noncomputable def accept (w : World N E) (n : N) (m : Nat) : World N E :=
  { w with
    log := Function.update w.log n (w.merged n m)
    acked := set2 w.acked n (w.term n) (max (w.acked n (w.term n)) m) }

/-- The leader of `T` commits its first `i` entries. -/
def commitTo (w : World N E) (T i : Nat) : World N E :=
  { w with lcommit := Function.update w.lcommit T (max (w.lcommit T) i) }

/-- The moves, with their guards. -/
inductive Step (Q : Quorums N) (tm : E → Nat) (chk : Prop) :
    World N E → World N E → Prop
  | advance (w : World N E) (n : N) (T : Nat) (h : w.term n < T) :
      Step Q tm chk w (w.advance n T)
  | stand (w : World N E) (n : N) (h : w.vote n (w.term n) = none) :
      Step Q tm chk w (w.stand n)
  | cast (w : World N E) (n c : N) (lc : List E) (h : w.vote n (w.term n) = none)
      (hc : w.cand c (w.term n) = some lc) (hup : chk → UpToDate tm lc (w.log n)) :
      Step Q tm chk w (w.castFor n c)
  | elect (w : World N E) (c : N) (A : Finset N) (hno : w.leader (w.term c) = none)
      (hc : w.cand c (w.term c) = some (w.log c)) (hA : Q.IsQuorum A)
      (hv : ∀ n ∈ A, w.vote n (w.term c) = some c) :
      Step Q tm chk w (w.elected c)
  | append (w : World N E) (c : N) (e : E) (hl : w.leader (w.term c) = some c)
      (hlog : w.log c = w.llog (w.term c)) (he : tm e = w.term c) :
      Step Q tm chk w (w.append c e)
  | accept (w : World N E) (n : N) (m : Nat) (hl : w.leader (w.term n) ≠ none)
      (hm : m ≤ (w.llog (w.term n)).length) :
      Step Q tm chk w (w.accept n m)
  | commit (w : World N E) (T i : Nat) (A : Finset N) (hA : Q.IsQuorum A)
      (hack : ∀ n ∈ A, i ≤ w.acked n T)
      (he : ∃ e, (w.llog T)[i - 1]? = some e ∧ tm e = T) :
      Step Q tm chk w (w.commitTo T i)

abbrev Steps (Q : Quorums N) (tm : E → Nat) (chk : Prop) :
    World N E → World N E → Prop :=
  Relation.ReflTransGen (Step Q tm chk)

/-! ## Each move continues the history -/

section Moves

variable {Q : Quorums N} {tm : E → Nat} {chk : Prop} {w : World N E}

theorem extends_advance {n : N} {T : Nat} (h : w.term n < T) (hs : w.Sound Q tm chk) :
    w.Extends (w.advance n T) :=
  { Extends.refl w with
    ballot := (Ballot.Step.advance _ n T h).extends hs.ballot }

theorem extends_stand {n : N} (h : w.vote n (w.term n) = none) (hs : w.Sound Q tm chk) :
    w.Extends (w.stand n) :=
  { Extends.refl w with
    ballot := (Ballot.Step.cast _ n n h).extends hs.ballot
    cand_keep := by
      intro m T l hl
      have hne : ¬ (m = n ∧ T = w.term n) := by
        rintro ⟨rfl, rfl⟩
        rw [cand_none_of_vote_none hs h] at hl
        exact absurd hl (by simp)
      simpa [stand, set2_of_ne _ _ hne] using hl }

theorem extends_castFor {n c : N} (h : w.vote n (w.term n) = none) (hs : w.Sound Q tm chk) :
    w.Extends (w.castFor n c) :=
  { Extends.refl w with
    ballot := (Ballot.Step.cast _ n c h).extends hs.ballot }

theorem extends_elected {c : N} {A : Finset N} (hno : w.leader (w.term c) = none)
    (hA : Q.IsQuorum A) (hv : ∀ n ∈ A, w.vote n (w.term c) = some c) (hs : w.Sound Q tm chk) :
    w.Extends (w.elected c) :=
  { Extends.refl w with
    ballot := (Ballot.Step.elect _ c A hA hv).extends hs.ballot
    ilog_keep := by
      intro T hl
      have hne : T ≠ w.term c := by rintro rfl; exact hl hno
      simp [elected, Function.update_of_ne hne]
    llog_isPre := by
      intro T
      by_cases hT : T = w.term c
      · subst hT
        rw [(hs.unled _ hno).1]
        exact List.nil_prefix
      · simp [elected, Function.update_of_ne hT]
    acked_le := by
      intro n T
      by_cases hne : n = c ∧ T = w.term c
      · obtain ⟨rfl, rfl⟩ := hne
        rw [(hs.unled _ hno).2.2.2 n]
        exact Nat.zero_le _
      · simp [elected, set2_of_ne _ _ hne] }

theorem extends_append {c : N} {e : E} (hs : w.Sound Q tm chk) : w.Extends (w.append c e) :=
  { Extends.refl w with
    llog_isPre := by
      intro T
      by_cases hT : T = w.term c
      · subst hT
        simp [append]
      · simp [append, Function.update_of_ne hT]
    acked_le := by
      intro n T
      by_cases hne : n = c ∧ T = w.term c
      · obtain ⟨rfl, rfl⟩ := hne
        have := hs.acked_le n (w.term n)
        simp [append]
        omega
      · simp [append, set2_of_ne _ _ hne] }

theorem extends_accept {n : N} {m : Nat} : w.Extends (w.accept n m) :=
  { Extends.refl w with
    acked_le := by
      intro n' T
      by_cases hne : n' = n ∧ T = w.term n
      · obtain ⟨rfl, rfl⟩ := hne
        simp [accept]
      · simp [accept, set2_of_ne _ _ hne] }

omit [DecidableEq N] in
theorem extends_commitTo {T i : Nat} : w.Extends (w.commitTo T i) :=
  { Extends.refl w with
    lcommit_le := by
      intro T'
      by_cases hT : T' = T
      · subst hT; simp [commitTo]
      · simp [commitTo, Function.update_of_ne hT] }

/-! ## Each move keeps the invariant -/

theorem sound_advance {n : N} {T : Nat} (h : w.term n < T) (hs : w.Sound Q tm chk) :
    (w.advance n T).Sound Q tm chk := by
  have hx := extends_advance h hs
  exact
    { hs with
      ballot := (Ballot.Step.advance _ n T h).sound hs.ballot
      log_tm := fun m e he => Nat.le_trans (hs.log_tm m e he) (hx.ballot.term_le m)
      vote_ok := by
        intro T' m c hno hv
        obtain ⟨lc, h1, h2⟩ := hs.vote_ok T' m c hno hv
        exact ⟨lc, h1, h2.extends hs hx rfl (fun _ _ => rfl)⟩
      electors := by
        intro T' c hl
        obtain ⟨A, hA, hv⟩ := hs.electors T' c hl
        exact ⟨A, hA, fun m hm => ⟨(hv m hm).1, (hv m hm).2.extends hs hx rfl (fun _ _ => rfl)⟩⟩
      acked_term := fun m T' hm => Nat.le_trans (hs.acked_term m T' hm) (hx.ballot.term_le m)
      retained := by
        intro m T' i hi
        exact (hs.retained m T' i hi).extends hx List.prefix_rfl
          (Nat.succ_le_succ (hx.ballot.term_le m)) (Nat.le_trans hi (hs.acked_le m T')) }

omit [DecidableEq N] in
/-- A vote given while the term has no leader is worth what `VoteOk` says. -/
theorem voteOk_now {w' : World N E} {n : N} {lc : List E} (hs : w.Sound Q tm chk)
    (hx : w.Extends w')
    (hno : w.leader (w.term n) = none) (hup : chk → UpToDate tm lc (w.log n))
    (hvl : w'.vlog n (w.term n) = w.log n) (hack : w'.acked = w.acked) :
    VoteOk tm chk w' n (w.term n) lc where
  upToDate := by rw [hvl]; exact hup
  chained := by rw [hvl]; exact (hs.log_chained n).extends hx
  retained := by
    intro T' i hT' hi
    rw [hack] at hi
    rw [hvl]
    have hlen := Nat.le_trans hi (hs.acked_le n T')
    rcases hs.retained n T' i hi with h1 | ⟨t, h1, h2, h3, h4⟩
    · exact Retained.extends hx (Or.inl h1) List.prefix_rfl (Nat.le_refl _) hlen
    · have hne : t ≠ w.term n := by rintro rfl; exact h3 hno
      exact Retained.extends hx (Or.inr ⟨t, h1, (by omega : t < w.term n), h3, h4⟩)
        List.prefix_rfl (Nat.le_refl _) hlen

/-- Standing and voting change only the vote, the candidacy and the vote-time log
of one node in its current term; this is what the two moves share. -/
theorem sound_of_cast {w' : World N E} {n c : N} {lc : List E} (hs : w.Sound Q tm chk)
    (hx : w.Extends w') (hnone : w.vote n (w.term n) = none)
    (hb : w'.toBallot = w.toBallot.cast n c) (hlog : w'.log = w.log) (hilog : w'.ilog = w.ilog)
    (hllog : w'.llog = w.llog) (hacked : w'.acked = w.acked) (hcommit : w'.lcommit = w.lcommit)
    (hvlog : w'.vlog = set2 w.vlog n (w.term n) (w.log n))
    (hcand : ∀ m T l, w'.cand m T = some l → w.cand m T = some l ∨
      (m = n ∧ T = w.term n ∧ c = n ∧ l = w.log n))
    (hlc : w'.cand c (w.term n) = some lc) (hup : chk → UpToDate tm lc (w.log n)) :
    w'.Sound Q tm chk := by
  have hterm : w'.term = w.term := by rw [hb]; rfl
  have hleader : w'.leader = w.leader := by rw [hb]; rfl
  have hvote : w'.vote = set2 w.vote n (w.term n) (some c) := by rw [hb]; rfl
  have hchain : ∀ l, Chained tm w' l ↔ Chained tm w l := fun l => by simp only [Chained, hllog]
  -- an old vote is not the new one
  have hold : ∀ m T v, w.vote m T = some v → ¬ (m = n ∧ T = w.term n) := by
    rintro m T v hv ⟨rfl, rfl⟩
    rw [hnone] at hv
    exact absurd hv (by simp)
  have hkeep : ∀ m T l, w.vote m T ≠ none → VoteOk tm chk w m T l → VoteOk tm chk w' m T l := by
    intro m T l hv hok
    obtain ⟨v, hv⟩ := Option.ne_none_iff_exists'.mp hv
    refine hok.extends hs hx ?_ (fun T' _ => by rw [hacked])
    rw [hvlog, set2_of_ne _ _ (hold m T v hv)]
  refine
    { ballot := by rw [hb]; exact (Ballot.Step.cast _ n c hnone).sound hs.ballot
      unled := ?_, ilog_isPre := ?_, ilog_tm := ?_, tail_tm := ?_, llog_chained := ?_,
      log_chained := ?_, log_tm := ?_, cand_voted := ?_, vote_ok := ?_, electors := ?_,
      acked_le := ?_, acked_term := ?_, retained := ?_, committed := ?_ }
  · rw [hleader, hllog, hilog, hcommit, hacked]; exact hs.unled
  · rw [hllog, hilog]; exact hs.ilog_isPre
  · rw [hilog]; exact hs.ilog_tm
  · rw [hllog, hilog]; exact hs.tail_tm
  · intro T; rw [hchain, hllog]; exact hs.llog_chained T
  · intro m; rw [hchain, hlog]; exact hs.log_chained m
  · rw [hlog, hterm]; exact hs.log_tm
  · intro m T l hl
    rcases hcand m T l hl with h1 | ⟨rfl, rfl, rfl, rfl⟩
    · obtain ⟨h2, h3⟩ := hs.cand_voted m T l h1
      exact ⟨hx.ballot.vote_keep m T m h2, (hchain l).mpr h3⟩
    · exact ⟨by rw [hvote, set2_self], (hchain _).mpr (hs.log_chained c)⟩
  · intro T m v hno hv
    rw [hleader] at hno
    by_cases hne : m = n ∧ T = w.term n
    · obtain ⟨rfl, rfl⟩ := hne
      rw [hvote, set2_self] at hv
      obtain rfl := Option.some.inj hv
      exact ⟨lc, hlc, voteOk_now hs hx hno hup (by rw [hvlog, set2_self]) hacked⟩
    · rw [hvote, set2_of_ne _ _ hne] at hv
      obtain ⟨l, hl, hok⟩ := hs.vote_ok T m v hno hv
      exact ⟨l, hx.cand_keep v T l hl, hkeep m T l (by rw [hv]; simp) hok⟩
  · intro T l hl
    rw [hleader] at hl
    obtain ⟨A, hA, hv⟩ := hs.electors T l hl
    refine ⟨A, hA, fun m hm => ?_⟩
    obtain ⟨h1, h2⟩ := hv m hm
    rw [hilog]
    exact ⟨hx.ballot.vote_keep m T l h1, hkeep m T _ (by rw [h1]; simp) h2⟩
  · rw [hllog, hacked]; exact hs.acked_le
  · rw [hterm, hacked]; exact hs.acked_term
  · intro m T i hi
    rw [hacked] at hi
    rw [hlog, hterm]
    exact (hs.retained m T i hi).extends hx List.prefix_rfl (Nat.le_refl _)
      (Nat.le_trans hi (hs.acked_le m T))
  · rw [hllog, hacked, hcommit]; exact hs.committed

theorem sound_stand {n : N} (h : w.vote n (w.term n) = none) (hs : w.Sound Q tm chk) :
    (w.stand n).Sound Q tm chk := by
  refine sound_of_cast hs (extends_stand h hs) h (c := n) rfl rfl rfl rfl rfl rfl
    rfl ?_ (set2_self _ _ _ _) (fun _ => UpToDate.refl tm _)
  intro m T l hl
  by_cases hne : m = n ∧ T = w.term n
  · obtain ⟨rfl, rfl⟩ := hne
    simp only [stand, set2_self, Option.some.injEq] at hl
    exact Or.inr ⟨rfl, rfl, rfl, hl.symm⟩
  · exact Or.inl (by simpa [stand, set2_of_ne _ _ hne] using hl)

theorem sound_castFor {n c : N} {lc : List E} (h : w.vote n (w.term n) = none)
    (hc : w.cand c (w.term n) = some lc) (hup : chk → UpToDate tm lc (w.log n))
    (hs : w.Sound Q tm chk) :
    (w.castFor n c).Sound Q tm chk :=
  sound_of_cast hs (extends_castFor h hs) h rfl rfl rfl rfl rfl rfl rfl
    (fun _ _ _ hl => Or.inl hl) hc hup

omit [DecidableEq N] in
/-- Votes keep their worth under a move that raises only what node `n` has
confirmed in its own current term. -/
theorem voteOk_keep {w' : World N E} {n : N} (hs : w.Sound Q tm chk) (hx : w.Extends w')
    (hvl : w'.vlog = w.vlog)
    (hack : ∀ m T, ¬ (m = n ∧ T = w.term n) → w'.acked m T = w.acked m T)
    {m : N} {T : Nat} {c : N} {lc : List E} (hv : w.vote m T = some c)
    (h : VoteOk tm chk w m T lc) : VoteOk tm chk w' m T lc := by
  refine h.extends hs hx (by rw [hvl]) (fun T' hT' => hack m T' ?_)
  rintro ⟨rfl, rfl⟩
  exact absurd (hs.ballot.voted_le m T c hv) (by omega)

theorem sound_elected {c : N} {A : Finset N} (hno : w.leader (w.term c) = none)
    (hc : w.cand c (w.term c) = some (w.log c)) (hA : Q.IsQuorum A)
    (hv : ∀ n ∈ A, w.vote n (w.term c) = some c) (hs : w.Sound Q tm chk) :
    (w.elected c).Sound Q tm chk := by
  have hx := extends_elected hno hA hv hs
  have hllog : ∀ {T}, T ≠ w.term c → (w.elected c).llog T = w.llog T := fun h => by
    simp [elected, Function.update_of_ne h]
  have hilog : ∀ {T}, T ≠ w.term c → (w.elected c).ilog T = w.ilog T := fun h => by
    simp [elected, Function.update_of_ne h]
  have hleader : ∀ {T}, T ≠ w.term c → (w.elected c).leader T = w.leader T := fun h => by
    simp [elected, Ballot.elect, Function.update_of_ne h]
  have hacked : ∀ m T, ¬ (m = c ∧ T = w.term c) → (w.elected c).acked m T = w.acked m T :=
    fun m T h => by simp [elected, set2_of_ne _ _ h]
  have hllogc : (w.elected c).llog (w.term c) = w.log c := by simp [elected]
  have hilogc : (w.elected c).ilog (w.term c) = w.log c := by simp [elected]
  have hleadc : (w.elected c).leader (w.term c) = some c := by simp [elected, Ballot.elect]
  have hackc : (w.elected c).acked c (w.term c) = (w.log c).length := by simp [elected]
  -- no entry carries the stamp of a term without a leader
  have hfresh : ∀ e ∈ w.log c, tm e < w.term c := by
    intro e he
    obtain ⟨k, hk⟩ := List.getElem?_of_mem he
    have h1 := hs.log_tm c e he
    have h2 := hs.leader_of_chained (hs.log_chained c) hk
    rcases Nat.lt_or_ge (tm e) (w.term c) with h | h
    · exact h
    · exact absurd hno (by rwa [show tm e = w.term c by omega] at h2)
  refine
    { ballot := (Ballot.Step.elect _ c A hA hv).sound hs.ballot
      unled := ?_, ilog_isPre := ?_, ilog_tm := ?_, tail_tm := ?_, llog_chained := ?_,
      log_chained := fun n => (hs.log_chained n).extends hx
      log_tm := hs.log_tm
      cand_voted := ?_, vote_ok := ?_, electors := ?_,
      acked_le := ?_, acked_term := ?_, retained := ?_, committed := ?_ }
  · intro T hl
    have hne : T ≠ w.term c := by rintro rfl; rw [hleadc] at hl; simp at hl
    rw [hleader hne] at hl
    obtain ⟨h1, h2, h3, h4⟩ := hs.unled T hl
    rw [hllog hne, hilog hne]
    exact ⟨h1, h2, h3, fun n => by rw [hacked n T (fun h => hne h.2)]; exact h4 n⟩
  · intro T
    by_cases hT : T = w.term c
    · subst hT; rw [hilogc, hllogc]
    · rw [hilog hT, hllog hT]; exact hs.ilog_isPre T
  · intro T e he
    by_cases hT : T = w.term c
    · subst hT; rw [hilogc] at he; exact hfresh e he
    · rw [hilog hT] at he; exact hs.ilog_tm T e he
  · intro T k e hk he
    by_cases hT : T = w.term c
    · subst hT
      rw [hilogc] at hk
      rw [hllogc] at he
      exact absurd (List.getElem?_eq_some_iff.mp he).1 (by omega)
    · rw [hilog hT] at hk
      rw [hllog hT] at he
      exact hs.tail_tm T k e hk he
  · intro T
    by_cases hT : T = w.term c
    · subst hT; rw [hllogc]; exact (hs.log_chained c).extends hx
    · rw [hllog hT]; exact (hs.llog_chained T).extends hx
  · intro n T l hl
    obtain ⟨h1, h2⟩ := hs.cand_voted n T l hl
    exact ⟨h1, h2.extends hx⟩
  · intro T n v hl hvote
    have hne : T ≠ w.term c := by rintro rfl; rw [hleadc] at hl; simp at hl
    rw [hleader hne] at hl
    obtain ⟨lc, h1, h2⟩ := hs.vote_ok T n v hl hvote
    exact ⟨lc, h1, voteOk_keep hs hx rfl hacked hvote h2⟩
  · intro T l hl
    by_cases hT : T = w.term c
    · subst hT
      rw [hleadc] at hl
      obtain rfl := Option.some.inj hl
      refine ⟨A, hA, fun n hn => ⟨hv n hn, ?_⟩⟩
      obtain ⟨lc, h1, h2⟩ := hs.vote_ok _ n c hno (hv n hn)
      rw [hc] at h1
      obtain rfl := Option.some.inj h1
      rw [hilogc]
      exact voteOk_keep hs hx rfl hacked (hv n hn) h2
    · rw [hleader hT] at hl
      obtain ⟨B, hB, hvB⟩ := hs.electors T l hl
      refine ⟨B, hB, fun n hn => ⟨(hvB n hn).1, ?_⟩⟩
      rw [hilog hT]
      exact voteOk_keep hs hx rfl hacked (hvB n hn).1 (hvB n hn).2
  · intro n T
    by_cases hne : n = c ∧ T = w.term c
    · obtain ⟨rfl, rfl⟩ := hne; rw [hackc, hllogc]
    · rw [hacked n T hne]
      exact Nat.le_trans (hs.acked_le n T) (hx.llog_isPre T).length_le
  · intro n T hpos
    by_cases hne : n = c ∧ T = w.term c
    · rw [hne.1, hne.2]; exact Nat.le_refl _
    · rw [hacked n T hne] at hpos; exact hs.acked_term n T hpos
  · intro n T i hi
    by_cases hne : n = c ∧ T = w.term c
    · obtain ⟨rfl, rfl⟩ := hne
      exact Or.inl (by rw [hllogc]; exact take_isPre _ _)
    · rw [hacked n T hne] at hi
      exact (hs.retained n T i hi).extends hx List.prefix_rfl (Nat.le_refl _)
        (Nat.le_trans hi (hs.acked_le n T))
  · intro T hpos
    have hne : T ≠ w.term c := by
      rintro rfl
      have h0 := (hs.unled _ hno).2.2.1
      have hpos' : 0 < w.lcommit (w.term c) := hpos
      omega
    obtain ⟨⟨B, hB, hack⟩, e, he, hte⟩ := hs.committed T hpos
    refine ⟨⟨B, hB, fun n hn => Nat.le_trans (hack n hn) (hx.acked_le n T)⟩, e, ?_, hte⟩
    rw [hllog hne]
    exact he

theorem sound_append {c : N} {e : E} (hl : w.leader (w.term c) = some c)
    (hlog : w.log c = w.llog (w.term c)) (he : tm e = w.term c) (hs : w.Sound Q tm chk) :
    (w.append c e).Sound Q tm chk := by
  have hx : w.Extends (w.append c e) := extends_append hs
  have hllog : ∀ {T}, T ≠ w.term c → (w.append c e).llog T = w.llog T := fun h => by
    simp [append, Function.update_of_ne h]
  have hllogc : (w.append c e).llog (w.term c) = w.llog (w.term c) ++ [e] := by simp [append]
  have hlogc : (w.append c e).log c = w.llog (w.term c) ++ [e] := by simp [append, hlog]
  have hlogn : ∀ {n}, n ≠ c → (w.append c e).log n = w.log n := fun h => by
    simp [append, Function.update_of_ne h]
  have hacked : ∀ m T, ¬ (m = c ∧ T = w.term c) → (w.append c e).acked m T = w.acked m T :=
    fun m T h => by simp [append, set2_of_ne _ _ h]
  have hackc : (w.append c e).acked c (w.term c) = (w.llog (w.term c)).length + 1 := by
    simp [append]
  -- the leader's longer log is still chained: its last entry is its own
  have hchain : Chained tm (w.append c e) (w.llog (w.term c) ++ [e]) := by
    intro k d hk
    rcases Nat.lt_or_ge k (w.llog (w.term c)).length with hlt | hge
    · rw [List.getElem?_append_left hlt] at hk
      rw [List.take_append_of_le_length (by omega)]
      exact (hs.llog_chained _ k d hk).trans (hx.llog_isPre _)
    · have hk' := (List.getElem?_eq_some_iff.mp hk).1
      rw [List.length_append, List.length_singleton] at hk'
      have hkeq : k = (w.llog (w.term c)).length := by omega
      subst hkeq
      rw [List.getElem?_append_right (by omega)] at hk
      simp only [Nat.sub_self, List.getElem?_cons_zero, Option.some.injEq] at hk
      subst hk
      rw [he, hllogc]
      exact take_isPre _ _
  refine
    { ballot := hs.ballot
      unled := ?_, ilog_isPre := fun T => (hs.ilog_isPre T).trans (hx.llog_isPre T)
      ilog_tm := hs.ilog_tm
      tail_tm := ?_, llog_chained := ?_, log_chained := ?_, log_tm := ?_
      cand_voted := ?_, vote_ok := ?_, electors := ?_,
      acked_le := ?_, acked_term := ?_, retained := ?_, committed := ?_ }
  · intro T hno
    have hne : T ≠ w.term c := by rintro rfl; exact absurd (hl.symm.trans hno) (by simp)
    obtain ⟨h1, h2, h3, h4⟩ := hs.unled T hno
    exact ⟨by rw [hllog hne]; exact h1, h2, h3,
      fun n => by rw [hacked n T (fun h => hne h.2)]; exact h4 n⟩
  · intro T k d hk hd
    by_cases hT : T = w.term c
    · subst hT
      rw [hllogc] at hd
      rcases Nat.lt_or_ge k (w.llog (w.term c)).length with hlt | hge
      · rw [List.getElem?_append_left hlt] at hd
        exact hs.tail_tm _ k d hk hd
      · rw [List.getElem?_append_right hge] at hd
        have h1 := List.mem_of_getElem? hd
        rw [List.mem_singleton] at h1
        rw [h1]
        exact he
    · rw [hllog hT] at hd; exact hs.tail_tm T k d hk hd
  · intro T
    by_cases hT : T = w.term c
    · subst hT; rw [hllogc]; exact hchain
    · rw [hllog hT]; exact (hs.llog_chained T).extends hx
  · intro n
    by_cases hn : n = c
    · subst hn; rw [hlogc]; exact hchain
    · rw [hlogn hn]; exact (hs.log_chained n).extends hx
  · intro n d hd
    by_cases hn : n = c
    · subst hn
      rw [hlogc, ← hlog, List.mem_append, List.mem_singleton] at hd
      rcases hd with hd | rfl
      · exact hs.log_tm n d hd
      · exact Nat.le_of_eq he
    · rw [hlogn hn] at hd; exact hs.log_tm n d hd
  · intro n T l hl'
    obtain ⟨h1, h2⟩ := hs.cand_voted n T l hl'
    exact ⟨h1, h2.extends hx⟩
  · intro T n v hno hv
    obtain ⟨lc, h1, h2⟩ := hs.vote_ok T n v hno hv
    exact ⟨lc, h1, voteOk_keep hs hx rfl hacked hv h2⟩
  · intro T l hl'
    obtain ⟨A, hA, hv⟩ := hs.electors T l hl'
    exact ⟨A, hA, fun n hn => ⟨(hv n hn).1, voteOk_keep hs hx rfl hacked (hv n hn).1 (hv n hn).2⟩⟩
  · intro n T
    by_cases hne : n = c ∧ T = w.term c
    · obtain ⟨rfl, rfl⟩ := hne; rw [hackc, hllogc]; simp
    · rw [hacked n T hne]
      exact Nat.le_trans (hs.acked_le n T) (hx.llog_isPre T).length_le
  · intro n T hpos
    by_cases hne : n = c ∧ T = w.term c
    · rw [hne.1, hne.2]; exact Nat.le_refl _
    · rw [hacked n T hne] at hpos; exact hs.acked_term n T hpos
  · intro n T i hi
    by_cases hne : n = c ∧ T = w.term c
    · obtain ⟨rfl, rfl⟩ := hne
      exact Or.inl (by rw [hllogc, hlogc]; exact take_isPre _ _)
    · rw [hacked n T hne] at hi
      refine (hs.retained n T i hi).extends hx ?_ (Nat.le_refl _)
        (Nat.le_trans hi (hs.acked_le n T))
      by_cases hn : n = c
      · subst hn; rw [hlogc, hlog]; simp
      · rw [hlogn hn]
  · intro T hpos
    obtain ⟨⟨B, hB, hack⟩, d, hd, htd⟩ := hs.committed T hpos
    exact ⟨⟨B, hB, fun n hn => Nat.le_trans (hack n hn) (hx.acked_le n T)⟩, d,
      getElem?_of_isPre (hx.llog_isPre T) hd, htd⟩

omit [DecidableEq N] in
theorem take_isPre_merged (w : World N E) (n : N) (m : Nat) :
    (w.llog (w.term n)).take m <+: w.merged n m := by
  unfold merged
  split
  · assumption
  · exact List.prefix_rfl

omit [DecidableEq N] in
/-- Accepting loses nothing that the node and its leader agree on. -/
theorem isPre_merged {n : N} {l : List E} (m : Nat) (h : l <+: w.log n)
    (h' : l <+: w.llog (w.term n)) : l <+: w.merged n m := by
  unfold merged
  split
  · exact h
  · rename_i hno
    refine isPre_of_length_le h' (take_isPre _ _) ?_
    by_contra hlen
    exact hno ((isPre_of_length_le (take_isPre _ _) h' (by omega)).trans h)

omit [DecidableEq N] in
theorem chained_merged (hs : w.Sound Q tm chk) (n : N) (m : Nat) : Chained tm w (w.merged n m) := by
  unfold merged
  split
  · exact hs.log_chained n
  · exact (hs.llog_chained _).isPre (take_isPre _ _)

omit [DecidableEq N] in
/-- What the accepting node had confirmed of an earlier leader, it keeps or its
present leader lacks. -/
theorem retained_merged {n : N} {T i : Nat} (m : Nat) (hl : w.leader (w.term n) ≠ none)
    (hs : w.Sound Q tm chk) (hi : i ≤ w.acked n T) :
    w.Retained (w.merged n m) (w.term n + 1) T i := by
  rcases hs.retained n T i hi with h1 | h1
  · rcases Nat.eq_zero_or_pos i with rfl | hpos
    · exact Or.inl (by simp)
    · have hTle : T ≤ w.term n := hs.acked_term n T (by omega)
      rcases Nat.eq_or_lt_of_le hTle with rfl | hlt
      · exact Or.inl (isPre_merged m h1 (take_isPre _ _))
      · by_cases hlack : (w.llog T).take i <+: w.ilog (w.term n)
        · exact Or.inl (isPre_merged m h1 (hlack.trans (hs.ilog_isPre _)))
        · exact Or.inr ⟨w.term n, hlt, by omega, hl, hlack⟩
  · exact Or.inr h1

theorem sound_accept {n : N} {m : Nat} (hl : w.leader (w.term n) ≠ none)
    (hm : m ≤ (w.llog (w.term n)).length) (hs : w.Sound Q tm chk) :
    (w.accept n m).Sound Q tm chk := by
  have hx : w.Extends (w.accept n m) := extends_accept
  have hlogn : (w.accept n m).log n = w.merged n m := by simp [accept]
  have hlog : ∀ {k}, k ≠ n → (w.accept n m).log k = w.log k := fun h => by
    simp [accept, Function.update_of_ne h]
  have hacked : ∀ k T, ¬ (k = n ∧ T = w.term n) → (w.accept n m).acked k T = w.acked k T :=
    fun k T h => by simp [accept, set2_of_ne _ _ h]
  have hackn : (w.accept n m).acked n (w.term n) = max (w.acked n (w.term n)) m := by
    simp [accept]
  refine
    { hs with
      unled := ?_, log_chained := ?_, log_tm := ?_, vote_ok := ?_, electors := ?_,
      acked_le := ?_, acked_term := ?_, retained := ?_, committed := ?_ }
  · intro T hno
    have hne : T ≠ w.term n := by rintro rfl; exact hl hno
    obtain ⟨h1, h2, h3, h4⟩ := hs.unled T hno
    exact ⟨h1, h2, h3, fun k => by rw [hacked k T (fun h => hne h.2)]; exact h4 k⟩
  · intro k
    by_cases hk : k = n
    · subst hk; rw [hlogn]; exact chained_merged hs k m
    · rw [hlog hk]; exact hs.log_chained k
  · intro k e he
    by_cases hk : k = n
    · subst hk
      rw [hlogn] at he
      unfold merged at he
      split at he
      · exact hs.log_tm k e he
      · obtain ⟨j, hj⟩ := List.getElem?_of_mem he
        exact hs.llog_tm_le (getElem?_of_isPre (take_isPre _ _) hj)
    · rw [hlog hk] at he; exact hs.log_tm k e he
  · intro T k v hno hv
    obtain ⟨lc, h1, h2⟩ := hs.vote_ok T k v hno hv
    exact ⟨lc, h1, voteOk_keep hs hx rfl hacked hv h2⟩
  · intro T c hc
    obtain ⟨A, hA, hv⟩ := hs.electors T c hc
    exact ⟨A, hA, fun k hk => ⟨(hv k hk).1, voteOk_keep hs hx rfl hacked (hv k hk).1 (hv k hk).2⟩⟩
  · intro k T
    by_cases hne : k = n ∧ T = w.term n
    · obtain ⟨rfl, rfl⟩ := hne
      rw [hackn]
      exact Nat.max_le.mpr ⟨hs.acked_le k _, hm⟩
    · rw [hacked k T hne]; exact hs.acked_le k T
  · intro k T hpos
    by_cases hne : k = n ∧ T = w.term n
    · rw [hne.1, hne.2]; exact Nat.le_refl _
    · rw [hacked k T hne] at hpos; exact hs.acked_term k T hpos
  · intro k T i hi
    by_cases hk : k = n
    · subst hk
      rw [hlogn]
      by_cases hT : T = w.term k
      · subst hT
        rw [hackn] at hi
        rcases le_max_iff.mp hi with him | him
        · exact retained_merged m hl hs him
        · exact Or.inl ((take_isPre_take _ him).trans (take_isPre_merged w k m))
      · rw [hacked k T (fun h => hT h.2)] at hi
        exact retained_merged m hl hs hi
    · rw [hacked k T (fun h => hk h.1)] at hi
      rw [hlog hk]
      exact (hs.retained k T i hi).extends hx List.prefix_rfl (Nat.le_refl _)
        (Nat.le_trans hi (hs.acked_le k T))
  · intro T hpos
    obtain ⟨⟨B, hB, hack⟩, e, he, hte⟩ := hs.committed T hpos
    exact ⟨⟨B, hB, fun k hk => Nat.le_trans (hack k hk) (hx.acked_le k T)⟩, e, he, hte⟩

omit [DecidableEq N] in
theorem sound_commitTo {T i : Nat} {A : Finset N} (hA : Q.IsQuorum A)
    (hack : ∀ n ∈ A, i ≤ w.acked n T) (he : ∃ e, (w.llog T)[i - 1]? = some e ∧ tm e = T)
    (hs : w.Sound Q tm chk) : (w.commitTo T i).Sound Q tm chk := by
  have hx : w.Extends (w.commitTo T i) := extends_commitTo
  have hcommit : ∀ {T'}, T' ≠ T → (w.commitTo T i).lcommit T' = w.lcommit T' := fun h => by
    simp [commitTo, Function.update_of_ne h]
  have hcommitT : (w.commitTo T i).lcommit T = max (w.lcommit T) i := by simp [commitTo]
  refine
    { hs with
      unled := ?_, vote_ok := ?_, electors := ?_, committed := ?_ }
  · intro T' hno
    have hne : T' ≠ T := by
      rintro rfl
      obtain ⟨e, he, -⟩ := he
      exact hs.leader_of_getElem? he hno
    rw [hcommit hne]
    exact hs.unled T' hno
  · intro T' n c hno hv
    obtain ⟨lc, h1, h2⟩ := hs.vote_ok T' n c hno hv
    exact ⟨lc, h1, h2.extends hs hx rfl (fun _ _ => rfl)⟩
  · intro T' c hc
    obtain ⟨B, hB, hv⟩ := hs.electors T' c hc
    exact ⟨B, hB, fun n hn => ⟨(hv n hn).1, (hv n hn).2.extends hs hx rfl (fun _ _ => rfl)⟩⟩
  · intro T' hpos
    by_cases hT : T' = T
    · subst hT
      rw [hcommitT] at hpos ⊢
      rcases max_choice (w.lcommit T') i with hmax | hmax
      · rw [hmax] at hpos ⊢; exact hs.committed T' hpos
      · rw [hmax]; exact ⟨⟨A, hA, hack⟩, he⟩
    · rw [hcommit hT] at hpos ⊢; exact hs.committed T' hpos

/-- The step lemma of the invariant. -/
theorem Step.sound_extends {w' : World N E} (h : Step Q tm chk w w') (hs : w.Sound Q tm chk) :
    w'.Sound Q tm chk ∧ w.Extends w' := by
  cases h with
  | advance n T h => exact ⟨sound_advance h hs, extends_advance h hs⟩
  | stand n h => exact ⟨sound_stand h hs, extends_stand h hs⟩
  | cast n c lc h hc hup => exact ⟨sound_castFor h hc hup hs, extends_castFor h hs⟩
  | elect c A hno hc hA hv =>
    exact ⟨sound_elected hno hc hA hv hs, extends_elected hno hA hv hs⟩
  | append c e hl hlog he => exact ⟨sound_append hl hlog he hs, extends_append hs⟩
  | accept n m hl hm => exact ⟨sound_accept hl hm hs, extends_accept⟩
  | commit T i A hA hack he => exact ⟨sound_commitTo hA hack he hs, extends_commitTo⟩

/-- The run lemma of the invariant. -/
theorem Steps.sound_extends {w' : World N E} (h : Steps Q tm chk w w') (hs : w.Sound Q tm chk) :
    w'.Sound Q tm chk ∧ w.Extends w' := by
  induction h with
  | refl => exact ⟨hs, Extends.refl w⟩
  | tail _ hstep ih =>
    obtain ⟨h1, h2⟩ := hstep.sound_extends ih.1
    exact ⟨h1, ih.2.trans h2⟩

end Moves

end TermLog.World
