/-
# What a follower may conclude from a stretch of its leader's log

Two predicates on a `World` that a protocol can carry in its messages and its
bookkeeping, each stable under every move:

  * `CommittedIn T l k` — the first `k` entries of `l` were committed in some
    term up to `T`.  A node keeps its committed entries whatever it accepts
    (`CommittedIn.step`);
  * `Anchored T n y` — if node `n`, while in term `T`, holds anything that its
    leader does not, it holds it right after position `y` or before.  A window
    of the leader's log that starts at an anchored position and has at least
    one entry therefore leaves the follower with a log that is a prefix of the
    leader's (`Anchored.isPre_of_accept`), so a commit index that reaches past
    the window is still safe.
-/
import SimKV.Lib.TermLogStep

namespace TermLog.World

variable {N E : Type}

/-! ## Committed stretches -/

/-- The first `k` entries of `l` were committed by leaders of terms up to `T`. -/
def CommittedIn (w : World N E) (T : Nat) (l : List E) (k : Nat) : Prop :=
  k = 0 ∨ ∃ T₁, T₁ ≤ T ∧ k ≤ w.lcommit T₁ ∧ (w.llog T₁).take k <+: l

/-- If node `n`, in term `T`, holds anything its leader does not, the first such
entry is at position `y` or before. -/
def Anchored (w : World N E) (T : Nat) (n : N) (y : Nat) : Prop :=
  (w.ilog T).length ≤ y ∨
    (T ≤ w.term n ∧ (w.term n = T → w.log n <+: w.llog T ∨
      ∀ k, k ≤ (w.log n).length → (w.log n).take k = (w.llog T).take k → k ≤ y))

section Committed

variable {Q : Quorums N} {tm : E → Nat} {chk : Prop} {w w' : World N E}

theorem CommittedIn.zero (w : World N E) (T : Nat) (l : List E) : w.CommittedIn T l 0 :=
  Or.inl rfl

theorem CommittedIn.mono {T T' k k' : Nat} {l l' : List E} (h : w.CommittedIn T l k)
    (hT : T ≤ T') (hk : k' ≤ k) (hl : l <+: l') : w.CommittedIn T' l' k' := by
  rcases h with rfl | ⟨T₁, h1, h2, h3⟩
  · exact Or.inl (by omega)
  · exact Or.inr ⟨T₁, by omega, by omega, (take_isPre_take _ hk).trans (h3.trans hl)⟩

/-- A prefix holds what is committed as far as it reaches. -/
theorem CommittedIn.restrict {T k : Nat} {l l' : List E} (h : w.CommittedIn T l k)
    (hl : l' <+: l) : w.CommittedIn T l' (min k l'.length) := by
  rcases h with rfl | ⟨T₁, h1, h2, h3⟩
  · exact Or.inl (Nat.zero_min _)
  · refine Or.inr ⟨T₁, h1, by omega, ?_⟩
    refine isPre_of_length_le ((take_isPre_take _ (Nat.min_le_left _ _)).trans h3) hl ?_
    rw [List.length_take]
    omega

theorem CommittedIn.extends {T k : Nat} {l : List E} (hs : w.Sound Q tm chk) (hx : w.Extends w')
    (h : w.CommittedIn T l k) : w'.CommittedIn T l k := by
  rcases h with rfl | ⟨T₁, h1, h2, h3⟩
  · exact Or.inl rfl
  · have hlen := hs.lcommit_le T₁
    refine Or.inr ⟨T₁, h1, Nat.le_trans h2 (hx.lcommit_le T₁), ?_⟩
    rw [hx.llog_take (by omega)]
    exact h3

theorem CommittedIn.length_le {T k : Nat} {l : List E} (hs : w.Sound Q tm chk)
    (h : w.CommittedIn T l k) : k ≤ l.length := by
  rcases h with rfl | ⟨T₁, -, h2, h3⟩
  · exact Nat.zero_le _
  · have h4 := h3.length_le
    have h5 := hs.lcommit_le T₁
    rw [List.length_take] at h4
    omega

/-- Committed in a log means committed in the log of any leader of that term or
a later one. -/
theorem CommittedIn.in_llog {T T' k : Nat} {l : List E} (hchk : chk) (hs : w.Sound Q tm chk)
    (h : w.CommittedIn T l k) (hT : T ≤ T') (hl : w.leader T' ≠ none) :
    w.CommittedIn T' (w.llog T') k ∧ l.take k <+: w.llog T' := by
  have hlen := h.length_le hs
  rcases h with rfl | ⟨T₁, h1, h2, h3⟩
  · exact ⟨Or.inl rfl, by simp⟩
  · have h4 := hs.committed_isPre hchk (by omega : T₁ ≤ T') h2 hl
    have h5 := hs.lcommit_le T₁
    have h6 : l.take k = (w.llog T₁).take k := by
      have := take_eq_of_isPre h3 (i := k) (by rw [List.length_take]; omega)
      rw [this, List.take_take, Nat.min_self]
    exact ⟨Or.inr ⟨T₁, by omega, h2, h4⟩, by rw [h6]; exact h4⟩

/-- What is committed is in the logs of a quorum, for good. -/
theorem CommittedIn.held {T k : Nat} {l : List E} (hchk : chk) (hs : w.Sound Q tm chk)
    (h : w.CommittedIn T l k) (hk : 0 < k) :
    ∃ A, Q.IsQuorum A ∧ ∀ n ∈ A, l.take k <+: w.log n := by
  rcases h with rfl | ⟨T₁, -, h2, h3⟩
  · exact absurd hk (Nat.lt_irrefl 0)
  · have hpos : 0 < w.lcommit T₁ := Nat.lt_of_lt_of_le hk h2
    obtain ⟨⟨A, hA, hack⟩, -⟩ := hs.committed T₁ hpos
    refine ⟨A, hA, fun n hn => ?_⟩
    have hlen : ((w.llog T₁).take k).length = k := by
      have := hs.lcommit_le T₁
      rw [List.length_take]
      omega
    have htake : l.take k = (w.llog T₁).take k := by
      rw [take_eq_of_isPre h3 (Nat.le_of_eq hlen.symm), List.take_take, Nat.min_self]
    rw [htake]
    refine (take_isPre_take _ h2).trans ?_
    rcases hs.retained n T₁ _ (hack n hn) with hr | ⟨T', hT, -, hled, hno⟩
    · exact hr
    · -- no later leader can have lacked it
      exact absurd (hs.leader_complete hchk hpos hT hled) hno

/-- A node keeps its committed entries when it accepts a stretch of its leader's
log. -/
theorem CommittedIn.merged {n : N} {k : Nat} (m : Nat) (hchk : chk) (hs : w.Sound Q tm chk)
    (hl : w.leader (w.term n) ≠ none) (h : w.CommittedIn (w.term n) (w.log n) k) :
    w.CommittedIn (w.term n) (w.merged n m) k := by
  have h1 := (h.in_llog hchk hs (Nat.le_refl _) hl).2
  rcases h with rfl | ⟨T₁, h2, h3, h4⟩
  · exact Or.inl rfl
  · have h5 := hs.committed_isPre hchk h2 h3 hl
    exact Or.inr ⟨T₁, h2, h3, isPre_merged m h4 h5⟩

/-- All committed entries, of all terms up to a bound, form one sequence. -/
theorem Sound.exists_sequence (hchk : chk) (hs : w.Sound Q tm chk) (B : Nat) :
    ∃ cs : List E, ∀ T ≤ B, (w.llog T).take (w.lcommit T) <+: cs := by
  induction B with
  | zero => exact ⟨(w.llog 0).take (w.lcommit 0), by rintro T hT; obtain rfl : T = 0 := by omega
                                                     exact List.prefix_rfl⟩
  | succ B ih =>
    obtain ⟨cs, hcs⟩ := ih
    rcases Nat.eq_zero_or_pos (w.lcommit (B + 1)) with h0 | hpos
    · refine ⟨cs, fun T hT => ?_⟩
      rcases Nat.eq_or_lt_of_le hT with rfl | hlt
      · rw [h0]; simp
      · exact hcs T (by omega)
    · -- a later committed stretch contains the earlier ones
      have hled : w.leader (B + 1) ≠ none := by
        intro hno
        have := (hs.unled _ hno).2.2.1
        omega
      refine ⟨(w.llog (B + 1)).take (w.lcommit (B + 1)), fun T hT => ?_⟩
      rcases Nat.eq_or_lt_of_le hT with rfl | hlt
      · exact List.prefix_rfl
      · rcases Nat.eq_zero_or_pos (w.lcommit T) with h0 | hposT
        · rw [h0]; simp
        · have h1 := hs.leader_complete hchk hposT hlt hled
          obtain ⟨-, e, he, hte⟩ := hs.committed (B + 1) hpos
          have h2 : (w.ilog (B + 1)).length ≤ w.lcommit (B + 1) - 1 := by
            have := hs.ilog_length_le (hs.llog_chained (B + 1)) he
            rwa [hte] at this
          exact isPre_take_of_isPre (h1.trans (hs.ilog_isPre _))
            (by have := h1.length_le; omega)

end Committed

/-! ## Anchored windows -/

section Anchors

variable {Q : Quorums N} {tm : E → Nat} {chk : Prop} {w w' : World N E}

theorem Anchored.mono {T : Nat} {n : N} {y y' : Nat} (h : w.Anchored T n y) (hy : y ≤ y') :
    w.Anchored T n y' := by
  rcases h with h | ⟨h1, h2⟩
  · exact Or.inl (by omega)
  · refine Or.inr ⟨h1, fun ht => ?_⟩
    rcases h2 ht with h3 | h3
    · exact Or.inl h3
    · exact Or.inr fun k hk he => Nat.le_trans (h3 k hk he) hy

/-- A node in term `T` whose log ends at `y` or before is anchored there. -/
theorem Anchored.of_length {n : N} {y : Nat} (h : (w.log n).length ≤ y) :
    w.Anchored (w.term n) n y :=
  Or.inr ⟨Nat.le_refl _, fun _ => Or.inr fun _ hk _ => Nat.le_trans hk h⟩

/-- Different stamps at position `p` anchor the node before `p`. -/
theorem Anchored.of_mismatch {n : N} {p : Nat} {d e : E} (hd : (w.log n)[p]? = some d)
    (he : (w.llog (w.term n))[p]? = some e) (hne : tm d ≠ tm e) :
    w.Anchored (w.term n) n p := by
  refine Or.inr ⟨Nat.le_refl _, fun _ => Or.inr fun k hk heq => ?_⟩
  by_contra hlt
  have h1 : ((w.log n).take k)[p]? = some d := by
    rw [List.getElem?_take_of_lt (by omega)]; exact hd
  have h2 : ((w.llog (w.term n)).take k)[p]? = some e := by
    rw [List.getElem?_take_of_lt (by omega)]; exact he
  rw [heq, h2] at h1
  exact hne (by rw [Option.some.inj h1])

/-- … and, for the last position `j` where the leader has the node's stamp, right
after `j`. -/
theorem Anchored.of_last_stamp (hs : w.Sound Q tm chk) {n : N} {p j : Nat} {d e x : E}
    (hd : (w.log n)[p]? = some d) (he : (w.llog (w.term n))[p]? = some e) (hne : tm d ≠ tm e)
    (hx : (w.llog (w.term n))[j]? = some x) (hxd : tm x = tm d)
    (hlast : ∀ k y, j < k → (w.llog (w.term n))[k]? = some y → tm y ≠ tm d) :
    w.Anchored (w.term n) n (j + 1) := by
  rcases Nat.lt_or_ge (j + 1) p with hlt | hge
  · refine Or.inr ⟨Nat.le_refl _, fun _ => Or.inr fun k hk heq => ?_⟩
    by_contra hkj
    -- position `j + 1` is shared, after the leader's last `tm d` and before the node's
    have hklen : (w.log n).take k = (w.llog (w.term n)).take k := heq
    obtain ⟨z, hz⟩ : ∃ z, (w.log n)[j + 1]? = some z := by
      have : j + 1 < (w.log n).length := by
        have := (List.getElem?_eq_some_iff.mp hd).1
        omega
      exact ⟨_, List.getElem?_eq_getElem this⟩
    have hz' : (w.llog (w.term n))[j + 1]? = some z := by
      have h1 : ((w.log n).take k)[j + 1]? = some z := by
        rw [List.getElem?_take_of_lt (by omega)]; exact hz
      rw [hklen, List.getElem?_take_of_lt (by omega)] at h1
      exact h1
    have h1 : tm z ≤ tm d := hs.tm_le_of_le (hs.log_chained n) (by omega) hz hd
    have h2 : tm x ≤ tm z := hs.tm_le_of_le (hs.llog_chained _) (by omega) hx hz'
    exact hlast (j + 1) z (by omega) hz' (by omega)
  · exact (Anchored.of_mismatch hd he hne).mono hge

/-- **The point of an anchor**: accepting a window of at least one entry from an
anchored position leaves a prefix of the leader's log. -/
theorem Anchored.isPre_of_merged (hs : w.Sound Q tm chk) {n : N} {y m : Nat}
    (h : w.Anchored (w.term n) n y) (hym : y < m) (hm : m ≤ (w.llog (w.term n)).length) :
    w.merged n m <+: w.llog (w.term n) := by
  unfold merged
  split
  · rename_i hpre
    rcases h with h | ⟨-, h2⟩
    · -- past the leader's starting point every entry is stamped with the term
      obtain ⟨e, he⟩ : ∃ e, (w.llog (w.term n))[y]? = some e :=
        ⟨_, List.getElem?_eq_getElem (by omega)⟩
      have hte : tm e = w.term n := hs.tail_tm _ y e h he
      have hey : (w.log n)[y]? = some e := by
        refine getElem?_of_isPre hpre ?_
        rw [List.getElem?_take_of_lt hym]; exact he
      have hylt := (List.getElem?_eq_some_iff.mp hey).1
      obtain ⟨x, hx⟩ := exists_last (l := w.log n) (List.ne_nil_of_length_pos (by omega))
      have hx1 : tm e ≤ tm x := hs.tm_le_of_le (hs.log_chained n) (by omega) hey hx
      have hx2 : tm x ≤ w.term n := hs.log_tm n x (List.mem_of_getElem? hx)
      have hxt : tm x = w.term n := by omega
      have := (hs.log_chained n).isPre_llog hx
      rwa [hxt] at this
    · rcases h2 rfl with h3 | h3
      · exact h3
      · have hlen : m ≤ (w.log n).length := by
          have := hpre.length_le
          rw [List.length_take] at this
          omega
        have heq : (w.log n).take m = (w.llog (w.term n)).take m := by
          have := take_eq_of_isPre hpre (i := m) (by rw [List.length_take]; omega)
          rw [this, List.take_take, Nat.min_self]
        exact absurd (h3 m hlen heq) (by omega)
  · exact take_isPre _ _

variable [DecidableEq N]

/-- Anchors survive every move of a cluster in which the term has a leader. -/
theorem Anchored.step {T : Nat} {n : N} {y : Nat} (hs : w.Sound Q tm chk)
    (hstep : Step Q tm chk w w')
    (hl : w.leader T ≠ none) (h : w.Anchored T n y) : w'.Anchored T n y := by
  have hx := (hstep.sound_extends hs).2
  rcases h with h | ⟨h1, h2⟩
  · exact Or.inl (by rw [hx.ilog_keep T hl]; exact h)
  refine Or.inr ⟨Nat.le_trans h1 (hx.ballot.term_le n), fun ht => ?_⟩
  have htw : w.term n = T := Nat.le_antisymm (ht ▸ hx.ballot.term_le n) h1
  have h3 := h2 htw
  cases hstep with
  | advance k S hlt => exact h3
  | stand k hnone => exact h3
  | cast k c lc hnone hc hup => exact h3
  | commit S i A hA hack he => exact h3
  | elect c A hno hc hA hv =>
    have hne : T ≠ w.term c := by rintro rfl; exact hl hno
    simpa [elected, Function.update_of_ne hne] using h3
  | append c e hlead hlog he =>
    by_cases hn : n = c
    · subst hn
      rw [htw] at hlog
      exact Or.inl (by simp [append, hlog, htw])
    · have hlogn : (w.append c e).log n = w.log n := by
        simp [append, Function.update_of_ne hn]
      rw [hlogn]
      rcases h3 with h4 | h4
      · exact Or.inl (h4.trans (hx.llog_isPre T))
      · by_cases hT : T = w.term c
        · right
          intro k hk heq
          subst hT
          have hllog : (w.append c e).llog (w.term c) = w.llog (w.term c) ++ [e] := by
            simp [append]
          rw [hllog] at heq
          rcases Nat.lt_or_ge (w.llog (w.term c)).length k with hlt | hge
          · -- the follower would already hold an entry of the term that its leader lacks
            exfalso
            have h5 := congrArg List.length heq
            rw [List.length_take, List.length_take, List.length_append,
              List.length_singleton] at h5
            have hek : (w.log n)[k - 1]? = some e := by
              have h6 : ((w.log n).take k)[k - 1]? = some e := by
                rw [heq, List.getElem?_take_of_lt (by omega),
                  List.getElem?_append_right (by omega)]
                rw [show k - 1 - (w.llog (w.term c)).length = 0 by omega]
                rfl
              rwa [List.getElem?_take_of_lt (by omega)] at h6
            have h7 := (hs.log_chained n _ e hek).length_le
            rw [he, List.length_take] at h7
            omega
          · rw [List.take_append_of_le_length hge] at heq
            exact h4 k hk heq
        · right
          intro k hk heq
          have hllog : (w.append c e).llog T = w.llog T := by
            simp [append, Function.update_of_ne hT]
          rw [hllog] at heq
          exact h4 k hk heq
  | accept k m hlead hm =>
    by_cases hn : n = k
    · subst hn
      have hlogn : (w.accept n m).log n = w.merged n m := by simp [accept]
      have hllog : (w.accept n m).llog T = w.llog T := rfl
      rw [hlogn, hllog]
      unfold merged
      split
      · exact h3
      · exact Or.inl (by rw [htw]; exact take_isPre _ _)
    · have hlogn : (w.accept k m).log n = w.log n := by
        simp [accept, Function.update_of_ne hn]
      rw [hlogn]
      exact h3

theorem Anchored.steps {T : Nat} {n : N} {y : Nat} (hs : w.Sound Q tm chk) (h : Steps Q tm chk w w')
    (hl : w.leader T ≠ none) (ha : w.Anchored T n y) : w'.Anchored T n y := by
  induction h with
  | refl => exact ha
  | tail hsteps hstep ih =>
    obtain ⟨h1, h2⟩ := Steps.sound_extends hsteps hs
    exact ih.step h1 hstep (h2.leader_ne hl)

end Anchors

end TermLog.World
