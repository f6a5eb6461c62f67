/-
# Replicated logs ordered by terms

Every node keeps a log; the leader of a term appends to its own log and the
others copy stretches of it.  This file is the argument, with no program in it,
that what a quorum has confirmed in the leader's own term is never lost:

  * `World` adds to the history of votes (`Ballot`) the logs, the log each
    leader started from (`ilog`) and has now (`llog`), the log each voter had
    when it voted (`vlog`), how far each node has confirmed the log of each
    term's leader (`acked`), and how far the leader of each term has committed
    (`lcommit`);
  * `World.Sound` is the invariant.  Its core is `Chained`: an entry stamped
    `t` sits on a prefix of the log of the leader of `t`.  Log matching, the
    order of the terms and the uniqueness of entries are all one line from it;
  * `World.Sound.leader_complete` is leader completeness, by strong induction
    on the later term, and `World.Sound.committed_agree` is what state-machine
    safety needs of it.

Entries are an arbitrary type `E` with a stamp `tm : E → Nat`, nodes an
arbitrary type `N`, quorums any `Quorums N`.  Whether voters compare logs at all is
the parameter `chk : Prop` of the invariant: log matching does not need it, leader
completeness does.

The retention clause is the one place where the shape matters.  A node that
confirmed a stretch may lose it again, to a later leader that lacks it; so the
clause does not say "still has it" but "still has it, or some later leader that
this node may have followed lacks it" (`Retained`).  The second half is
discharged only for committed stretches, inside the induction.
-/
import SimKV.Lib.Ballot
import Mathlib.Data.List.Infix

namespace TermLog

/-! ## Prefixes and stamps of plain lists -/

section Lists

variable {E : Type}

theorem take_isPre (l : List E) (i : Nat) : l.take i <+: l :=
  List.take_prefix i l

theorem take_isPre_take (l : List E) {i j : Nat} (h : i ≤ j) : l.take i <+: l.take j := by
  rw [List.prefix_take_iff]
  exact ⟨take_isPre l i, by rw [List.length_take]; omega⟩

/-- Prefixes of one list are ordered by their lengths. -/
theorem isPre_of_length_le {a b c : List E} (ha : a <+: c) (hb : b <+: c)
    (h : a.length ≤ b.length) : a <+: b :=
  List.prefix_of_prefix_length_le ha hb h

theorem take_eq_of_isPre {a b : List E} (h : a <+: b) {i : Nat} (hi : i ≤ a.length) :
    b.take i = a.take i := by
  obtain ⟨t, rfl⟩ := h
  exact List.take_append_of_le_length hi

theorem getElem?_of_isPre {a b : List E} (h : a <+: b) {k : Nat} {e : E}
    (hk : a[k]? = some e) : b[k]? = some e := by
  obtain ⟨t, rfl⟩ := h
  have hlt : k < a.length := (List.getElem?_eq_some_iff.mp hk).1
  rw [List.getElem?_append_left hlt]
  exact hk

/-- Reading below the length of a prefix is the same in both lists. -/
theorem getElem?_isPre_eq {a b : List E} (h : a <+: b) {k : Nat} (hk : k < a.length) :
    b[k]? = a[k]? := by
  obtain ⟨t, rfl⟩ := h
  exact List.getElem?_append_left hk

theorem isPre_take_of_isPre {a b : List E} (h : a <+: b) {i : Nat} (hi : a.length ≤ i) :
    a <+: b.take i := by
  rw [List.prefix_take_iff]
  exact ⟨h, hi⟩

/-- The stamp of the last entry, `0` for the empty log. -/
def lastTm (tm : E → Nat) (l : List E) : Nat := (l.getLast?.map tm).getD 0

/-- The comparison a voter makes: a later last stamp, or the same one and a log
at least as long. -/
def UpToDate (tm : E → Nat) (a b : List E) : Prop :=
  lastTm tm b < lastTm tm a ∨ (lastTm tm a = lastTm tm b ∧ b.length ≤ a.length)

theorem UpToDate.refl (tm : E → Nat) (l : List E) : UpToDate tm l l :=
  Or.inr ⟨rfl, Nat.le_refl _⟩

theorem lastTm_eq_of_getElem? {tm : E → Nat} {l : List E} {e : E}
    (h : l[l.length - 1]? = some e) : lastTm tm l = tm e := by
  rw [lastTm, List.getLast?_eq_getElem?, h]
  rfl

/-- A non-empty log has a last entry. -/
theorem exists_last {l : List E} (h : l ≠ []) : ∃ e, l[l.length - 1]? = some e :=
  ⟨l.getLast h, by rw [← List.getLast?_eq_getElem?, List.getLast?_eq_getLast_of_ne_nil h]⟩

end Lists

/-! ## Worlds -/

/-- The history of a cluster of replicated logs. -/
structure World (N E : Type) extends Ballot N where
  log : N → List E
  cand : N → Nat → Option (List E)
  vlog : N → Nat → List E
  ilog : Nat → List E
  llog : Nat → List E
  acked : N → Nat → Nat
  lcommit : Nat → Nat

namespace World

variable {N E : Type}

/-- Empty logs and an empty history. -/
def init : World N E where
  toBallot := Ballot.init
  log := fun _ => []
  cand := fun _ _ => none
  vlog := fun _ _ => []
  ilog := fun _ => []
  llog := fun _ => []
  acked := fun _ _ => 0
  lcommit := fun _ => 0

/-- Each entry of `l` sits on a prefix of the log of the leader of its stamp. -/
def Chained (tm : E → Nat) (w : World N E) (l : List E) : Prop :=
  ∀ k e, l[k]? = some e → l.take (k + 1) <+: w.llog (tm e)

/-- `l` still holds the first `i` entries of the log of the leader of `T`, or a
leader of a term strictly between `T` and `B` started without them. -/
def Retained (w : World N E) (l : List E) (B T i : Nat) : Prop :=
  (w.llog T).take i <+: l ∨
    ∃ T', T < T' ∧ T' < B ∧ w.leader T' ≠ none ∧ ¬ (w.llog T).take i <+: w.ilog T'

/-- What a vote of `n` for `c` in term `T` is worth: it compared `c`'s log with the
voter's, which had retained whatever the voter had confirmed before. -/
structure VoteOk (tm : E → Nat) (chk : Prop) (w : World N E) (n : N) (T : Nat) (lc : List E) :
    Prop where
  upToDate : chk → UpToDate tm lc (w.vlog n T)
  chained : Chained tm w (w.vlog n T)
  retained : ∀ T' i, T' < T → i ≤ w.acked n T' → w.Retained (w.vlog n T) T T' i

/-- The invariant. -/
structure Sound (Q : Quorums N) (tm : E → Nat) (chk : Prop) (w : World N E) : Prop where
  ballot : w.toBallot.Sound Q
  unled : ∀ T, w.leader T = none →
    w.llog T = [] ∧ w.ilog T = [] ∧ w.lcommit T = 0 ∧ ∀ n, w.acked n T = 0
  ilog_isPre : ∀ T, w.ilog T <+: w.llog T
  ilog_tm : ∀ T e, e ∈ w.ilog T → tm e < T
  tail_tm : ∀ T k e, (w.ilog T).length ≤ k → (w.llog T)[k]? = some e → tm e = T
  llog_chained : ∀ T, Chained tm w (w.llog T)
  log_chained : ∀ n, Chained tm w (w.log n)
  log_tm : ∀ n e, e ∈ w.log n → tm e ≤ w.term n
  cand_voted : ∀ n T l, w.cand n T = some l → w.vote n T = some n ∧ Chained tm w l
  vote_ok : ∀ T n c, w.leader T = none → w.vote n T = some c →
    ∃ lc, w.cand c T = some lc ∧ VoteOk tm chk w n T lc
  electors : ∀ T c, w.leader T = some c →
    ∃ A, Q.IsQuorum A ∧ ∀ n ∈ A, w.vote n T = some c ∧ VoteOk tm chk w n T (w.ilog T)
  acked_le : ∀ n T, w.acked n T ≤ (w.llog T).length
  acked_term : ∀ n T, 0 < w.acked n T → T ≤ w.term n
  retained : ∀ n T i, i ≤ w.acked n T → w.Retained (w.log n) (w.term n + 1) T i
  committed : ∀ T, 0 < w.lcommit T →
    (∃ A, Q.IsQuorum A ∧ ∀ n ∈ A, w.lcommit T ≤ w.acked n T) ∧
    ∃ e, (w.llog T)[w.lcommit T - 1]? = some e ∧ tm e = T

theorem init_sound (Q : Quorums N) (tm : E → Nat) (chk : Prop) :
    (init : World N E).Sound Q tm chk where
  ballot := Ballot.init_sound Q
  unled := fun _ _ => ⟨rfl, rfl, rfl, fun _ => rfl⟩
  ilog_isPre := fun _ => List.prefix_rfl
  ilog_tm := by intro T e h; simp [init] at h
  tail_tm := by intro T k e _ h; simp [init] at h
  llog_chained := by intro T k e h; simp [init] at h
  log_chained := by intro n k e h; simp [init] at h
  log_tm := by intro n e h; simp [init] at h
  cand_voted := by intro n T l h; simp [init] at h
  vote_ok := by intro T n c _ h; simp [init, Ballot.init] at h
  electors := by intro T c h; simp [init, Ballot.init] at h
  acked_le := fun _ _ => Nat.zero_le _
  acked_term := by intro n T h; simp [init] at h
  retained := by
    intro n T i h
    have h0 : i = 0 := Nat.le_zero.mp h
    subst h0
    exact Or.inl (by simp)
  committed := by intro T h; simp [init] at h

/-! ## What `Chained` gives: log matching and sorted stamps -/

section Consequences

variable {Q : Quorums N} {tm : E → Nat} {chk : Prop} {w : World N E}

theorem Chained.isPre {a l : List E} (h : Chained tm w l) (ha : a <+: l) : Chained tm w a := by
  intro k e hk
  have hlt : k < a.length := (List.getElem?_eq_some_iff.mp hk).1
  have h1 := h k e (getElem?_of_isPre ha hk)
  rwa [take_eq_of_isPre ha (by omega)] at h1

/-- **Log matching**: the same stamp at the same position means the same log up
to there. -/
theorem Chained.matching {l l' : List E} (h : Chained tm w l) (h' : Chained tm w l')
    {k : Nat} {e e' : E} (hk : l[k]? = some e) (hk' : l'[k]? = some e') (ht : tm e = tm e') :
    l.take (k + 1) = l'.take (k + 1) := by
  have h1 := h k e hk
  have h2 := h' k e' hk'
  rw [← ht] at h2
  have hlen : (l.take (k + 1)).length = k + 1 := by
    have := (List.getElem?_eq_some_iff.mp hk).1
    rw [List.length_take]; omega
  have hlen' : (l'.take (k + 1)).length = k + 1 := by
    have := (List.getElem?_eq_some_iff.mp hk').1
    rw [List.length_take]; omega
  exact (isPre_of_length_le h1 h2 (by omega)).eq_of_length (by omega)

/-- The last entry of a chained log places the whole log. -/
theorem Chained.isPre_llog {l : List E} (h : Chained tm w l) {e : E}
    (he : l[l.length - 1]? = some e) : l <+: w.llog (tm e) := by
  have hlt : l.length - 1 < l.length := (List.getElem?_eq_some_iff.mp he).1
  have h1 := h _ e he
  rwa [List.take_of_length_le (by omega)] at h1

namespace Sound

theorem leader_of_getElem? (h : w.Sound Q tm chk) {T k : Nat} {e : E}
    (hk : (w.llog T)[k]? = some e) : w.leader T ≠ none := by
  intro hno
  rw [(h.unled T hno).1] at hk
  simp at hk

theorem leader_of_chained (h : w.Sound Q tm chk) {l : List E} (hl : Chained tm w l) {k : Nat}
    {e : E}
    (hk : l[k]? = some e) : w.leader (tm e) ≠ none := by
  have hlt : k < l.length := (List.getElem?_eq_some_iff.mp hk).1
  have h1 : (l.take (k + 1))[k]? = some e := by
    rw [List.getElem?_take_of_lt (by omega)]; exact hk
  exact h.leader_of_getElem? (getElem?_of_isPre (hl k e hk) h1)

/-- The log of the leader of `T` has no stamp above `T`. -/
theorem llog_tm_le (h : w.Sound Q tm chk) {T k : Nat} {e : E} (hk : (w.llog T)[k]? = some e) :
    tm e ≤ T := by
  rcases Nat.lt_or_ge k (w.ilog T).length with hlt | hge
  · rw [getElem?_isPre_eq (h.ilog_isPre T) hlt] at hk
    exact Nat.le_of_lt (h.ilog_tm T e (List.mem_of_getElem? hk))
  · exact Nat.le_of_eq (h.tail_tm T k e hge hk)

/-- **Stamps never decrease** along a chained log. -/
theorem tm_le_of_le (h : w.Sound Q tm chk) {l : List E} (hl : Chained tm w l) {j k : Nat} {d e : E}
    (hjk : j ≤ k) (hj : l[j]? = some d) (hk : l[k]? = some e) : tm d ≤ tm e := by
  have h1 : (l.take (k + 1))[j]? = some d := by
    rw [List.getElem?_take_of_lt (by omega)]; exact hj
  exact h.llog_tm_le (getElem?_of_isPre (hl k e hk) h1)

theorem tm_le_lastTm (h : w.Sound Q tm chk) {l : List E} (hl : Chained tm w l) {k : Nat} {e : E}
    (hk : l[k]? = some e) : tm e ≤ lastTm tm l := by
  have hlt : k < l.length := (List.getElem?_eq_some_iff.mp hk).1
  have hne : l ≠ [] := List.ne_nil_of_length_pos (by omega)
  obtain ⟨e', he'⟩ := exists_last hne
  rw [lastTm_eq_of_getElem? he']
  exact h.tm_le_of_le hl (by omega) hk he'

/-- An entry stamped `T` in a chained log makes the log up to it part of the log
of the leader of `T`, past the point where that leader started. -/
theorem ilog_length_le (h : w.Sound Q tm chk) {l : List E} (hl : Chained tm w l) {k : Nat} {e : E}
    (hk : l[k]? = some e) : (w.ilog (tm e)).length ≤ k := by
  by_contra hlt
  have h1 : (l.take (k + 1))[k]? = some e := by
    rw [List.getElem?_take_of_lt (by omega)]; exact hk
  have h2 := getElem?_of_isPre (hl k e hk) h1
  rw [getElem?_isPre_eq (h.ilog_isPre _) (by omega)] at h2
  exact absurd (h.ilog_tm _ e (List.mem_of_getElem? h2)) (by omega)

/-! ## Leader completeness -/

/-- A log at least as up to date as one that holds a stretch of the leader of `T`
ending in `T`'s own stamp holds that stretch too, once every leader between
does. -/
theorem isPre_of_upToDate (h : w.Sound Q tm chk) {T i : Nat} {a b : List E}
    (ha : Chained tm w a) (hb : Chained tm w b) (hup : UpToDate tm a b)
    (hi : ∃ e, ((w.llog T).take i)[i - 1]? = some e ∧ tm e = T) (hpos : 0 < i)
    (hpre : (w.llog T).take i <+: b)
    (hlater : ∀ t, T < t → t = lastTm tm a → w.leader t ≠ none → (w.llog T).take i <+: w.ilog t) :
    (w.llog T).take i <+: a := by
  obtain ⟨e, he, hte⟩ := hi
  have hlen : ((w.llog T).take i).length = i := by
    have := (List.getElem?_eq_some_iff.mp he).1
    have h1 : ((w.llog T).take i).length ≤ i := by rw [List.length_take]; omega
    omega
  have hb1 : b[i - 1]? = some e := getElem?_of_isPre hpre he
  have hTb : T ≤ lastTm tm b := by rw [← hte]; exact h.tm_le_lastTm hb hb1
  have hib : i ≤ b.length := by have := hpre.length_le; omega
  have hTa : T ≤ lastTm tm a := by rcases hup with h1 | ⟨h1, -⟩ <;> omega
  have hne : a ≠ [] := by
    intro hnil
    rcases hup with h1 | ⟨-, h2⟩
    · rw [hnil] at h1; simp [lastTm] at h1
    · rw [hnil, List.length_nil] at h2; omega
  obtain ⟨x, hx⟩ := exists_last hne
  have hxt : lastTm tm a = tm x := lastTm_eq_of_getElem? hx
  have hax : a <+: w.llog (tm x) := ha.isPre_llog hx
  rcases Nat.lt_or_ge T (tm x) with hgt | hle
  · -- a later term: its leader already started with the stretch
    have hlead : w.leader (tm x) ≠ none := h.leader_of_chained ha hx
    have h1 := hlater (tm x) hgt hxt.symm hlead
    have h2 := h.ilog_length_le ha hx
    have h3 : 0 < a.length := List.length_pos_of_ne_nil hne
    refine isPre_of_length_le (h1.trans (h.ilog_isPre _)) hax ?_
    have := h1.length_le
    omega
  · -- the same term: both logs are prefixes of the log of the leader of `T`
    have hxT : tm x = T := by omega
    have hlen_ab : b.length ≤ a.length := by
      rcases hup with h1 | ⟨-, h2⟩
      · omega
      · exact h2
    rw [hxT] at hax
    exact isPre_of_length_le (take_isPre _ _) hax (by omega)

/-- **Leader completeness**: what the leader of `T` has committed is in the log
every later leader starts from. -/
theorem leader_complete (hchk : chk) (h : w.Sound Q tm chk) {T : Nat} (hc : 0 < w.lcommit T) :
    ∀ {T' : Nat}, T < T' → w.leader T' ≠ none →
      (w.llog T).take (w.lcommit T) <+: w.ilog T' := by
  intro T'
  induction T' using Nat.strong_induction_on with
  | _ T' ih =>
    intro hlt hlead
    obtain ⟨⟨A, hA, hack⟩, e, he, hte⟩ := h.committed T hc
    obtain ⟨c, hcl⟩ := Option.ne_none_iff_exists'.mp hlead
    obtain ⟨B, hB, hvote⟩ := h.electors T' c hcl
    -- the two quorums meet in a voter that had confirmed the stretch
    obtain ⟨n, hnA, hnB⟩ := Q.meet hA hB
    obtain ⟨-, hok⟩ := hvote n hnB
    have hpre : (w.llog T).take (w.lcommit T) <+: w.vlog n T' := by
      rcases hok.retained T _ hlt (hack n hnA) with h1 | ⟨t, h1, h2, h3, h4⟩
      · exact h1
      · exact absurd (ih t h2 h1 h3) h4
    have hiT : Chained tm w (w.ilog T') := (h.llog_chained T').isPre (h.ilog_isPre T')
    refine h.isPre_of_upToDate hiT hok.chained (hok.upToDate hchk) ⟨e, ?_, hte⟩ hc hpre ?_
    · rw [List.getElem?_take_of_lt (by omega)]; exact he
    · intro t hTt hlast hled
      have hne : w.ilog T' ≠ [] := by
        intro hnil
        rw [hnil] at hlast
        simp [lastTm] at hlast
        omega
      obtain ⟨x, hx⟩ := exists_last hne
      have htx : t = tm x := by rw [hlast]; exact lastTm_eq_of_getElem? hx
      have htT : t < T' := by rw [htx]; exact h.ilog_tm T' x (List.mem_of_getElem? hx)
      exact ih t htT hTt hled

theorem lcommit_le (h : w.Sound Q tm chk) (T : Nat) : w.lcommit T ≤ (w.llog T).length := by
  rcases Nat.eq_zero_or_pos (w.lcommit T) with h0 | hpos
  · omega
  · obtain ⟨-, e, he, -⟩ := h.committed T hpos
    have := (List.getElem?_eq_some_iff.mp he).1
    omega

/-- Committed stretches of different terms are prefixes of each other. -/
theorem committed_isPre (hchk : chk) (h : w.Sound Q tm chk) {T T' i : Nat} (hTT : T ≤ T')
    (hi : i ≤ w.lcommit T)
    (hled : w.leader T' ≠ none) : (w.llog T).take i <+: w.llog T' := by
  rcases Nat.eq_or_lt_of_le hTT with rfl | hlt
  · exact take_isPre _ _
  · rcases Nat.eq_zero_or_pos i with rfl | hpos
    · simp
    · exact (take_isPre_take _ hi).trans
        ((h.leader_complete hchk (by omega) hlt hled).trans (h.ilog_isPre T'))

/-- **State-machine safety, abstractly**: any two committed stretches agree where
both reach. -/
theorem committed_agree (hchk : chk) (h : w.Sound Q tm chk) {T T' i : Nat} (hi : i ≤ w.lcommit T)
    (hi' : i ≤ w.lcommit T') : (w.llog T).take i = (w.llog T').take i := by
  have key : ∀ {T T' : Nat}, T ≤ T' → i ≤ w.lcommit T → i ≤ w.lcommit T' →
      (w.llog T).take i = (w.llog T').take i := by
    intro T T' hTT hi hi'
    rcases Nat.eq_zero_or_pos i with rfl | hpos
    · simp
    · have hled : w.leader T' ≠ none := by
        intro hno
        have := (h.unled T' hno).2.2.1
        omega
      have h1 := h.committed_isPre hchk hTT hi hled
      have h2 := h.lcommit_le T
      have hlen : ((w.llog T).take i).length = i := by rw [List.length_take]; omega
      rw [take_eq_of_isPre h1 (by omega), List.take_take, Nat.min_self]
  rcases Nat.le_total T T' with hTT | hTT
  · exact key hTT hi hi'
  · exact (key hTT hi' hi).symm

/-- **What a leader that has not been passed knows.**  If a quorum is not past term `T`, then
nobody has committed beyond `c`, provided the leader of `T` has not, and its log ends by `c` or its
first `c` entries end with one of `T`. -/
theorem committed_le (hchk : chk) (h : w.Sound Q tm chk) {T T' i c : Nat} {A : Finset N}
    (hA : Q.IsQuorum A) (hterm : ∀ n ∈ A, w.term n ≤ T) (hled : w.leader T ≠ none)
    (hT : w.lcommit T ≤ c)
    (hc : (w.llog T).length ≤ c ∨ lastTm tm ((w.llog T).take c) = T)
    (hi : i ≤ w.lcommit T') : i ≤ c := by
  rcases Nat.eq_zero_or_pos i with rfl | hpos
  · exact Nat.zero_le c
  rcases Nat.lt_trichotomy T' T with hlt | rfl | hgt
  · -- the leader of `T` has it, below its own entries
    have hpre := h.committed_isPre hchk (Nat.le_of_lt hlt) hi hled
    have hlen : ((w.llog T').take i).length = i := by
      have := h.lcommit_le T'
      rw [List.length_take]
      omega
    rcases hc with hc | hc
    · have := hpre.length_le
      omega
    · by_contra hci
      have hne : (w.llog T).take c ≠ [] := by
        intro hnil
        rw [hnil] at hc
        exact absurd hc (Nat.ne_of_lt (Nat.zero_lt_of_lt hlt))
      obtain ⟨e, he⟩ := exists_last hne
      rw [lastTm_eq_of_getElem? he] at hc
      have hk := (List.getElem?_eq_some_iff.mp he).1
      rw [List.length_take] at hk
      rw [List.getElem?_take_of_lt (by rw [List.length_take]; omega),
        getElem?_isPre_eq hpre (by rw [List.length_take]; omega),
        List.getElem?_take_of_lt (by rw [List.length_take]; omega)] at he
      have := h.llog_tm_le he
      omega
  · exact Nat.le_trans hi hT
  · -- a quorum is in `T'` already
    obtain ⟨⟨B, hB, hack⟩, -⟩ := h.committed T' (by omega)
    obtain ⟨n, hnA, hnB⟩ := Q.meet hA hB
    have h1 := hack n hnB
    have h2 := h.acked_term n T' (by omega)
    have h3 := hterm n hnA
    omega

end Sound

end Consequences

/-! ## Histories only grow -/

/-- `w'` continues the history of `w`. -/
structure Extends (w w' : World N E) : Prop where
  ballot : w.toBallot.Extends w'.toBallot
  cand_keep : ∀ n T l, w.cand n T = some l → w'.cand n T = some l
  ilog_keep : ∀ T, w.leader T ≠ none → w'.ilog T = w.ilog T
  llog_isPre : ∀ T, w.llog T <+: w'.llog T
  acked_le : ∀ n T, w.acked n T ≤ w'.acked n T
  lcommit_le : ∀ T, w.lcommit T ≤ w'.lcommit T

theorem Extends.refl (w : World N E) : w.Extends w where
  ballot := Ballot.Extends.refl _
  cand_keep := fun _ _ _ h => h
  ilog_keep := fun _ _ => rfl
  llog_isPre := fun _ => List.prefix_rfl
  acked_le := fun _ _ => Nat.le_refl _
  lcommit_le := fun _ => Nat.le_refl _

theorem Extends.leader_ne {w w' : World N E} (h : w.Extends w') {T : Nat}
    (hl : w.leader T ≠ none) : w'.leader T ≠ none := by
  obtain ⟨c, hc⟩ := Option.ne_none_iff_exists'.mp hl
  rw [h.ballot.leader_keep T c hc]
  simp

theorem Extends.trans {a b c : World N E} (h : a.Extends b) (h' : b.Extends c) : a.Extends c where
  ballot := h.ballot.trans h'.ballot
  cand_keep := fun n T l hl => h'.cand_keep n T l (h.cand_keep n T l hl)
  ilog_keep := fun T hl => (h'.ilog_keep T (h.leader_ne hl)).trans (h.ilog_keep T hl)
  llog_isPre := fun T => (h.llog_isPre T).trans (h'.llog_isPre T)
  acked_le := fun n T => Nat.le_trans (h.acked_le n T) (h'.acked_le n T)
  lcommit_le := fun T => Nat.le_trans (h.lcommit_le T) (h'.lcommit_le T)

section Stable

variable {Q : Quorums N} {tm : E → Nat} {chk : Prop} {w w' : World N E}

theorem Chained.extends {l : List E} (hx : w.Extends w') (h : Chained tm w l) :
    Chained tm w' l :=
  fun k e hk => (h k e hk).trans (hx.llog_isPre _)

theorem Extends.llog_take (hx : w.Extends w') {T i : Nat} (hi : i ≤ (w.llog T).length) :
    (w'.llog T).take i = (w.llog T).take i :=
  take_eq_of_isPre (hx.llog_isPre T) hi

/-- Retention is stable: a longer log, a later bound and more history keep it. -/
theorem Retained.extends {l l' : List E} {B B' T i : Nat} (hx : w.Extends w')
    (h : w.Retained l B T i) (hl : l <+: l') (hB : B ≤ B') (hi : i ≤ (w.llog T).length) :
    w'.Retained l' B' T i := by
  rw [Retained, hx.llog_take hi]
  rcases h with h | ⟨T', h1, h2, h3, h4⟩
  · exact Or.inl (h.trans hl)
  · exact Or.inr ⟨T', h1, by omega, hx.leader_ne h3, by rwa [hx.ilog_keep T' h3]⟩

/-- A vote keeps its worth while the voter confirms nothing more below its term. -/
theorem VoteOk.extends {n : N} {T : Nat} {lc : List E} (hs : w.Sound Q tm chk) (hx : w.Extends w')
    (h : VoteOk tm chk w n T lc) (hvl : w'.vlog n T = w.vlog n T)
    (hack : ∀ T', T' < T → w'.acked n T' = w.acked n T') : VoteOk tm chk w' n T lc where
  upToDate := by rw [hvl]; exact h.upToDate
  chained := by rw [hvl]; exact h.chained.extends hx
  retained := by
    intro T' i hT' hi
    rw [hack T' hT'] at hi
    rw [hvl]
    exact (h.retained T' i hT' hi).extends hx List.prefix_rfl (Nat.le_refl _)
      (Nat.le_trans hi (hs.acked_le n T'))

theorem cand_none_of_vote_none {n : N} {T : Nat} (hs : w.Sound Q tm chk) (h : w.vote n T = none) :
    w.cand n T = none := by
  by_contra hne
  obtain ⟨l, hl⟩ := Option.ne_none_iff_exists'.mp hne
  rw [(hs.cand_voted n T l hl).1] at h
  exact absurd h (by simp)

end Stable

end World

end TermLog
