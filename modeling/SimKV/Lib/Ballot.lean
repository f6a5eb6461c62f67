/-
# Terms, votes and leaders over a quorum system

A voter has a current term that only grows and casts at most one vote in each
term; a candidate leads a term once a quorum has voted for it there.  Nothing
here knows what the voters are or what a leader is for: the voters are an
arbitrary type `N`, and quorums are any family of finite sets two of which
always meet.

`Ballot` keeps the whole history of votes and leaders, not only what the voters
remember now.  That is what makes "at most one leader per term" a statement
about a whole run: `leader` is a function of the term, it is never overwritten
(`Ballot.Extends`), and `Ballot.Sound` says that a second winner of the same
term would have to be the first one (`Ballot.Sound.leader_unique`).
-/
import Mathlib.Data.Finset.Card
import Mathlib.Data.Finset.Union
import Mathlib.Logic.Function.Basic

/-! ## Quorum systems -/

/-- A family of finite sets of voters, any two of which share a voter. -/
structure Quorums (N : Type) where
  IsQuorum : Finset N → Prop
  meet : ∀ {A B : Finset N}, IsQuorum A → IsQuorum B → ∃ n, n ∈ A ∧ n ∈ B
  /-- Everyone who is in a quorum. -/
  voters : Finset N
  sub : ∀ {A : Finset N}, IsQuorum A → A ⊆ voters

section Majority

variable {N : Type}

/-- More than half of the electorate. -/
structure Majority (e A : Finset N) : Prop where
  sub : A ⊆ e
  card : e.card / 2 + 1 ≤ A.card

/-- Every majority of `e` is a quorum. -/
def Quorums.Decides (Q : Quorums N) (e : Finset N) : Prop := ∀ A, Majority e A → Q.IsQuorum A

variable [DecidableEq N]

/-- A majority of one electorate and a majority of the other do not fit side by side. -/
def Overlap (e e' : Finset N) : Prop :=
  (e ∪ e').card < (e.card / 2 + 1) + (e'.card / 2 + 1)

instance (e e' : Finset N) : Decidable (Overlap e e') := Nat.decLt _ _

theorem Overlap.refl (e : Finset N) : Overlap e e := by
  unfold Overlap
  rw [Finset.union_self]
  omega

theorem Overlap.symm {e e' : Finset N} (h : Overlap e e') : Overlap e' e := by
  unfold Overlap at h ⊢
  rw [Finset.union_comm]
  omega

/-- Majorities of electorates that overlap meet. -/
theorem Overlap.meet {e e' A B : Finset N} (h : Overlap e e') (hA : Majority e A)
    (hB : Majority e' B) : ∃ n, n ∈ A ∧ n ∈ B := by
  by_contra hno
  have hdis : Disjoint A B := Finset.disjoint_left.mpr fun n hnA hnB => hno ⟨n, hnA, hnB⟩
  have hcard : A.card + B.card ≤ (e ∪ e').card := by
    rw [← Finset.card_union_of_disjoint hdis]
    exact Finset.card_le_card (Finset.union_subset_union hA.sub hB.sub)
  have h1 := hA.card
  have h2 := hB.card
  unfold Overlap at h
  omega

/-- The majorities of a finite set of members. -/
def Quorums.majority (members : Finset N) : Quorums N where
  IsQuorum := Majority members
  meet := (Overlap.refl members).meet
  voters := members
  sub hA := hA.sub

/-- The majorities of electorates any two of which overlap. -/
def Quorums.overlapping (es : List (Finset N)) (h : ∀ e ∈ es, ∀ e' ∈ es, Overlap e e') :
    Quorums N where
  IsQuorum A := ∃ e ∈ es, Majority e A
  meet := by
    rintro A B ⟨e, he, hA⟩ ⟨e', he', hB⟩
    exact (h e he e' he').meet hA hB
  voters := es.toFinset.biUnion id
  sub := by
    rintro A ⟨e, he, hA⟩
    exact hA.sub.trans (Finset.subset_biUnion_of_mem id (List.mem_toFinset.mpr he))

end Majority

/-! ## Two-argument updates -/

section Set2

variable {A B C : Type} [DecidableEq A] [DecidableEq B]

/-- `f` changed at one pair of arguments. -/
def set2 (f : A → B → C) (a : A) (b : B) (v : C) : A → B → C :=
  Function.update f a (Function.update (f a) b v)

@[simp] theorem set2_self (f : A → B → C) (a : A) (b : B) (v : C) : set2 f a b v a b = v := by
  simp [set2]

theorem set2_of_ne (f : A → B → C) {a x : A} {b y : B} (v : C) (h : ¬ (x = a ∧ y = b)) :
    set2 f a b v x y = f x y := by
  by_cases hx : x = a
  · subst hx
    have hy : y ≠ b := fun hy => h ⟨rfl, hy⟩
    simp [set2, Function.update_of_ne hy]
  · simp [set2, Function.update_of_ne hx]

end Set2

/-! ## Ballots -/

/-- Current terms, and the history of votes and of won terms. -/
structure Ballot (N : Type) where
  term : N → Nat
  vote : N → Nat → Option N
  leader : Nat → Option N

namespace Ballot

variable {N : Type}

/-- Before anything happened: term `0` everywhere, no vote, no leader. -/
def init : Ballot N where
  term := fun _ => 0
  vote := fun _ _ => none
  leader := fun _ => none

/-- Votes are cast in terms already reached, and every leader was voted for by a
quorum in its term. -/
structure Sound (Q : Quorums N) (b : Ballot N) : Prop where
  voted_le : ∀ n T c, b.vote n T = some c → T ≤ b.term n
  leader_le : ∀ T c, b.leader T = some c → T ≤ b.term c
  elected : ∀ T c, b.leader T = some c →
    ∃ A, Q.IsQuorum A ∧ ∀ n ∈ A, b.vote n T = some c

/-- Votes and leads belong to terms already reached. -/
structure Timely (b : Ballot N) : Prop where
  voted_le : ∀ n T c, b.vote n T = some c → T ≤ b.term n
  leader_le : ∀ T c, b.leader T = some c → T ≤ b.term c

theorem Sound.timely {Q : Quorums N} {b : Ballot N} (h : b.Sound Q) : b.Timely :=
  ⟨h.voted_le, h.leader_le⟩

/-- No vote is cast in a term before it is reached. -/
theorem Timely.unvoted {b : Ballot N} (h : b.Timely) {n : N} {T : Nat} (hT : b.term n < T) :
    b.vote n T = none := by
  by_contra hne
  obtain ⟨c, hc⟩ := Option.ne_none_iff_exists'.mp hne
  have := h.voted_le n T c hc
  omega

theorem init_sound (Q : Quorums N) : (init : Ballot N).Sound Q where
  voted_le := by intro n T c h; simp [init] at h
  leader_le := by intro T c h; simp [init] at h
  elected := by intro T c h; simp [init] at h

/-- **At most one leader per term**: a candidate with a quorum of votes in a term
that already has a leader is that leader. -/
theorem Sound.leader_unique {Q : Quorums N} {b : Ballot N} (h : b.Sound Q) {T : Nat} {c c' : N}
    {A : Finset N} (hl : b.leader T = some c) (hA : Q.IsQuorum A)
    (hv : ∀ n ∈ A, b.vote n T = some c') : c' = c := by
  obtain ⟨B, hB, hvB⟩ := h.elected T c hl
  obtain ⟨n, hnA, hnB⟩ := Q.meet hA hB
  have h1 := hv n hnA
  rw [hvB n hnB] at h1
  exact (Option.some.inj h1).symm

/-- `b'` continues the history of `b`. -/
structure Extends (b b' : Ballot N) : Prop where
  term_le : ∀ n, b.term n ≤ b'.term n
  vote_keep : ∀ n T c, b.vote n T = some c → b'.vote n T = some c
  leader_keep : ∀ T c, b.leader T = some c → b'.leader T = some c

theorem Extends.refl (b : Ballot N) : b.Extends b :=
  ⟨fun _ => Nat.le_refl _, fun _ _ _ h => h, fun _ _ h => h⟩

theorem Extends.trans {a b c : Ballot N} (h : a.Extends b) (h' : b.Extends c) : a.Extends c :=
  ⟨fun n => Nat.le_trans (h.term_le n) (h'.term_le n),
   fun n T v hv => h'.vote_keep n T v (h.vote_keep n T v hv),
   fun T l hl => h'.leader_keep T l (h.leader_keep T l hl)⟩

/-! ## Steps -/

/-- Candidate `c` takes the lead in its current term. -/
def elect (b : Ballot N) (c : N) : Ballot N :=
  { b with leader := Function.update b.leader (b.term c) (some c) }

theorem extends_elect (b : Ballot N) {c : N} (h : ∀ l, b.leader (b.term c) = some l → c = l) :
    b.Extends (b.elect c) := by
  refine ⟨fun _ => Nat.le_refl _, fun _ _ _ h => h, fun T l hl => ?_⟩
  by_cases hT : T = b.term c
  · subst hT
    simp [elect, h l hl]
  · simpa [elect, Function.update_of_ne hT] using hl

/-- The lead taken now, or one taken before. -/
theorem elect_leader {b : Ballot N} {c l : N} {T : Nat} (h : (b.elect c).leader T = some l) :
    (T = b.term c ∧ l = c) ∨ b.leader T = some l := by
  by_cases hT : T = b.term c
  · subst hT
    have hcl : c = l := by simpa [elect] using h
    exact Or.inl ⟨rfl, hcl.symm⟩
  · exact Or.inr (by simpa [elect, Function.update_of_ne hT] using h)

theorem Timely.elect {b : Ballot N} (h : b.Timely) (c : N) : (b.elect c).Timely := by
  refine ⟨h.voted_le, fun T l hl => ?_⟩
  rcases elect_leader hl with ⟨rfl, rfl⟩ | hl
  · exact Nat.le_refl _
  · exact h.leader_le T l hl

variable [DecidableEq N]

/-- Voter `n` moves on to term `T`. -/
def advance (b : Ballot N) (n : N) (T : Nat) : Ballot N :=
  { b with term := Function.update b.term n T }

/-- Voter `n` votes for `c` in its current term. -/
def cast (b : Ballot N) (n c : N) : Ballot N :=
  { b with vote := set2 b.vote n (b.term n) (some c) }

/-- What a voter or a candidate may do. -/
inductive Step (Q : Quorums N) : Ballot N → Ballot N → Prop
  | advance (b : Ballot N) (n : N) (T : Nat) (h : b.term n < T) :
      Step Q b (b.advance n T)
  | cast (b : Ballot N) (n c : N) (h : b.vote n (b.term n) = none) :
      Step Q b (b.cast n c)
  | elect (b : Ballot N) (c : N) (A : Finset N) (hA : Q.IsQuorum A)
      (hv : ∀ n ∈ A, b.vote n (b.term c) = some c) :
      Step Q b (b.elect c)

@[simp] theorem advance_term_self (b : Ballot N) (n : N) (T : Nat) :
    (b.advance n T).term n = T := by
  simp [advance]

theorem extends_advance (b : Ballot N) {n : N} {T : Nat} (h : b.term n < T) :
    b.Extends (b.advance n T) := by
  refine ⟨fun m => ?_, fun _ _ _ h => h, fun _ _ h => h⟩
  by_cases hm : m = n
  · subst hm
    rw [advance_term_self]
    exact Nat.le_of_lt h
  · simp [advance, Function.update_of_ne hm]

theorem extends_cast (b : Ballot N) {n : N} (c : N) (h : b.vote n (b.term n) = none) :
    b.Extends (b.cast n c) := by
  refine ⟨fun _ => Nat.le_refl _, fun m T v hv => ?_, fun _ _ h => h⟩
  have hne : ¬ (m = n ∧ T = b.term n) := by
    rintro ⟨rfl, rfl⟩
    rw [h] at hv
    exact nomatch hv
  exact (set2_of_ne _ _ hne).trans hv

theorem Step.extends {Q : Quorums N} {b b' : Ballot N} (hs : b.Sound Q) (h : Step Q b b') :
    b.Extends b' := by
  cases h with
  | advance n T hlt => exact extends_advance b hlt
  | cast n c hnone => exact extends_cast b c hnone
  | elect c A hA hv => exact extends_elect b fun l hl => hs.leader_unique hl hA hv

/-- A vote cast now, or one cast before. -/
theorem cast_vote {b : Ballot N} {n m c v : N} {T : Nat} (h : (b.cast n c).vote m T = some v) :
    (m = n ∧ T = b.term n) ∨ b.vote m T = some v := by
  by_cases hne : m = n ∧ T = b.term n
  · exact Or.inl hne
  · exact Or.inr ((set2_of_ne _ _ hne).symm.trans h)

theorem Timely.advance {b : Ballot N} (h : b.Timely) {n : N} {T : Nat} (hlt : b.term n < T) :
    (b.advance n T).Timely :=
  ⟨fun m T' c hv => Nat.le_trans (h.voted_le m T' c hv) ((extends_advance b hlt).term_le m),
    fun T' c hl => Nat.le_trans (h.leader_le T' c hl) ((extends_advance b hlt).term_le c)⟩

theorem Timely.cast {b : Ballot N} (h : b.Timely) (n c : N) : (b.cast n c).Timely := by
  refine ⟨fun m T v hv => ?_, h.leader_le⟩
  rcases cast_vote hv with ⟨rfl, rfl⟩ | hv
  · exact Nat.le_refl _
  · exact h.voted_le m T v hv

theorem Step.sound {Q : Quorums N} {b b' : Ballot N} (hs : b.Sound Q) (h : Step Q b b') :
    b'.Sound Q := by
  have hext := h.extends hs
  cases h with
  | advance n T hlt =>
    have ht := hs.timely.advance hlt
    exact ⟨ht.voted_le, ht.leader_le, hs.elected⟩
  | cast n c hnone =>
    have ht := hs.timely.cast n c
    refine ⟨ht.voted_le, ht.leader_le, fun T l hl => ?_⟩
    obtain ⟨A, hA, hv⟩ := hs.elected T l hl
    exact ⟨A, hA, fun m hm => hext.vote_keep m T l (hv m hm)⟩
  | elect c A hA hv =>
    have ht := hs.timely.elect c
    refine ⟨ht.voted_le, ht.leader_le, fun T l hl => ?_⟩
    rcases elect_leader hl with ⟨rfl, rfl⟩ | hl
    · exact ⟨A, hA, hv⟩
    · exact hs.elected T l hl

end Ballot
