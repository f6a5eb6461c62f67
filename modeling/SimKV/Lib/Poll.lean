/-
# Ballots in which every candidate asks its own electorate

In a `Ballot` there is one family of quorums for everybody.  Where the voters have
different ideas of who is a voter, each candidate asks the electorate it knows and
leads with a majority of that.  A `Poll` also remembers whom each candidate asked.

If the electorates of any two candidates of a term overlap (`Overlap`), there is at
most one leader in the term (`Poll.Sound.leader_unique`), however the electorates of
different terms compare.
-/
import SimKV.Lib.Ballot

/-! ## Polls -/

/-- A ballot, and whom each candidate asks in each term. -/
structure Poll (N : Type) extends Ballot N where
  electorate : Nat → N → Option (Finset N)

namespace Poll

variable {N : Type}

def init : Poll N := { (Ballot.init : Ballot N) with electorate := fun _ _ => none }

/-- `p'` continues the history of `p`. -/
structure Extends (p p' : Poll N) : Prop extends Ballot.Extends p.toBallot p'.toBallot where
  electorate_keep : ∀ T c e, p.electorate T c = some e → p'.electorate T c = some e

theorem Extends.refl (p : Poll N) : p.Extends p := ⟨Ballot.Extends.refl _, fun _ _ _ h => h⟩

theorem Extends.trans {p q r : Poll N} (h : p.Extends q) (h' : q.Extends r) : p.Extends r :=
  ⟨h.toExtends.trans h'.toExtends, fun T c e he =>
    h'.electorate_keep T c e (h.electorate_keep T c e he)⟩

variable [DecidableEq N]

/-- Votes, leads and candidacies belong to terms already reached, every leader was voted for by a
majority of its electorate, and electorates of one term overlap. -/
structure Sound (p : Poll N) : Prop where
  timely : p.toBallot.Timely
  asked_le : ∀ T c e, p.electorate T c = some e → T ≤ p.term c
  elected : ∀ T c, p.leader T = some c →
    ∃ e A, p.electorate T c = some e ∧ Majority e A ∧ ∀ n ∈ A, p.vote n T = some c
  overlap : ∀ T c c' e e', c ≠ c' → p.electorate T c = some e → p.electorate T c' = some e' →
    Overlap e e'

theorem init_sound : (init : Poll N).Sound where
  timely := ⟨fun _ _ _ h => (nomatch h), fun _ _ h => nomatch h⟩
  asked_le _ _ _ h := nomatch h
  elected _ _ h := nomatch h
  overlap _ _ _ _ _ _ h := nomatch h

/-- **At most one leader per term**: a candidate with a majority of its electorate in a term that
already has a leader is that leader. -/
theorem Sound.leader_unique {p : Poll N} (h : p.Sound) {T : Nat} {c c' : N} {e A : Finset N}
    (hl : p.leader T = some c) (he : p.electorate T c' = some e) (hA : Majority e A)
    (hv : ∀ n ∈ A, p.vote n T = some c') : c' = c := by
  by_contra hne
  obtain ⟨e', B, he', hB, hvB⟩ := h.elected T c hl
  obtain ⟨n, hnA, hnB⟩ := (h.overlap T c' c e e' hne he he').meet hA hB
  have h1 := hv n hnA
  rw [hvB n hnB] at h1
  exact hne (Option.some.inj h1).symm

/-! ## Steps -/

/-- Candidate `c` enters term `T`, votes for itself and asks `e`. -/
def stand (p : Poll N) (c : N) (T : Nat) (e : Finset N) : Poll N where
  toBallot := (p.advance c T).cast c c
  electorate := set2 p.electorate T c (some e)

/-- What a voter or a candidate may do. -/
inductive Step : Poll N → Poll N → Prop
  | advance (p : Poll N) (n : N) (T : Nat) (h : p.term n < T) :
      Step p { p with toBallot := p.toBallot.advance n T }
  | cast (p : Poll N) (n c : N) (h : p.vote n (p.term n) = none) :
      Step p { p with toBallot := p.toBallot.cast n c }
  | stand (p : Poll N) (c : N) (T : Nat) (e : Finset N) (h : p.term c < T)
      (ho : ∀ c' e', c ≠ c' → p.electorate T c' = some e' → Overlap e e') :
      Step p (p.stand c T e)
  | elect (p : Poll N) (c : N) (e A : Finset N) (he : p.electorate (p.term c) c = some e)
      (hA : Majority e A) (hv : ∀ n ∈ A, p.vote n (p.term c) = some c) :
      Step p { p with toBallot := p.toBallot.elect c }

theorem Step.extends {p p' : Poll N} (hs : p.Sound) (h : Step p p') : p.Extends p' := by
  cases h with
  | advance n T hlt => exact ⟨Ballot.extends_advance _ hlt, fun _ _ _ h => h⟩
  | cast n c hnone => exact ⟨Ballot.extends_cast _ c hnone, fun _ _ _ h => h⟩
  | stand c T e hlt ho =>
    have hnone : (p.toBallot.advance c T).vote c ((p.toBallot.advance c T).term c) = none := by
      rw [Ballot.advance_term_self]
      exact hs.timely.unvoted hlt
    refine ⟨(Ballot.extends_advance _ hlt).trans (Ballot.extends_cast _ c hnone),
      fun T' c' e' he' => ?_⟩
    have hne : ¬ (T' = T ∧ c' = c) := by
      rintro ⟨rfl, rfl⟩
      have := hs.asked_le _ _ _ he'
      omega
    exact (set2_of_ne _ _ hne).trans he'
  | elect c e A he hA hv =>
    exact ⟨Ballot.extends_elect _ fun l hl => (hs.leader_unique hl he hA hv),
      fun _ _ _ h => h⟩

theorem Step.sound {p p' : Poll N} (hs : p.Sound) (h : Step p p') : p'.Sound := by
  have hext := h.extends hs
  -- what was elected stays elected
  have hkeep : ∀ T l, p.leader T = some l →
      ∃ e A, p'.electorate T l = some e ∧ Majority e A ∧ ∀ n ∈ A, p'.vote n T = some l := by
    intro T l hl
    obtain ⟨e, A, he, hA, hv⟩ := hs.elected T l hl
    exact ⟨e, A, hext.electorate_keep T l e he, hA, fun n hn => hext.vote_keep n T l (hv n hn)⟩
  cases h with
  | advance n T hlt =>
    exact ⟨hs.timely.advance hlt, fun T' c e he =>
      Nat.le_trans (hs.asked_le T' c e he) (hext.term_le c), hkeep, hs.overlap⟩
  | cast n c hnone => exact ⟨hs.timely.cast n c, hs.asked_le, hkeep, hs.overlap⟩
  | stand c T e hlt ho =>
    have hasked : ∀ T' c' e', (p.stand c T e).electorate T' c' = some e' →
        (T' = T ∧ c' = c ∧ e' = e) ∨ p.electorate T' c' = some e' := by
      intro T' c' e' he'
      by_cases hne : T' = T ∧ c' = c
      · obtain ⟨rfl, rfl⟩ := hne
        exact Or.inl ⟨rfl, rfl, (Option.some.inj ((set2_self _ _ _ _).symm.trans he')).symm⟩
      · exact Or.inr ((set2_of_ne _ _ hne).symm.trans he')
    refine ⟨(hs.timely.advance hlt).cast c c, fun T' c' e' he' => ?_, hkeep,
      fun T' c₁ c₂ e₁ e₂ hne h₁ h₂ => ?_⟩
    · rcases hasked T' c' e' he' with ⟨rfl, rfl, -⟩ | he'
      · exact Nat.le_of_eq (Ballot.advance_term_self _ _ _).symm
      · exact Nat.le_trans (hs.asked_le T' c' e' he') (hext.term_le c')
    · rcases hasked T' c₁ e₁ h₁ with ⟨rfl, rfl, rfl⟩ | hold₁
      · rcases hasked _ c₂ e₂ h₂ with ⟨-, rfl, -⟩ | hold₂
        · exact absurd rfl hne
        · exact ho c₂ e₂ hne hold₂
      · rcases hasked T' c₂ e₂ h₂ with ⟨rfl, rfl, rfl⟩ | hold₂
        · exact (ho c₁ e₁ hne.symm hold₁).symm
        · exact hs.overlap T' c₁ c₂ e₁ e₂ hne hold₁ hold₂
  | elect c e A he hA hv =>
    refine ⟨hs.timely.elect c, hs.asked_le, fun T l hl => ?_, hs.overlap⟩
    rcases Ballot.elect_leader hl with ⟨rfl, rfl⟩ | hl
    · exact ⟨e, A, he, hA, hv⟩
    · exact hkeep T l hl

end Poll
