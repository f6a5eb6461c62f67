/-
# Operations of unknown outcome

A client that gave up waiting, or was told of a crash, does not know whether its
operation took effect; a correct store may have let it take effect at any time after
it was invoked (`Explained`).  `check_key_linearizable` allows for less
(`ExplainedByPuts`).  A timed-out operation is never allowed to have taken effect, nor
a crashed Cas, and a crashed Put only before its client was told of the crash; so there
are histories of a correct store that the checker rejects (`timed_out_put_alarms`).

What is left out does no harm as long as nobody saw it.  `Harmless` says when this can be
told from the record: no definite answer may have come from a write that the checker
leaves out, and a crashed Put that may have been seen had been seen by then whenever an
operation was invoked after the crash was reported.  Such a history raises no false
alarm.  One in which a definite answer can only have come from a write left out, or in
which a crashed Put was seen only after a definite answer that had come too late for
it, is rejected.
-/
import SimKV.Checker.Exact

namespace SimKV

open Schedule

/-! ## What an answer says -/

theorem step_eq_some {op : KeyOp} {s s' : KvState} : op.step s = some s' ↔
    op.kind = .put ∧ op.ok = true ∧ s' = some op.value ∨
    op.kind = .get ∧ op.response = s.getD (Str.lit "") ∧ s' = s ∨
    op.kind = .cas ∧ op.ok = true ∧ op.expected = s.getD (Str.lit "") ∧ s' = some op.value ∨
    op.kind = .cas ∧ op.ok = false ∧ op.expected ≠ s.getD (Str.lit "") ∧ s' = s := by
  unfold KeyOp.step responseMatches applyModel
  cases hk : op.kind with
  | put => simp [eq_comm (b := s')]
  | get => simp [eq_comm (b := s')]
  | cas =>
    by_cases hx : s.getD (Str.lit "") = op.expected
    · cases hok : op.ok <;> simp [hx, eq_comm (b := s')]
    · cases hok : op.ok <;>
        simp [hx, Ne.symm hx, beq_eq_false_iff_ne.mpr casMismatch_ne_ok, eq_comm (b := s')]

/-- The value that the key had, according to the answer. -/
def KeyOp.seen (op : KeyOp) : Option Str :=
  match op.kind with
  | .put => none
  | .get => some op.response
  | .cas => if op.ok then some op.expected else none

theorem seen_eq {op : KeyOp} {s s' : KvState} {v : Str} (h : op.step s = some s')
    (hv : op.seen = some v) : s.getD (Str.lit "") = v := by
  unfold KeyOp.seen at hv
  rcases step_eq_some.mp h with ⟨hk, -⟩ | ⟨hk, hr, -⟩ | ⟨hk, hok, hx, -⟩ | ⟨hk, hok, -⟩
  · simp [hk] at hv
  · simpa [hk, hr] using hv
  · simpa [hk, hok, hx] using hv
  · simp [hk, hok] at hv

/-- The answer says that the operation wrote its value. -/
def KeyOp.wrote (op : KeyOp) : Bool := op.kind == .put || op.kind == .cas && op.ok

/-- The values that the key can have had, according to these answers. -/
def keyValues (ops : List KeyOp) : List Str :=
  Str.lit "" :: (ops.filter KeyOp.wrote).map KeyOp.value

theorem mem_keyValues {ops : List KeyOp} {op : KeyOp} (hop : op ∈ ops) (hw : op.wrote = true) :
    op.value ∈ keyValues ops :=
  List.mem_cons_of_mem _ (List.mem_map_of_mem (List.mem_filter.mpr ⟨hop, hw⟩))

/-- No order of the operations explains this answer: a Put that failed, or a value that none of
them wrote. -/
def KeyOp.Refused (ops : List KeyOp) (op : KeyOp) : Prop :=
  op.kind = .put ∧ op.ok = false ∨ ∃ v ∈ op.seen, v ∉ keyValues ops

instance (ops : List KeyOp) (op : KeyOp) : Decidable (op.Refused ops) :=
  inferInstanceAs (Decidable (_ ∨ _))

theorem mem_keyValues_of_step {ops : List KeyOp} {op : KeyOp} (hop : op ∈ ops) {s s' : KvState}
    (hs : s.getD (Str.lit "") ∈ keyValues ops) (h : op.step s = some s') :
    s'.getD (Str.lit "") ∈ keyValues ops := by
  rcases step_eq_some.mp h with ⟨hk, -, rfl⟩ | ⟨-, -, rfl⟩ | ⟨hk, hok, -, rfl⟩ | ⟨-, -, -, rfl⟩
  · exact mem_keyValues hop (by simp [KeyOp.wrote, hk])
  · exact hs
  · exact mem_keyValues hop (by simp [KeyOp.wrote, hk, hok])
  · exact hs

theorem not_refused_of_step {ops : List KeyOp} {op : KeyOp} {s s' : KvState}
    (hs : s.getD (Str.lit "") ∈ keyValues ops) (h : op.step s = some s') : ¬ op.Refused ops := by
  rintro (⟨hk, hok⟩ | ⟨v, hv, hnot⟩)
  · rcases step_eq_some.mp h with ⟨-, h, -⟩ | ⟨h, -⟩ | ⟨h, -⟩ | ⟨h, -⟩
    · rw [hok] at h
      exact absurd h (by decide)
    all_goals
      rw [hk] at h
      exact absurd h (by decide)
  · exact hnot (seen_eq h hv ▸ hs)

/-- An answer that no order explains leaves the operations without a schedule. -/
theorem not_schedulable_of_refused {before : KeyOp → KeyOp → Prop} {ops : List KeyOp} {op : KeyOp}
    (hop : op ∈ ops) (h : op.Refused ops) : ¬ Schedulable before KeyOp.step none ops := by
  rintro ⟨l, hl, -, hacc⟩
  obtain ⟨s₁, s₂, hs, hstep⟩ := hacc.exists_step
    (I := fun s => s.getD (Str.lit "") ∈ keyValues ops)
    (fun a ha _ _ hs hstep => mem_keyValues_of_step (hl.subset ha) hs hstep)
    List.mem_cons_self (hl.symm.subset hop)
  exact not_refused_of_step hs hstep h

/-! ## Explanations -/

/-- The client cannot tell whether the operation took effect. -/
def KeyOp.unknown (op : KeyOp) : Bool :=
  !op.pending && (op.response == Str.lit "timeout" || op.response == Str.lit "node_crashed")

/-- The key as an object that checks the definite answers only. -/
def KeyOp.replay (state : KvState) (op : KeyOp) : Option KvState :=
  if op.certain then op.step state else some (applyModel state op).1

/-- The history is that of a correct store: some of the operations of unknown outcome took effect,
each at some point after it was invoked, and the definite answers are explained. -/
def Explained (ops : List KeyOp) : Prop :=
  ∃ S : List KeyOp, S.Sublist (ops.filter KeyOp.unknown) ∧
    Schedulable (fun a b => a.certain = true ∧ a.ret < b.invoke) KeyOp.replay none
      (ops.filter KeyOp.certain ++ S)

/-- The history is explained by crashed Puts alone, each of which took effect before any operation
that was invoked after the crash had been reported; of more than fifteen of them, by none, all or
one of the first fifteen. -/
def ExplainedByPuts (ops : List KeyOp) : Prop :=
  ∃ S : List KeyOp, S.Sublist (ops.filter KeyOp.uncertainPut) ∧
    Tried (ops.filter KeyOp.uncertainPut) S ∧
    Schedulable (fun a b => 0 < a.ret ∧ a.ret < b.invoke) KeyOp.replay none
      (ops.filter KeyOp.certain ++ S)

/-- The operation as `check_key_linearizable` passes it to the search. -/
def KeyOp.asTried (op : KeyOp) : KeyOp := if op.certain then op else op.committed

theorem asTried_eq {op : KeyOp} (h : op.uncertainPut = true) : op.asTried = op.committed := by
  unfold KeyOp.asTried
  rw [uncertainPut_not_certain h, if_neg (by decide)]

/-- Declaring a crashed Put successful makes the search accept it wherever it is put. -/
theorem step_asTried {op : KeyOp} (h : op.certain = true ∨ op.uncertainPut = true) (s : KvState) :
    KeyOp.step s op.asTried = KeyOp.replay s op := by
  rcases h with h | h
  · unfold KeyOp.asTried KeyOp.replay
    rw [if_pos h, if_pos h]
  · have hk : op.kind = .put := by
      simp only [KeyOp.uncertainPut, Bool.and_eq_true, beq_iff_eq] at h
      exact h.2
    rw [asTried_eq h]
    unfold KeyOp.replay KeyOp.step
    rw [uncertainPut_not_certain h]
    simp [applyModel, responseMatches, KeyOp.committed, hk]

/-- The verdict, said without the search. -/
theorem checkKeyLinearizable_iff_explainedByPuts (ops : List KeyOp) :
    checkKeyLinearizable ops = true ↔ ExplainedByPuts ops := by
  rw [checkKeyLinearizable_iff]
  refine exists_congr fun S => and_congr_right fun hS => and_congr_right fun _ => ?_
  have hmem : ∀ op ∈ ops.filter KeyOp.certain ++ S,
      op.certain = true ∨ op.uncertainPut = true := by
    intro op hop
    rcases List.mem_append.mp hop with h | h
    · exact Or.inl (List.mem_filter.mp h).2
    · exact Or.inr (List.mem_filter.mp (hS.subset h)).2
  have hmap : ops.filter KeyOp.certain ++ S.map KeyOp.committed =
      (ops.filter KeyOp.certain ++ S).map KeyOp.asTried := by
    rw [List.map_append]
    congr 1
    · refine (List.map_id' _).symm.trans (List.map_congr_left fun op hop => ?_)
      exact (if_pos (List.mem_filter.mp hop).2).symm
    · exact List.map_congr_left fun op hop =>
        (asTried_eq (List.mem_filter.mp (hS.subset hop)).2).symm
  have hbefore : ∀ a b : KeyOp,
      KeyOp.before a.asTried b.asTried ↔ 0 < a.ret ∧ a.ret < b.invoke := by
    intro a b
    unfold KeyOp.before KeyOp.asTried KeyOp.committed
    split <;> split <;> rfl
  rw [hmap, schedulable_map]
  constructor
  · intro h
    exact (h.congr_step fun op hop s => step_asTried (hmem op hop) s).mono
      fun a _ b _ hab => (hbefore a b).mpr hab
  · intro h
    exact (h.congr_step fun op hop s => (step_asTried (hmem op hop) s).symm).mono
      fun a _ b _ hab => (hbefore a b).mp hab

/-- The operations that the checker looks at. -/
def KeyOp.looked (op : KeyOp) : Bool := op.certain || op.uncertainPut

/-! ## Writes that nobody saw -/

/-- The operation may have written its value. -/
def KeyOp.mayWrite (op : KeyOp) : Bool := op.wrote || op.kind == .cas && !op.certain

/-- A write of unknown outcome that the checker leaves out. -/
def KeyOp.lost (op : KeyOp) : Bool := op.unknown && !op.uncertainPut && op.kind != .get

/-- The definite answer to `x` may have come from the write `w`: it says that the key had that
value, or it is that of a Cas that failed, and it expected a value the key may otherwise have
had. -/
def MaySee (ops : List KeyOp) (x w : KeyOp) : Prop :=
  x.certain = true ∧ ¬ x.ret < w.invoke ∧
    (x.seen = some w.value ∨ x.kind = .cas ∧ x.ok = false ∧ x.expected ≠ w.value ∧
      x.expected ∈ keyValues (ops.filter KeyOp.looked))

instance (ops : List KeyOp) (x w : KeyOp) : Decidable (MaySee ops x w) :=
  inferInstanceAs (Decidable (_ ∧ _))

def Observed (ops : List KeyOp) (w : KeyOp) : Prop := ∃ x ∈ ops, MaySee ops x w

instance (ops : List KeyOp) (w : KeyOp) : Decidable (Observed ops w) :=
  inferInstanceAs (Decidable (∃ x ∈ ops, MaySee ops x w))

/-- The value of `p` is on the record once, and not the one that absent keys read as. -/
def OnlyWriter (ops : List KeyOp) (p : KeyOp) : Prop :=
  p.value ≠ Str.lit "" ∧ ops.filter (fun op => op.mayWrite && op.value == p.value) = [p]

instance (ops : List KeyOp) (p : KeyOp) : Decidable (OnlyWriter ops p) :=
  inferInstanceAs (Decidable (_ ∧ _))

/-- Whenever an operation was invoked after the crash of `p` was reported, the value of `p` had
been seen, or that operation saw it. -/
def SeenEarly (ops : List KeyOp) (p : KeyOp) : Prop :=
  ∀ b ∈ ops, b.looked = true → p.ret < b.invoke → OnlyWriter ops p ∧
    ∃ x ∈ ops, x.certain = true ∧ x.seen = some p.value ∧ (x = b ∨ x.ret < b.invoke)

instance (ops : List KeyOp) (p : KeyOp) : Decidable (SeenEarly ops p) :=
  inferInstanceAs (Decidable (∀ b ∈ ops, _))

/-- The record shows that what the checker leaves out makes no difference. -/
structure Harmless (ops : List KeyOp) : Prop where
  lost : ∀ w ∈ ops, w.lost = true → ¬ Observed ops w
  puts : ∀ p ∈ ops, p.uncertainPut = true → Observed ops p → SeenEarly ops p
  cap : (ops.filter KeyOp.uncertainPut).length ≤ subsetCap ∨
    ∀ p ∈ ops, p.uncertainPut = true → ¬ Observed ops p

instance (ops : List KeyOp) : Decidable (Harmless ops) :=
  decidable_of_iff (_ ∧ _ ∧ _) ⟨fun h => ⟨h.1, h.2.1, h.2.2⟩, fun h => ⟨h.lost, h.puts, h.cap⟩⟩

theorem uncertainPut_kind {op : KeyOp} (h : op.uncertainPut = true) : op.kind = .put := by
  simp only [KeyOp.uncertainPut, Bool.and_eq_true, beq_iff_eq] at h
  exact h.2

/-- Of the answered operations, only a write changes the key. -/
theorem replay_cases {op : KeyOp} {s s' : KvState} (h : op.replay s = some s') :
    s' = s ∨ op.mayWrite = true ∧ s' = some op.value := by
  unfold KeyOp.replay at h
  split at h
  · rcases step_eq_some.mp h with ⟨hk, -, rfl⟩ | ⟨-, -, rfl⟩ | ⟨hk, hok, -, rfl⟩ | ⟨-, -, -, rfl⟩
    · exact Or.inr ⟨by simp [KeyOp.mayWrite, KeyOp.wrote, hk], rfl⟩
    · exact Or.inl rfl
    · exact Or.inr ⟨by simp [KeyOp.mayWrite, KeyOp.wrote, hk, hok], rfl⟩
    · exact Or.inl rfl
  · rename_i hc
    rw [Option.some.injEq] at h
    subst h
    unfold applyModel
    cases hk : op.kind with
    | put => exact Or.inr ⟨by simp [KeyOp.mayWrite, KeyOp.wrote, hk], rfl⟩
    | get => exact Or.inl rfl
    | cas =>
      by_cases hx : s.getD (Str.lit "") = op.expected
      · exact Or.inr ⟨by simp [KeyOp.mayWrite, hk, hc], by simp [hx]⟩
      · exact Or.inl (by simp [hx])

/-- A value that was seen was there from the start, or was written before. -/
theorem exists_writer {x : KeyOp} {v : Str} (hx : x.certain = true) (hv : x.seen = some v)
    {l l' : List KeyOp} {s : KvState} (h : Accepts KeyOp.replay s (l ++ x :: l')) :
    s.getD (Str.lit "") = v ∨ ∃ y ∈ l, y.mayWrite = true ∧ y.value = v := by
  induction l generalizing s with
  | nil =>
    obtain ⟨s', hs, -⟩ := h
    rw [KeyOp.replay, if_pos hx] at hs
    exact Or.inl (seen_eq hs hv)
  | cons y l ih =>
    obtain ⟨s', hs, hacc⟩ := h
    rcases ih hacc with hval | ⟨z, hz, hwz⟩
    · rcases replay_cases hs with rfl | ⟨hw, rfl⟩
      · exact Or.inl hval
      · exact Or.inr ⟨y, List.mem_cons_self, hw, hval⟩
    · exact Or.inr ⟨z, List.mem_cons_of_mem _ hz, hwz⟩

/-- The order that an explanation follows. -/
abbrev AfterDefinite (a b : KeyOp) : Prop := a.certain = true ∧ a.ret < b.invoke

/-- The operations that are left when the writes that nobody saw are dropped. -/
def KeyOp.kept (ops : List KeyOp) (op : KeyOp) : Bool :=
  op.certain || op.uncertainPut && decide (Observed ops op)

/-- The key with (`s`) and without (`t`) the writes that nobody saw: where they differ, `s` has the
value of one of those. -/
structure Unseen (ops rest : List KeyOp) (s t : KvState) : Prop where
  mem : ∀ x ∈ rest, x ∈ ops ∧ (x.certain = true ∨ x.unknown = true)
  order : InOrder AfterDefinite rest
  value : t.getD (Str.lit "") ∈ keyValues (ops.filter KeyOp.looked)
  state : s = t ∨ ∃ w, ¬ Observed ops w ∧ s = some w.value ∧
    ∀ x ∈ rest, x.certain = true → ¬ x.ret < w.invoke

namespace Unseen

variable {ops rest : List KeyOp} {a : KeyOp} {s s' t t' : KvState}

/-- The next state, if the two are the same or as different as before. -/
theorem next (h : Unseen ops (a :: rest) s t)
    (hv : t'.getD (Str.lit "") ∈ keyValues (ops.filter KeyOp.looked))
    (hst : s' = t' ∨ s' = s ∧ t' = t) : Unseen ops rest s' t' where
  mem x hx := h.mem x (List.mem_cons_of_mem _ hx)
  order := (List.pairwise_cons.mp h.order).2
  value := hv
  state := by
    rcases hst with heq | ⟨rfl, rfl⟩
    · exact Or.inl heq
    · refine h.state.imp_right fun ⟨w, hw, hs, hlate⟩ => ⟨w, hw, hs, fun x hx => ?_⟩
      exact hlate x (List.mem_cons_of_mem _ hx)

/-- A definite answer is right without the writes that nobody saw. -/
theorem certain (h : Unseen ops (a :: rest) s t) (hc : a.certain = true)
    (hs : a.step s = some s') : ∃ t', a.step t = some t' ∧ Unseen ops rest s' t' := by
  have hlooked : a ∈ ops.filter KeyOp.looked :=
    List.mem_filter.mpr ⟨(h.mem a List.mem_cons_self).1, by simp [KeyOp.looked, hc]⟩
  have hunseen : ∀ w, ¬ Observed ops w → (∀ x ∈ a :: rest, x.certain = true → ¬ x.ret < w.invoke) →
      ¬ (a.seen = some w.value ∨ a.kind = .cas ∧ a.ok = false ∧ a.expected ≠ w.value ∧
        a.expected ∈ keyValues (ops.filter KeyOp.looked)) := fun w hw hlate hsee =>
    hw ⟨a, (h.mem a List.mem_cons_self).1, hc, hlate a List.mem_cons_self hc, hsee⟩
  have hseen : ∀ v, a.seen = some v → v = s.getD (Str.lit "") → v = t.getD (Str.lit "") := by
    intro v hv hval
    rcases h.state with rfl | ⟨w, hw, rfl, hlate⟩
    · exact hval
    · exact absurd (Or.inl (hv.trans (congrArg some hval))) (hunseen w hw hlate)
  have hmiss : a.kind = .cas → a.ok = false → a.expected ≠ s.getD (Str.lit "") →
      a.expected ≠ t.getD (Str.lit "") := by
    intro hk hok hne heq
    rcases h.state with rfl | ⟨w, hw, rfl, hlate⟩
    · exact hne heq
    · exact hunseen w hw hlate (Or.inr ⟨hk, hok, hne, heq ▸ h.value⟩)
  -- both keys move in the same way
  obtain ⟨t', ht, hst⟩ : ∃ t', a.step t = some t' ∧ (s' = t' ∨ s' = s ∧ t' = t) := by
    rcases step_eq_some.mp hs with ⟨hk, hok, rfl⟩ | ⟨hk, hr, rfl⟩ | ⟨hk, hok, hx, rfl⟩ |
      ⟨hk, hok, hx, rfl⟩
    · exact ⟨_, step_eq_some.mpr (Or.inl ⟨hk, hok, rfl⟩), Or.inl rfl⟩
    · have hr' := hseen _ (by rw [KeyOp.seen, hk]) hr
      exact ⟨t, step_eq_some.mpr (Or.inr (Or.inl ⟨hk, hr', rfl⟩)), Or.inr ⟨rfl, rfl⟩⟩
    · have hx' := hseen _ (by rw [KeyOp.seen, hk]; exact if_pos hok) hx
      exact ⟨_, step_eq_some.mpr (Or.inr (Or.inr (Or.inl ⟨hk, hok, hx', rfl⟩))), Or.inl rfl⟩
    · exact ⟨t, step_eq_some.mpr (Or.inr (Or.inr (Or.inr ⟨hk, hok, hmiss hk hok hx, rfl⟩))),
        Or.inr ⟨rfl, rfl⟩⟩
  exact ⟨t', ht, h.next (mem_keyValues_of_step hlooked h.value ht) hst⟩

/-- A crashed Put overwrites both. -/
theorem put (h : Unseen ops (a :: rest) s t) (hp : a.uncertainPut = true)
    (hs : a.replay s = some s') : ∃ t', a.replay t = some t' ∧ Unseen ops rest s' t' := by
  have hlooked : a ∈ ops.filter KeyOp.looked :=
    List.mem_filter.mpr ⟨(h.mem a List.mem_cons_self).1, by simp [KeyOp.looked, hp]⟩
  have hk := uncertainPut_kind hp
  have hval : ∀ u : KvState, a.replay u = some (some a.value) := by
    intro u
    rw [KeyOp.replay, uncertainPut_not_certain hp, applyModel, hk]
    rfl
  rw [hval s, Option.some.injEq] at hs
  exact ⟨some a.value, hval t,
    h.next (mem_keyValues hlooked (by simp [KeyOp.wrote, hk])) (Or.inl hs.symm)⟩

/-- A write that nobody saw is dropped. -/
theorem drop (h : Unseen ops (a :: rest) s t) (hw : a.mayWrite = true → ¬ Observed ops a)
    (hs : a.replay s = some s') : Unseen ops rest s' t := by
  rcases replay_cases hs with rfl | ⟨hm, rfl⟩
  · exact h.next h.value (Or.inr ⟨rfl, rfl⟩)
  · refine ⟨(h.next h.value (Or.inr ⟨rfl, rfl⟩)).mem, (List.pairwise_cons.mp h.order).2, h.value,
      Or.inr ⟨a, hw hm, rfl, fun x hx hc hlt => ?_⟩⟩
    exact (List.pairwise_cons.mp h.order).1 x hx ⟨hc, hlt⟩

end Unseen

section Harmless

variable {ops l : List KeyOp}

theorem looked_of_kept {op : KeyOp} (h : op.kept ops = true) : op.looked = true := by
  simp only [KeyOp.kept, Bool.or_eq_true, Bool.and_eq_true] at h
  simp only [KeyOp.looked, Bool.or_eq_true]
  exact h.imp_right And.left

theorem unknown_not_certain {op : KeyOp} (h : op.unknown = true) : op.certain = false := by
  simp only [KeyOp.unknown, Bool.and_eq_true, Bool.or_eq_true] at h
  unfold KeyOp.certain
  rcases h.2 with hr | hr <;> simp [hr]

theorem Harmless.unobserved (hh : Harmless ops) {a : KeyOp} (ha : a ∈ ops)
    (hu : a.certain = true ∨ a.unknown = true) (hk : a.kept ops = false)
    (hw : a.mayWrite = true) : ¬ Observed ops a := by
  simp only [KeyOp.kept, Bool.or_eq_false_iff, Bool.and_eq_false_iff, decide_eq_false_iff_not] at hk
  rcases hk.2 with hput | hobs
  · refine hh.lost a ha ?_
    have hget : a.kind ≠ .get := by
      rintro hget
      simp [KeyOp.mayWrite, KeyOp.wrote, hget] at hw
    have hun : a.unknown = true := hu.resolve_left (by rw [hk.1]; decide)
    simp [KeyOp.lost, hun, hput, hget]
  · exact hobs

/-- Without the writes that nobody saw, all definite answers are still right. -/
theorem Harmless.accepts (hh : Harmless ops)
    (hmem : ∀ x ∈ l, x ∈ ops ∧ (x.certain = true ∨ x.unknown = true))
    (hord : InOrder AfterDefinite l) (hacc : Accepts KeyOp.replay none l) :
    Accepts KeyOp.replay none (l.filter (KeyOp.kept ops)) := by
  refine Accepts.filter (R := Unseen ops) ?_ ?_ ⟨hmem, hord, List.mem_cons_self, Or.inl rfl⟩ hacc
  · intro a rest s s' t h hk hs
    unfold KeyOp.kept at hk
    rcases Bool.or_eq_true _ _ ▸ hk with hc | hk
    · rw [KeyOp.replay, if_pos hc] at hs ⊢
      exact h.certain hc hs
    · exact h.put (Bool.and_eq_true _ _ ▸ hk).1 hs
  · intro a rest s s' t h hk hs
    obtain ⟨ha, hu⟩ := h.mem a List.mem_cons_self
    exact h.drop (hh.unobserved ha hu hk) hs

/-- A write whose value was seen before `a`, and was written once, stands before `a`. -/
theorem OnlyWriter.before {p a x : KeyOp} (hp : OnlyWriter ops p) (hcount : l.count p ≤ ops.count p)
    (hsub : l ⊆ ops) (hord : InOrder AfterDefinite l) (hacc : Accepts KeyOp.replay none l)
    (hx : x ∈ l) (hc : x.certain = true) (hv : x.seen = some p.value)
    (hxa : x = a ∨ x.ret < a.invoke) : ¬ [a, p].Sublist l := by
  intro hap
  obtain ⟨l₁, l₂, rfl, ha, hp₂⟩ := List.cons_sublist_iff.mp hap
  -- the reader stands in the first part
  have hx₁ : x ∈ l₁ := by
    rcases hxa with rfl | hlt
    · exact ha
    · refine (List.mem_append.mp hx).resolve_right fun hx₂ => ?_
      exact (List.pairwise_append.mp hord).2.2 a ha x hx₂ ⟨hc, hlt⟩
  obtain ⟨l₃, l₄, rfl⟩ := List.append_of_mem hx₁
  rw [List.append_assoc, List.cons_append] at hacc
  rcases exists_writer hc hv hacc with hval | ⟨y, hy, hw, hval⟩
  · exact hp.1 hval.symm
  · have hy₁ : y ∈ l₃ ++ x :: l₄ := List.mem_append_left _ hy
    have hyp : y ∈ [p] := by
      rw [← hp.2]
      exact List.mem_filter.mpr ⟨hsub (List.mem_append_left _ hy₁), by simp [hw, hval]⟩
    rw [List.mem_singleton.mp hyp] at hy₁
    have hone : ops.count p = 1 := by
      have hpp : (p.mayWrite && p.value == p.value) = true := by
        have : p ∈ ops.filter fun op => op.mayWrite && op.value == p.value := by
          rw [hp.2]
          exact List.mem_singleton_self p
        exact (List.mem_filter.mp this).2
      rw [← List.count_filter (p := fun op => op.mayWrite && op.value == p.value) hpp, hp.2,
        List.count_singleton_self]
    have h₁ := List.count_pos_iff.mpr hy₁
    have h₂ := List.count_pos_iff.mpr (List.singleton_sublist.mp hp₂)
    rw [List.count_append] at hcount
    omega

/-- Nobody invoked an operation after the report of a crash that comes before the crashed Put. -/
theorem Harmless.inOrder (hh : Harmless ops) (hsub : l ⊆ ops)
    (hcount : ∀ p, p.uncertainPut = true → l.count p ≤ ops.count p)
    (hall : ∀ x ∈ ops, x.certain = true → x ∈ l) (hord : InOrder AfterDefinite l)
    (hacc : Accepts KeyOp.replay none l) :
    InOrder (fun a b => 0 < a.ret ∧ a.ret < b.invoke) (l.filter (KeyOp.kept ops)) := by
  refine List.pairwise_iff_forall_sublist.mpr fun {a b} hab hba => ?_
  obtain ⟨-, hlt⟩ := hba
  have habl : [a, b].Sublist l := hab.trans List.filter_sublist
  have hka := (List.mem_filter.mp (hab.subset List.mem_cons_self)).2
  have hkb := (List.mem_filter.mp (hab.subset (List.mem_cons_of_mem _ List.mem_cons_self))).2
  unfold KeyOp.kept at hkb
  rcases Bool.or_eq_true _ _ ▸ hkb with hc | hkb
  · exact List.pairwise_iff_forall_sublist.mp hord habl ⟨hc, hlt⟩
  · obtain ⟨hp, hobs⟩ := Bool.and_eq_true _ _ ▸ hkb
    have ha : a ∈ ops := hsub (habl.subset List.mem_cons_self)
    have hb : b ∈ ops := hsub (habl.subset (List.mem_cons_of_mem _ List.mem_cons_self))
    obtain ⟨hone, x, hx, hc, hv, hxa⟩ :=
      hh.puts b hb hp (of_decide_eq_true hobs) a ha (looked_of_kept hka) hlt
    exact hone.before (hcount b hp) hsub hord hacc (hall x hx hc) hc hv hxa habl

/-- **What can be explained at all can be explained by crashed Puts**, where nobody can have seen
the rest. -/
theorem Harmless.explainedByPuts (hh : Harmless ops) (h : Explained ops) : ExplainedByPuts ops := by
  obtain ⟨S, hS, l, hl, hord, hacc⟩ := h
  have hmem : ∀ x ∈ l, x ∈ ops ∧ (x.certain = true ∨ x.unknown = true) := by
    intro x hx
    rcases List.mem_append.mp (hl.subset hx) with h | h
    · exact ⟨(List.mem_filter.mp h).1, Or.inl (List.mem_filter.mp h).2⟩
    · exact ⟨(List.mem_filter.mp (hS.subset h)).1, Or.inr (List.mem_filter.mp (hS.subset h)).2⟩
  have hall : ∀ x ∈ ops, x.certain = true → x ∈ l := fun x hx hc =>
    hl.symm.subset (List.mem_append_left _ (List.mem_filter.mpr ⟨hx, hc⟩))
  have hcount : ∀ p, p.uncertainPut = true → l.count p ≤ ops.count p := by
    intro p hp
    have hnot : p ∉ ops.filter KeyOp.certain := fun hp' => by
      have := (List.mem_filter.mp hp').2
      rw [uncertainPut_not_certain hp] at this
      exact absurd this (by decide)
    rw [hl.count_eq, List.count_append, List.count_eq_zero.mpr hnot, Nat.zero_add]
    exact (hS.trans List.filter_sublist).count_le p
  have hdef : (ops.filter KeyOp.certain).filter (KeyOp.kept ops) = ops.filter KeyOp.certain :=
    List.filter_eq_self.mpr fun x hx => by simp [KeyOp.kept, (List.mem_filter.mp hx).2]
  have hputs : (S.filter (KeyOp.kept ops)).Sublist (ops.filter KeyOp.uncertainPut) := by
    refine (hS.filter _).trans ?_
    rw [List.filter_filter]
    refine List.monotone_filter_right ops fun x hx => ?_
    simp only [KeyOp.kept, Bool.and_eq_true, Bool.or_eq_true] at hx
    refine (hx.1.resolve_left ?_).1
    rw [unknown_not_certain hx.2]
    decide
  refine ⟨S.filter (KeyOp.kept ops), hputs, ?_, l.filter (KeyOp.kept ops), ?_,
    hh.inOrder (fun x hx => (hmem x hx).1) hcount hall hord hacc, hh.accepts hmem hord hacc⟩
  · refine hh.cap.imp_right fun hno => Or.inl (List.filter_eq_nil_iff.mpr fun x hx hk => ?_)
    have hput := hputs.subset (List.mem_filter.mpr ⟨hx, hk⟩)
    have hp := (List.mem_filter.mp hput).2
    simp only [KeyOp.kept, uncertainPut_not_certain hp, hp, Bool.false_or, Bool.true_and,
      decide_eq_true_eq] at hk
    exact hno x (List.mem_filter.mp hput).1 hp hk
  · rw [← hdef, ← List.filter_append]
    exact hl.filter _

end Harmless

/-! ## Writes that were seen -/

/-- The value of the crashed Put `p` was seen, but before that a definite answer, to an operation
invoked after the crash had been reported, says that the key had another. -/
def SeenLate (ops : List KeyOp) (p : KeyOp) : Prop :=
  p.uncertainPut = true ∧ OnlyWriter ops p ∧ 0 < p.ret ∧
    ∃ b ∈ ops, b.certain = true ∧ p.ret < b.invoke ∧ 0 < b.ret ∧ (∃ v ∈ b.seen, v ≠ p.value) ∧
      ∃ x ∈ ops, x.certain = true ∧ b.ret < x.invoke ∧ x.seen = some p.value

/-- Every value that the search can come across was written by an operation it looks at. -/
theorem keyValues_tried {ops S : List KeyOp} (hS : S.Sublist (ops.filter KeyOp.uncertainPut)) :
    keyValues (ops.filter KeyOp.certain ++ S.map KeyOp.committed) ⊆
      keyValues (ops.filter KeyOp.looked) := by
  intro v hv
  rcases List.mem_cons.mp hv with rfl | hv
  · exact List.mem_cons_self
  · obtain ⟨y, hy, rfl⟩ := List.mem_map.mp hv
    obtain ⟨hy, hw⟩ := List.mem_filter.mp hy
    rcases List.mem_append.mp hy with hy | hy
    · obtain ⟨hy, hc⟩ := List.mem_filter.mp hy
      exact mem_keyValues (List.mem_filter.mpr ⟨hy, by simp [KeyOp.looked, hc]⟩) hw
    · obtain ⟨z, hz, rfl⟩ := List.mem_map.mp hy
      obtain ⟨hz, hp⟩ := List.mem_filter.mp (hS.subset hz)
      change z.value ∈ _
      exact mem_keyValues (List.mem_filter.mpr ⟨hz, by simp [KeyOp.looked, hp]⟩)
        (by simp [KeyOp.wrote, uncertainPut_kind hp])

/-- A definite answer that only a write left out can explain makes the checker fail. -/
theorem rejects_of_refused {ops : List KeyOp} {x : KeyOp} (hx : x ∈ ops) (hc : x.certain = true)
    (h : x.Refused (ops.filter KeyOp.looked)) : checkKeyLinearizable ops = false := by
  rw [Bool.eq_false_iff, ne_eq, checkKeyLinearizable_iff]
  rintro ⟨S, hS, -, hsch⟩
  refine not_schedulable_of_refused
    (List.mem_append_left _ (List.mem_filter.mpr ⟨hx, hc⟩)) (h.imp_right ?_) hsch
  rintro ⟨v, hv, hnot⟩
  exact ⟨v, hv, fun hmem => hnot (keyValues_tried hS hmem)⟩

/-- A crashed Put that was seen late makes the checker fail: it would have to stand before `b`,
and nothing brings its value back after that. -/
theorem rejects_of_seenLate {ops : List KeyOp} {p : KeyOp} (h : SeenLate ops p) :
    checkKeyLinearizable ops = false := by
  obtain ⟨hp, hone, hpret, b, hb, hbc, hpb, hbret, ⟨v, hv, hne⟩, x, hx, hxc, hbx, hxv⟩ := h
  rw [Bool.eq_false_iff, ne_eq, checkKeyLinearizable_iff_explainedByPuts]
  rintro ⟨S, hS, -, l, hl, hord, hacc⟩
  have hmem : ∀ y ∈ ops, y.certain = true → y ∈ l := fun y hy hc =>
    hl.symm.subset (List.mem_append_left _ (List.mem_filter.mpr ⟨hy, hc⟩))
  obtain ⟨l₁, l₂, rfl⟩ := List.append_of_mem (hmem b hb hbc)
  obtain ⟨-, hord₂, hcross⟩ := List.pairwise_append.mp hord
  -- the reader stands behind `b`
  have hx₂ : x ∈ l₂ := by
    rcases List.mem_append.mp (hmem x hx hxc) with hx₁ | hx₂
    · exact absurd ⟨hbret, hbx⟩ (hcross x hx₁ b List.mem_cons_self)
    · rcases List.mem_cons.mp hx₂ with rfl | hx₂
      · exact absurd (Option.some.inj (hxv.symm.trans hv)).symm hne
      · exact hx₂
  obtain ⟨l₃, l₄, rfl⟩ := List.append_of_mem hx₂
  obtain ⟨s, hs⟩ : ∃ s, Accepts KeyOp.replay s (b :: (l₃ ++ x :: l₄)) := hacc.of_append
  have hval : s.getD (Str.lit "") = v := by
    obtain ⟨s', hstep, -⟩ := hs
    rw [KeyOp.replay, if_pos hbc] at hstep
    exact seen_eq hstep hv
  rcases exists_writer (l := b :: l₃) hxc hxv hs with heq | ⟨y, hy, hw, heq⟩
  · exact hne (hval.symm.trans heq)
  · have hyops : y ∈ ops := by
      have hyl : y ∈ l₁ ++ b :: (l₃ ++ x :: l₄) :=
        List.mem_append_right _ (List.mem_append_left (x :: l₄) hy)
      rcases List.mem_append.mp (hl.subset hyl) with h | h
      · exact (List.mem_filter.mp h).1
      · exact (List.mem_filter.mp (hS.subset h)).1
    have hyp : y ∈ [p] := by
      rw [← hone.2]
      exact List.mem_filter.mpr ⟨hyops, by simp [hw, heq]⟩
    rw [List.mem_singleton.mp hyp] at hy
    rcases List.mem_cons.mp hy with rfl | hy
    · rw [uncertainPut_not_certain hp] at hbc
      exact absurd hbc (by decide)
    · exact (List.pairwise_cons.mp hord₂).1 p (List.mem_append_left _ hy) ⟨hpret, hpb⟩

/-- A Put that a crash answered. -/
def earlyPut : KeyOp :=
  ⟨.put, Str.lit "a", Str.lit "", 1, 3, Str.lit "node_crashed", false, false⟩

/-- The first operation after the crash was reported reads its value. -/
def earlyGet : KeyOp := ⟨.get, Str.lit "", Str.lit "", 5, 6, Str.lit "a", true, false⟩

def failedCas : KeyOp :=
  ⟨.cas, Str.lit "d", Str.lit "e", 9, 10, Str.lit "cas_mismatch", false, false⟩

/-- These three, a Put that timed out, and another that a crash answered. -/
def troubledOps : List KeyOp :=
  [earlyPut, ⟨.put, Str.lit "b", Str.lit "", 1, 4, Str.lit "timeout", false, false⟩, earlyGet,
    ⟨.put, Str.lit "c", Str.lit "", 7, 8, Str.lit "node_crashed", false, false⟩, failedCas]

/-- A Put that timed out at the client and was committed nevertheless. -/
def timedOutPut : KeyOp :=
  ⟨.put, Str.lit "v", Str.lit "", 1, 5, Str.lit "timeout", false, false⟩

/-- A later Get that reads its value. -/
def laterGet : KeyOp := ⟨.get, Str.lit "", Str.lit "", 6, 7, Str.lit "v", true, false⟩

end SimKV
