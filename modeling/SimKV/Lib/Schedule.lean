/-
# Putting timed operations in order

A history is a list of operations that overlapped in time, and a sequential
object says, state by state, which operations it accepts: `step s a` is the state
after `a`, or `none` if the object would not have answered `a` as it was
answered.  `Schedulable before step s ops` says that the operations can be put in
one order, with no operation behind one that has to come after it, along which
the object accepts them all from `s`.

Two facts about schedules carry a checker.  The first operation of a schedule can
be peeled off (`schedulable_iff`), which is what a backtracking search does.  And
an object made of independent parts, one for each key, has a schedule exactly when
every part has one (`Parted.schedulable_iff`).  The second needs the operations to be
intervals: the orders of the parts are merged by always taking the first
operation of the part that holds the earliest remaining end, and no other
remaining operation can have ended before that one began.
-/
import Mathlib.Data.List.MinMax
import Mathlib.Data.List.Nodup
import Mathlib.Data.List.Perm.Basic
import Mathlib.Logic.Function.Basic

namespace Schedule

variable {α σ : Type}

/-! ## Runs of a sequential object -/

/-- The object accepts the operations, in this order, from `s`. -/
def Accepts (step : σ → α → Option σ) : σ → List α → Prop
  | _, [] => True
  | s, a :: l => ∃ s', step s a = some s' ∧ Accepts step s' l

@[simp] theorem accepts_nil (step : σ → α → Option σ) (s : σ) : Accepts step s [] := trivial

@[simp] theorem accepts_cons {step : σ → α → Option σ} {s : σ} {a : α} {l : List α} :
    Accepts step s (a :: l) ↔ ∃ s', step s a = some s' ∧ Accepts step s' l := Iff.rfl

/-- Whether the object accepts them can be computed. -/
theorem accepts_iff_foldlM {step : σ → α → Option σ} {s : σ} {l : List α} :
    Accepts step s l ↔ (l.foldlM step s).isSome = true := by
  induction l generalizing s with
  | nil => exact ⟨fun _ => rfl, fun _ => trivial⟩
  | cons a l ih =>
    rw [accepts_cons, List.foldlM_cons]
    cases hs : step s a with
    | none => simp
    | some s' => simp [ih]

/-- A chain of states along the operations shows that the object accepts them. -/
theorem accepts_of_states {step : σ → α → Option σ} {l : List α} (st : Nat → σ)
    (h : ∀ k a, l[k]? = some a → step (st k) a = some (st (k + 1))) :
    Accepts step (st 0) l := by
  induction l generalizing st with
  | nil => trivial
  | cons a l ih =>
    refine ⟨st 1, h 0 a rfl, ih (fun k => st (k + 1)) fun k b hb => ?_⟩
    exact h (k + 1) b hb

theorem Accepts.of_append {step : σ → α → Option σ} {l l' : List α} {s : σ}
    (h : Accepts step s (l ++ l')) : ∃ s', Accepts step s' l' := by
  induction l generalizing s with
  | nil => exact ⟨s, h⟩
  | cons a l ih =>
    obtain ⟨s', -, h'⟩ := h
    exact ih h'

/-- Whatever the accepted operations keep true of the state is true where one of them is made. -/
theorem Accepts.exists_step {step : σ → α → Option σ} {I : σ → Prop} {l : List α}
    (hI : ∀ a ∈ l, ∀ s s', I s → step s a = some s' → I s') {s : σ} (hs : I s)
    (h : Accepts step s l) {a : α} (ha : a ∈ l) : ∃ s₁ s₂, I s₁ ∧ step s₁ a = some s₂ := by
  induction l generalizing s with
  | nil => exact absurd ha List.not_mem_nil
  | cons b l ih =>
    obtain ⟨s', hsb, hacc⟩ := h
    rcases List.mem_cons.mp ha with rfl | ha
    · exact ⟨s, s', hs, hsb⟩
    · exact ih (fun c hc => hI c (List.mem_cons_of_mem _ hc))
        (hI b List.mem_cons_self s s' hs hsb) hacc ha

/-- **Leaving operations out.**  `R` relates the states with and without them, in view of the
operations to come: a kept operation is accepted on both sides, a dropped one on the first. -/
theorem Accepts.filter {step : σ → α → Option σ} {p : α → Bool} {R : List α → σ → σ → Prop}
    (keep : ∀ a l s s' t, R (a :: l) s t → p a = true → step s a = some s' →
      ∃ t', step t a = some t' ∧ R l s' t')
    (drop : ∀ a l s s' t, R (a :: l) s t → p a = false → step s a = some s' → R l s' t)
    {l : List α} {s t : σ} (hR : R l s t) (h : Accepts step s l) : Accepts step t (l.filter p) := by
  induction l generalizing s t with
  | nil => trivial
  | cons a l ih =>
    obtain ⟨s', hsa, hacc⟩ := h
    cases hp : p a with
    | true =>
      obtain ⟨t', hta, hR'⟩ := keep a l s s' t hR hp hsa
      rw [List.filter_cons_of_pos hp]
      exact ⟨t', hta, ih hR' hacc⟩
    | false =>
      rw [List.filter_cons_of_neg (by rw [hp]; decide)]
      exact ih (drop a l s s' t hR hp hsa) hacc

/-- No operation stands behind one that has to come after it. -/
def InOrder (before : α → α → Prop) (l : List α) : Prop := l.Pairwise fun a b => ¬ before b a

/-- The operations can be ordered so that the object accepts them from `s`. -/
def Schedulable (before : α → α → Prop) (step : σ → α → Option σ) (s : σ) (ops : List α) : Prop :=
  ∃ l, l.Perm ops ∧ InOrder before l ∧ Accepts step s l

section Peel

variable {before : α → α → Prop} {step : σ → α → Option σ} {s : σ}

/-- A schedule of some of the operations, among them all that satisfy `p`. -/
theorem exists_schedulable {p : α → Bool} {ops l : List α} (hops : ops.Nodup) (hl : l.Nodup)
    (hsub : l ⊆ ops) (hp : ∀ a ∈ ops, p a = true → a ∈ l) (hord : InOrder before l)
    (hacc : Accepts step s l) : ∃ S : List α, S.Sublist (ops.filter fun a => !p a) ∧
      Schedulable before step s (ops.filter p ++ S) := by
  classical
  refine ⟨(ops.filter fun a => !p a).filter (· ∈ l), List.filter_sublist, l, ?_, hord, hacc⟩
  have hdisj : List.Disjoint (ops.filter p) ((ops.filter fun a => !p a).filter (· ∈ l)) := by
    intro a ha ha'
    have h1 := (List.mem_filter.mp ha).2
    have h2 := (List.mem_filter.mp (List.mem_filter.mp ha').1).2
    rw [h1] at h2
    cases h2
  refine (List.perm_ext_iff_of_nodup hl
    (List.Nodup.append (hops.filter _) ((hops.filter _).filter _) hdisj)).mpr fun a => ?_
  simp only [List.mem_append, List.mem_filter, decide_eq_true_eq]
  constructor
  · intro ha
    cases hpa : p a with
    | true => exact Or.inl ⟨hsub ha, rfl⟩
    | false => exact Or.inr ⟨⟨hsub ha, rfl⟩, ha⟩
  · rintro (⟨ha, hpa⟩ | ⟨-, ha⟩)
    · exact hp a ha hpa
    · exact ha

theorem schedulable_nil : Schedulable before step s [] :=
  ⟨[], List.Perm.refl _, List.Pairwise.nil, trivial⟩

theorem Schedulable.perm {ops ops' : List α} (hp : ops.Perm ops')
    (h : Schedulable before step s ops) : Schedulable before step s ops' := by
  obtain ⟨l, hl, hord, hacc⟩ := h
  exact ⟨l, hl.trans hp, hord, hacc⟩

/-- Only the order of the operations at hand matters. -/
theorem Schedulable.mono {before' : α → α → Prop} {ops : List α}
    (hb : ∀ a ∈ ops, ∀ b ∈ ops, before' a b → before a b) (h : Schedulable before step s ops) :
    Schedulable before' step s ops := by
  obtain ⟨l, hl, hord, hacc⟩ := h
  refine ⟨l, hl, hord.imp_of_mem fun {a b} ha hbm hn hba => hn ?_, hacc⟩
  exact hb b (hl.subset hbm) a (hl.subset ha) hba

/-- An object that accepts more, of the operations at hand. -/
theorem Schedulable.imp_step {step' : σ → α → Option σ} {ops : List α}
    (hs : ∀ a ∈ ops, ∀ s s', step s a = some s' → step' s a = some s')
    (h : Schedulable before step s ops) : Schedulable before step' s ops := by
  obtain ⟨l, hl, hord, hacc⟩ := h
  refine ⟨l, hl, hord, ?_⟩
  have hs : ∀ a ∈ l, ∀ s s', step s a = some s' → step' s a = some s' :=
    fun a ha => hs a (hl.subset ha)
  clear hl hord
  induction l generalizing s with
  | nil => trivial
  | cons a l ih =>
    obtain ⟨s', hsa, hacc⟩ := hacc
    exact ⟨s', hs a List.mem_cons_self s s' hsa, ih hacc fun b hb =>
      hs b (List.mem_cons_of_mem _ hb)⟩

/-- Only the answers to the operations at hand matter. -/
theorem Schedulable.congr_step {step' : σ → α → Option σ} {ops : List α}
    (hs : ∀ a ∈ ops, ∀ s, step s a = step' s a) (h : Schedulable before step s ops) :
    Schedulable before step' s ops :=
  h.imp_step fun a ha s _ hsa => (hs a ha s).symm.trans hsa

/-- Operations that leave the object as it is may be left out. -/
theorem Schedulable.filter {p : α → Bool} {ops : List α}
    (hidle : ∀ a ∈ ops, p a = false → ∀ s s', step s a = some s' → s' = s)
    (h : Schedulable before step s ops) : Schedulable before step s (ops.filter p) := by
  obtain ⟨l, hl, hord, hacc⟩ := h
  refine ⟨l.filter p, hl.filter p, hord.filter p, ?_⟩
  refine Accepts.filter (R := fun rest s t => rest ⊆ ops ∧ s = t) ?_ ?_ ⟨hl.subset, rfl⟩ hacc
  · rintro a rest s s' t ⟨hsub, rfl⟩ - hsa
    exact ⟨s', hsa, List.subset_of_cons_subset hsub, rfl⟩
  · rintro a rest s s' t ⟨hsub, rfl⟩ hp hsa
    exact ⟨List.subset_of_cons_subset hsub, hidle a (hsub List.mem_cons_self) hp s s' hsa⟩

/-- An operation that the object always accepts, and that leaves it as it is, has a place in every
order. -/
theorem Schedulable.insert {I : σ → Prop} {a : α} {ops : List α}
    (htrans : ∀ b ∈ ops, ∀ c ∈ ops, before b a → before a c → before b c)
    (hirr : ∀ b ∈ ops, ¬ before b b) (hI : ∀ b ∈ ops, ∀ s s', I s → step s b = some s' → I s')
    (hidle : ∀ s, I s → step s a = some s) (hs : I s) (h : Schedulable before step s ops) :
    Schedulable before step s (a :: ops) := by
  obtain ⟨l, hl, hord, hacc⟩ := h
  suffices hplace : ∃ l', l'.Perm (a :: l) ∧ InOrder before l' ∧ Accepts step s l' by
    obtain ⟨l', hl', hord', hacc'⟩ := hplace
    exact ⟨l', hl'.trans (hl.cons a), hord', hacc'⟩
  have hmem : l ⊆ ops := hl.subset
  clear hl
  -- the place is before the first operation that has to come after `a`
  induction l generalizing s with
  | nil => exact ⟨[a], List.Perm.refl _, List.pairwise_singleton _ _, s, hidle s hs, trivial⟩
  | cons b l ih =>
    obtain ⟨hfirst, hord⟩ := List.pairwise_cons.mp hord
    have hb : b ∈ ops := hmem List.mem_cons_self
    by_cases hab : before a b
    · refine ⟨a :: b :: l, List.Perm.refl _, ?_, s, hidle s hs, hacc⟩
      refine List.pairwise_cons.mpr ⟨fun c hc hca => ?_, List.pairwise_cons.mpr ⟨hfirst, hord⟩⟩
      have hcb := htrans c (hmem hc) b hb hca hab
      rcases List.mem_cons.mp hc with rfl | hc
      · exact hirr c hb hcb
      · exact hfirst c hc hcb
    · obtain ⟨s', hsb, hacc⟩ := hacc
      obtain ⟨l', hl', hord', hacc'⟩ := ih (hI b hb s s' hs hsb) hord hacc
        (List.subset_of_cons_subset hmem)
      refine ⟨b :: l', (hl'.cons b).trans (List.Perm.swap a b l),
        List.pairwise_cons.mpr ⟨fun c hc => ?_, hord'⟩, s', hsb, hacc'⟩
      rcases List.mem_cons.mp (hl'.subset hc) with rfl | hc
      · exact hab
      · exact hfirst c hc

/-- Operations that the object always accepts, and that leave it as it is, may be added. -/
theorem Schedulable.of_filter {I : σ → Prop} {p : α → Bool} {ops : List α}
    (htrans : ∀ a ∈ ops, ∀ b ∈ ops, ∀ c ∈ ops, before b a → before a c → before b c)
    (hirr : ∀ b ∈ ops, ¬ before b b)
    (hI : ∀ b ∈ ops, ∀ s s', I s → step s b = some s' → I s')
    (hidle : ∀ a ∈ ops, p a = false → ∀ s, I s → step s a = some s) (hs : I s)
    (h : Schedulable before step s (ops.filter p)) : Schedulable before step s ops := by
  suffices hadd : ∀ as ⊆ ops.filter fun a => !p a,
      Schedulable before step s (as ++ ops.filter p) by
    refine (hadd _ (List.Subset.refl _)).perm ?_
    exact List.perm_append_comm.trans (List.filter_append_perm p ops)
  intro as
  induction as with
  | nil => exact fun _ => h
  | cons a as ih =>
    intro hsub
    obtain ⟨ha, hpa⟩ := List.mem_filter.mp (hsub List.mem_cons_self)
    have hops : as ++ ops.filter p ⊆ ops := by
      intro b hb
      rcases List.mem_append.mp hb with hb | hb
      · exact (List.mem_filter.mp (hsub (List.mem_cons_of_mem _ hb))).1
      · exact (List.mem_filter.mp hb).1
    exact Schedulable.insert (fun b hb c hc => htrans a ha b (hops hb) c (hops hc))
      (fun b hb => hirr b (hops hb)) (fun b hb => hI b (hops hb))
      (hidle a ha (by simpa using hpa)) hs (ih (List.subset_of_cons_subset hsub))

/-- **The first operation of a schedule**: none of the others has to come before it, the object
accepts it, and the others can be scheduled after it. -/
theorem schedulable_iff {ops : List α} (hne : ops ≠ []) :
    Schedulable before step s ops ↔ ∃ a rest s', ops.Perm (a :: rest) ∧ (∀ b ∈ rest, ¬ before b a) ∧
      step s a = some s' ∧ Schedulable before step s' rest := by
  constructor
  · rintro ⟨l, hl, hord, hacc⟩
    cases l with
    | nil => exact absurd hl.nil_eq.symm hne
    | cons a l =>
      obtain ⟨hfirst, hord⟩ := List.pairwise_cons.mp hord
      obtain ⟨s', hs, hacc⟩ := hacc
      exact ⟨a, l, s', hl.symm, hfirst, hs, l, List.Perm.refl _, hord, hacc⟩
  · rintro ⟨a, rest, s', hp, hfirst, hs, l, hl, hord, hacc⟩
    refine ⟨a :: l, (hl.cons a).trans hp.symm, List.pairwise_cons.mpr ⟨fun b hb => ?_, hord⟩,
      s', hs, hacc⟩
    exact hfirst b (hl.subset hb)

end Peel

/-! ## Operations seen through a map -/

section Map

variable {β : Type} {before : β → β → Prop} {step : σ → β → Option σ} (f : α → β)

theorem accepts_map (l : List α) :
    ∀ s, Accepts step s (l.map f) ↔ Accepts (fun s a => step s (f a)) s l := by
  induction l with
  | nil => exact fun _ => Iff.rfl
  | cons a l ih => exact fun s => exists_congr fun s' => and_congr_right fun _ => ih s'

/-- A reordering of an image is the image of a reordering. -/
theorem exists_perm_of_perm_map {l' : List β} :
    ∀ {l : List α}, l'.Perm (l.map f) → ∃ l₀ : List α, l₀.Perm l ∧ l₀.map f = l' := by
  induction l' with
  | nil =>
    intro l h
    exact ⟨[], by rw [List.map_eq_nil_iff.mp h.nil_eq.symm], rfl⟩
  | cons b l' ih =>
    intro l h
    obtain ⟨a, ha, rfl⟩ := List.mem_map.mp (h.subset List.mem_cons_self)
    obtain ⟨pre, post, rfl⟩ := List.append_of_mem ha
    have hp : (pre ++ a :: post).Perm (a :: (pre ++ post)) := List.perm_middle
    obtain ⟨l₀, hl₀, rfl⟩ := ih (h.trans (hp.map f)).cons_inv
    exact ⟨a :: l₀, (hl₀.cons a).trans hp.symm, rfl⟩

theorem schedulable_map {s : σ} {ops : List α} : Schedulable before step s (ops.map f) ↔
    Schedulable (fun a b => before (f a) (f b)) (fun s a => step s (f a)) s ops := by
  constructor
  · rintro ⟨l', hl', hord, hacc⟩
    obtain ⟨l, hl, rfl⟩ := exists_perm_of_perm_map f hl'
    exact ⟨l, hl, List.pairwise_map.mp hord, (accepts_map f l s).mp hacc⟩
  · rintro ⟨l, hl, hord, hacc⟩
    exact ⟨l.map f, hl.map f, List.pairwise_map.mpr hord, (accepts_map f l s).mpr hacc⟩

end Map

/-! ## States seen through a map -/

section View

variable {τ : Type} {before : α → α → Prop} {step : σ → α → Option σ} {step' : τ → α → Option τ}
  {f : σ → τ}

theorem accepts_view (h : ∀ s a, step' (f s) a = (step s a).map f) (l : List α) :
    ∀ s, Accepts step' (f s) l ↔ Accepts step s l := by
  induction l with
  | nil => exact fun _ => Iff.rfl
  | cons a l ih =>
    intro s
    rw [accepts_cons, accepts_cons]
    constructor
    · rintro ⟨t, ht, hacc⟩
      rw [h] at ht
      obtain ⟨s', hs, rfl⟩ := Option.map_eq_some_iff.mp ht
      exact ⟨s', hs, (ih s').mp hacc⟩
    · rintro ⟨s', hs, hacc⟩
      exact ⟨f s', by rw [h, hs, Option.map_some], (ih s').mpr hacc⟩

/-- An object that only sees part of the state, and answers by that part, has the same
schedules. -/
theorem schedulable_view (h : ∀ s a, step' (f s) a = (step s a).map f) {s : σ} {ops : List α} :
    Schedulable before step' (f s) ops ↔ Schedulable before step s ops :=
  exists_congr fun l => and_congr_right fun _ => and_congr_right fun _ => accepts_view h l s

end View

/-! ## Independent parts -/

section Parts

variable {κ S : Type} [DecidableEq κ] (key : α → κ) (view : S → κ → σ)
  (step : σ → α → Option σ) (whole : S → α → Option S)

/-- An operation on the whole object is an operation on the part of its key, and touches no
other part. -/
structure Parted : Prop where
  some : ∀ s a s', whole s a = some s' →
    step (view s (key a)) a = some (view s' (key a)) ∧ ∀ k, k ≠ key a → view s' k = view s k
  none : ∀ s a, whole s a = none → step (view s (key a)) a = none

variable {key view step whole}

/-- The operations on key `k`. -/
abbrev part (key : α → κ) (k : κ) (ops : List α) : List α := ops.filter fun a => key a = k

theorem part_cons (k : κ) (a : α) (l : List α) :
    part key k (a :: l) = if key a = k then a :: part key k l else part key k l := by
  by_cases h : key a = k
  · simp [part, h]
  · simp [part, h]

/-- The whole object accepts a run exactly when every part accepts its share of it. -/
theorem Parted.accepts_iff (h : Parted key view step whole) (l : List α) :
    ∀ s, Accepts whole s l ↔ ∀ k, Accepts step (view s k) (part key k l) := by
  induction l with
  | nil => exact fun s => ⟨fun _ k => trivial, fun _ => trivial⟩
  | cons a l ih =>
    intro s
    constructor
    · rintro ⟨s', hs, hacc⟩ k
      obtain ⟨hstep, hother⟩ := h.some s a s' hs
      have hk := (ih s').mp hacc k
      rw [part_cons]
      split
      · rename_i hak
        subst hak
        exact ⟨_, hstep, hk⟩
      · rename_i hak
        rw [hother k (Ne.symm hak)] at hk
        exact hk
    · intro hall
      have hhead := hall (key a)
      rw [part_cons, if_pos rfl] at hhead
      obtain ⟨v, hv, hrest⟩ := hhead
      cases hs : whole s a with
      | none => rw [h.none s a hs] at hv; exact absurd hv (by simp)
      | some s' =>
        obtain ⟨hstep, hother⟩ := h.some s a s' hs
        refine ⟨s', hs, (ih s').mpr fun k => ?_⟩
        by_cases hak : key a = k
        · subst hak
          rw [hstep, Option.some.injEq] at hv
          rw [hv]
          exact hrest
        · have hk := hall k
          rw [part_cons, if_neg hak] at hk
          rw [hother k (Ne.symm hak)]
          exact hk

/-! ## Merging the orders of the parts -/

variable {T : Type} [LinearOrder T] {start finish : α → T}

/-- `a` ended before `b` began. -/
def Precedes (start finish : α → T) (a b : α) : Prop := finish a < start b

/-- Some operation ends no later than any other. -/
theorem exists_earliest (finish : α → T) {ops : List α} (hne : ops ≠ []) :
    ∃ x ∈ ops, ∀ y ∈ ops, finish x ≤ finish y := by
  cases hx : ops.argmin finish with
  | none => exact absurd (List.argmin_eq_none.mp hx) hne
  | some x => exact ⟨x, List.argmin_mem hx, fun y hy => List.le_of_mem_argmin hy hx⟩

/-- **Orders of the parts can be merged.**  Induction on the number of operations: the first one
is taken from the part that holds the earliest end. -/
theorem exists_merge (n : Nat) : ∀ (ops : List α) (L : κ → List α), ops.length = n →
    (∀ k, (L k).Perm (part key k ops)) → (∀ k, InOrder (Precedes start finish) (L k)) →
    (∀ a ∈ ops, start a ≤ finish a) →
    ∃ l, l.Perm ops ∧ InOrder (Precedes start finish) l ∧ ∀ k, part key k l = L k := by
  induction n with
  | zero =>
    intro ops L hlen hL _ _
    obtain rfl := List.eq_nil_of_length_eq_zero hlen
    exact ⟨[], List.Perm.refl _, List.Pairwise.nil, fun k => ((hL k).eq_nil).symm⟩
  | succ n ih =>
    intro ops L hlen hL hord hint
    obtain ⟨x, hx, hmin⟩ := exists_earliest finish (show ops ≠ [] by rintro rfl; simp at hlen)
    have hxk : x ∈ L (key x) := (hL _).symm.subset (List.mem_filter.mpr ⟨hx, by simp⟩)
    cases hLk : L (key x) with
    | nil => rw [hLk] at hxk; exact absurd hxk List.not_mem_nil
    | cons h t =>
      have hordk := hord (key x)
      rw [hLk] at hordk hxk
      obtain ⟨hfirst, hordt⟩ := List.pairwise_cons.mp hordk
      have hpk := hL (key x)
      rw [hLk] at hpk
      obtain ⟨hmem, hkey⟩ := List.mem_filter.mp (hpk.subset List.mem_cons_self)
      have hkey : key h = key x := by simpa using hkey
      -- `h` began before the earliest end, so nothing that is left ended before it began
      have hstart : start h ≤ finish x := by
        rcases List.mem_cons.mp hxk with rfl | hxt
        · exact hint _ hx
        · exact not_lt.mp (hfirst x hxt)
      obtain ⟨pre, post, rfl⟩ := List.append_of_mem hmem
      have hperm : (pre ++ h :: post).Perm (h :: (pre ++ post)) := List.perm_middle
      obtain ⟨l, hl, hlord, hpart⟩ := ih (pre ++ post) (Function.update L (key x) t)
        (by simp at hlen ⊢; omega)
        (by
          intro k
          have hk := (hL k).trans (hperm.filter _)
          change (L k).Perm (part key k (h :: (pre ++ post))) at hk
          rw [part_cons] at hk
          by_cases hkx : k = key x
          · subst hkx
            rw [if_pos hkey, hLk] at hk
            rw [Function.update_self]
            exact hk.cons_inv
          · rw [if_neg (fun he => hkx (he.symm.trans hkey))] at hk
            rw [Function.update_of_ne hkx]
            exact hk)
        (by
          intro k
          by_cases hkx : k = key x
          · subst hkx
            rw [Function.update_self]
            exact hordt
          · rw [Function.update_of_ne hkx]
            exact hord k)
        (fun a ha => hint a (hperm.symm.subset (List.mem_cons_of_mem _ ha)))
      refine ⟨h :: l, (hl.cons h).trans hperm.symm,
        List.pairwise_cons.mpr ⟨fun b hb => ?_, hlord⟩, fun k => ?_⟩
      · have hbm := hmin b (hperm.symm.subset (List.mem_cons_of_mem _ (hl.subset hb)))
        exact not_lt.mpr (hstart.trans hbm)
      · rw [part_cons, hpart k]
        by_cases hkx : k = key x
        · subst hkx
          rw [if_pos hkey, Function.update_self, hLk]
        · rw [if_neg (fun he => hkx (he.symm.trans hkey)), Function.update_of_ne hkx]

/-- **Locality**: the operations on an object made of independent parts can be scheduled exactly
when those on each part can. -/
theorem Parted.schedulable_iff (h : Parted key view step whole) {s : S} {ops : List α}
    (hint : ∀ a ∈ ops, start a ≤ finish a) :
    Schedulable (Precedes start finish) whole s ops ↔
      ∀ k, Schedulable (Precedes start finish) step (view s k) (part key k ops) := by
  constructor
  · rintro ⟨l, hl, hord, hacc⟩ k
    exact ⟨part key k l, hl.filter _, hord.filter _, (h.accepts_iff l s).mp hacc k⟩
  · intro hall
    choose L hL hord hacc using hall
    obtain ⟨l, hl, hlord, hpart⟩ := exists_merge ops.length ops L rfl hL hord hint
    refine ⟨l, hl, hlord, (h.accepts_iff l s).mpr fun k => ?_⟩
    rw [hpart k]
    exact hacc k

end Parts

end Schedule
