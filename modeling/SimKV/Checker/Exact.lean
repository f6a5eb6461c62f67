/-
# What the checker decides

`wg_check` is a search for a schedule of the operations of one key (`wgCheck_iff`),
and `check_key_linearizable` tries it on the definitely answered operations with
some of the crashed Puts added (`checkKeyLinearizable_iff`).  Everything else here
follows from these two and from the library's fact that schedules of different keys
can be merged.

A history in which every answer is definite is judged exactly: the verdict is
`true` if and only if one order of all its operations, on one `KvStore`, explains
every answer.  Operations of unknown outcome are the subject of
`SimKV.Checker.Unknown`.
-/
import SimKV.Checker.OwnChecker
import SimKV.Lib.Schedule
import SimKV.Storage.KvStore
import Mathlib.Data.Nat.Bitwise

namespace SimKV

open Schedule

/-! ## The search -/

/-- The key as an object that accepts an operation only with the response it had. -/
def KeyOp.step (state : KvState) (op : KeyOp) : Option KvState :=
  if responseMatches op (applyModel state op).2 then some (applyModel state op).1 else none

/-- `a` returned before `b` was invoked, as the search tests it. -/
def KeyOp.before (a b : KeyOp) : Prop := 0 < a.ret ∧ a.ret < b.invoke

/-- The operations whose flag is not set. -/
def unplaced : List KeyOp → List Bool → List KeyOp
  | [], _ => []
  | op :: ops, [] => op :: unplaced ops []
  | op :: ops, b :: bs => if b then unplaced ops bs else op :: unplaced ops bs

theorem unplaced_replicate (ops : List KeyOp) :
    unplaced ops (List.replicate ops.length false) = ops := by
  induction ops with
  | nil => rfl
  | cons op ops ih =>
    rw [List.length_cons, List.replicate_succ]
    simp only [unplaced, Bool.false_eq_true, if_false, ih]

theorem exists_getElem?_cons {o op : KeyOp} {ops : List KeyOp} {P : Nat → Prop} :
    (∃ j, (o :: ops)[j]? = some op ∧ P j) ↔
      (op = o ∧ P 0) ∨ ∃ j, ops[j]? = some op ∧ P (j + 1) := by
  rw [← Nat.or_exists_add_one]
  simp only [List.getElem?_cons_zero, Option.some.injEq, List.getElem?_cons_succ]
  rw [eq_comm]

theorem mem_unplaced {op : KeyOp} : ∀ {ops : List KeyOp} {lin : List Bool},
    op ∈ unplaced ops lin ↔ ∃ j, ops[j]? = some op ∧ lin.getD j false = false
  | [], _ => by simp [unplaced]
  | o :: ops, [] => by
    rw [exists_getElem?_cons, unplaced, List.mem_cons, mem_unplaced]
    simp only [List.getD_nil, and_true]
  | o :: ops, false :: bs => by
    rw [exists_getElem?_cons, unplaced, if_neg (by decide), List.mem_cons, mem_unplaced]
    simp only [List.getD_cons_zero, and_true, List.getD_cons_succ]
  | o :: ops, true :: bs => by
    rw [exists_getElem?_cons, unplaced, if_pos rfl, mem_unplaced]
    simp only [List.getD_cons_zero, Bool.true_eq_false, and_false, false_or, List.getD_cons_succ]

/-- Setting a flag takes that operation out. -/
theorem unplaced_perm {op : KeyOp} : ∀ {ops : List KeyOp} {lin : List Bool} {i : Nat},
    lin.length = ops.length → ops[i]? = some op → lin.getD i false = false →
    (unplaced ops lin).Perm (op :: unplaced ops (lin.set i true))
  | [], _, _, _, hi, _ => by simp at hi
  | _ :: _, [], _, hlen, _, _ => by simp at hlen
  | o :: ops, b :: bs, 0, _, hi, hb => by
    simp only [List.getElem?_cons_zero, Option.some.injEq] at hi
    simp only [List.getD_cons_zero] at hb
    subst hi hb
    simp [unplaced]
  | o :: ops, b :: bs, i + 1, hlen, hi, hb => by
    have ih : (unplaced ops bs).Perm (op :: unplaced ops (bs.set i true)) :=
      unplaced_perm (Nat.succ.inj hlen) (by simpa using hi) (by simpa using hb)
    cases b with
    | false =>
      simp only [unplaced, List.set_cons_succ, Bool.false_eq_true, if_false]
      exact (ih.cons o).trans (List.Perm.swap op o _)
    | true =>
      simp only [unplaced, List.set_cons_succ, if_true]
      exact ih

theorem getD_set_true {lin : List Bool} {i : Nat} (hi : i < lin.length) (j : Nat) :
    (lin.set i true).getD j false = false ↔ j ≠ i ∧ lin.getD j false = false := by
  by_cases hj : j = i
  · subst hj
    simp [List.getD_eq_getElem?_getD, List.getElem?_set_self hi]
  · simp [List.getD_eq_getElem?_getD, List.getElem?_set_ne (Ne.symm hj), hj]

/-- Nothing blocks operation `i` exactly when no other unplaced operation returned before it was
invoked. -/
theorem any_blocks_iff {ops : List KeyOp} {lin : List Bool} {i : Nat} {op : KeyOp}
    (hp : ∀ o ∈ ops, o.pending = false) (hlen : lin.length = ops.length) (hi : ops[i]? = some op) :
    (List.range ops.length).any (blocks ops lin i) = false ↔
      ∀ b ∈ unplaced ops (lin.set i true), ¬ b.before op := by
  have hilt : i < lin.length := by
    rw [hlen]
    exact (List.getElem?_eq_some_iff.mp hi).1
  rw [List.any_eq_false]
  constructor
  · intro h b hb hbef
    obtain ⟨j, hj, hlin⟩ := mem_unplaced.mp hb
    obtain ⟨hji, hlin⟩ := (getD_set_true hilt j).mp hlin
    refine h j (List.mem_range.mpr (List.getElem?_eq_some_iff.mp hj).1) ?_
    have hpj := hp b (List.mem_of_getElem? hj)
    unfold blocks
    rw [hi, hj]
    simp only [hlin, hpj, Bool.or_false, beq_eq_false_iff_ne.mpr hji, Bool.not_false,
      decide_eq_true hbef.1, decide_eq_true hbef.2, Bool.and_self]
  · intro h j hj hbl
    unfold blocks at hbl
    rw [hi] at hbl
    cases hoj : ops[j]? with
    | none => rw [hoj] at hbl; simp at hbl
    | some b =>
      rw [hoj] at hbl
      simp only [Bool.and_eq_true, Bool.not_eq_true', Bool.or_eq_false_iff, beq_eq_false_iff_ne,
        decide_eq_true_eq] at hbl
      obtain ⟨⟨⟨hji, hlin⟩, -⟩, hret, hlt⟩ := hbl
      exact h b (mem_unplaced.mpr ⟨j, hoj, (getD_set_true hilt j).mpr ⟨hji, hlin⟩⟩) ⟨hret, hlt⟩

/-- **The search is exact**: it succeeds exactly when the operations that are left have a
schedule. -/
theorem wgCheck_iff {ops : List KeyOp} (hp : ∀ o ∈ ops, o.pending = false) (left : Nat) :
    ∀ (lin : List Bool) (s : KvState), lin.length = ops.length →
      (unplaced ops lin).length = left →
      (wgCheck ops left lin s = true ↔
        Schedulable KeyOp.before KeyOp.step s (unplaced ops lin)) := by
  induction left with
  | zero =>
    intro lin s _ hleft
    rw [List.eq_nil_of_length_eq_zero hleft]
    exact ⟨fun _ => schedulable_nil, fun _ => rfl⟩
  | succ left ih =>
    intro lin s hlen hleft
    have hne : unplaced ops lin ≠ [] := by
      intro h
      rw [h] at hleft
      simp at hleft
    -- placing operation `i` leaves a smaller problem of the same kind
    have hplace : ∀ {i : Nat} {op : KeyOp} (s : KvState), ops[i]? = some op →
        lin.getD i false = false →
        (wgCheck ops left (lin.set i true) s = true ↔
          Schedulable KeyOp.before KeyOp.step s (unplaced ops (lin.set i true))) := by
      intro i op s hi hl
      refine ih (lin.set i true) s (by rw [List.length_set]; exact hlen) ?_
      have := (unplaced_perm hlen hi hl).length_eq
      rw [List.length_cons] at this
      omega
    rw [schedulable_iff hne, wgCheck, List.any_eq_true]
    constructor
    · rintro ⟨i, -, hi⟩
      cases hop : ops[i]? with
      | none => rw [hop] at hi; simp at hi
      | some op =>
        rw [hop] at hi
        simp only [Bool.if_false_left, Bool.and_eq_true, Bool.not_eq_true',
          decide_eq_false_iff_not, Bool.not_eq_true, Bool.not_eq_false] at hi
        obtain ⟨hl, -, hb, hr, hw⟩ := hi
        exact ⟨op, _, _, unplaced_perm hlen hop hl, (any_blocks_iff hp hlen hop).mp hb,
          if_pos hr, (hplace _ hop hl).mp hw⟩
    · rintro ⟨op, rest, s', hperm, hfirst, hstep, hsch⟩
      obtain ⟨i, hop, hl⟩ := mem_unplaced.mp (hperm.symm.subset List.mem_cons_self)
      have hrest : rest.Perm (unplaced ops (lin.set i true)) :=
        (hperm.symm.trans (unplaced_perm hlen hop hl)).cons_inv
      refine ⟨i, List.mem_range.mpr (List.getElem?_eq_some_iff.mp hop).1, ?_⟩
      unfold KeyOp.step at hstep
      split at hstep
      · rename_i hr
        rw [Option.some.injEq] at hstep
        subst hstep
        have hb : (List.range ops.length).any (blocks ops lin i) = false :=
          (any_blocks_iff hp hlen hop).mpr fun b hb => hfirst b (hrest.symm.subset hb)
        have hw := (hplace _ hop hl).mpr (hsch.perm hrest)
        have hpi := hp op (List.mem_of_getElem? hop)
        simp only [hop, hl, hpi, hb, hr, hw, Bool.false_eq_true, if_false, Bool.not_true]
      · exact absurd hstep (by simp)

theorem trySubset_iff {ops : List KeyOp} (hp : ∀ o ∈ ops, o.pending = false) :
    trySubset ops = true ↔ Schedulable KeyOp.before KeyOp.step none ops := by
  unfold trySubset
  split
  · rename_i h
    rw [List.isEmpty_iff.mp h]
    exact ⟨fun _ => schedulable_nil, fun _ => rfl⟩
  · have h := wgCheck_iff hp ops.length (List.replicate ops.length false) none
      (List.length_replicate) (by rw [unplaced_replicate])
    rw [unplaced_replicate] at h
    exact h

/-! ## Subsets of the crashed Puts -/

theorem chosen_eq_map (mask i : Nat) (ops : List KeyOp) :
    ∃ S : List KeyOp, S.Sublist ops ∧ chosen mask i ops = S.map KeyOp.committed := by
  induction ops generalizing i with
  | nil => exact ⟨[], List.Sublist.refl _, rfl⟩
  | cons op ops ih =>
    obtain ⟨S, hS, heq⟩ := ih (i + 1)
    by_cases hb : mask.testBit i
    · exact ⟨op :: S, hS.cons_cons op, by simp [chosen, hb, heq]⟩
    · exact ⟨S, hS.cons op, by simp [chosen, hb, heq]⟩

/-- `chosen` reads only the bits from `i` on. -/
theorem chosen_congr {mask mask' : Nat} (ops : List KeyOp) :
    ∀ i, (∀ j, i ≤ j → mask.testBit j = mask'.testBit j) →
      chosen mask i ops = chosen mask' i ops := by
  induction ops with
  | nil => exact fun _ _ => rfl
  | cons op ops ih =>
    intro i h
    simp only [chosen, h i (Nat.le_refl i), ih (i + 1) fun j hj => h j (by omega)]

/-- Every subset of the Puts has a mask. -/
theorem exists_mask {S ops : List KeyOp} (h : S.Sublist ops) :
    ∀ i, ∃ mask, mask < 2 ^ (i + ops.length) ∧ chosen mask i ops = S.map KeyOp.committed := by
  induction h with
  | slnil => exact fun i => ⟨0, Nat.two_pow_pos _, rfl⟩
  | @cons S ops op _ ih =>
    intro i
    obtain ⟨mask, hlt, heq⟩ := ih (i + 1)
    -- clear bit `i`, which the rest of the list does not read
    refine ⟨mask ^^^ (mask &&& 2 ^ i), ?_, ?_⟩
    · have hle : mask < 2 ^ (i + (op :: ops).length) := by
        rw [List.length_cons]
        exact lt_of_lt_of_eq hlt (by rw [Nat.add_right_comm, Nat.add_assoc])
      exact Nat.xor_lt_two_pow hle
        (Nat.and_lt_two_pow _ (Nat.pow_lt_pow_right (by omega) (by simp)))
    · have hbit : (mask ^^^ (mask &&& 2 ^ i)).testBit i = false := by
        simp [Nat.testBit_xor, Nat.testBit_and, Nat.testBit_two_pow_self]
      simp only [chosen, hbit, Bool.false_eq_true, if_false, ← heq]
      refine chosen_congr ops (i + 1) fun j hj => ?_
      simp [Nat.testBit_xor, Nat.testBit_and, Nat.testBit_two_pow_of_ne (by omega : i ≠ j)]
  | @cons_cons S ops op _ ih =>
    intro i
    obtain ⟨mask, hlt, heq⟩ := ih (i + 1)
    refine ⟨mask ||| 2 ^ i, ?_, ?_⟩
    · have hle : mask < 2 ^ (i + (op :: ops).length) := by
        rw [List.length_cons]
        exact lt_of_lt_of_eq hlt (by rw [Nat.add_right_comm, Nat.add_assoc])
      exact Nat.or_lt_two_pow hle (Nat.pow_lt_pow_right (by omega) (by simp))
    · have hbit : (mask ||| 2 ^ i).testBit i = true := by
        simp [Nat.testBit_or, Nat.testBit_two_pow_self]
      simp only [chosen, hbit, if_true, List.map_cons, ← heq]
      refine congrArg _ (chosen_congr ops (i + 1) fun j hj => ?_)
      simp [Nat.testBit_or, Nat.testBit_two_pow_of_ne (by omega : i ≠ j)]

/-- The subsets of the crashed Puts that are tried. -/
def Tried (puts S : List KeyOp) : Prop :=
  puts.length ≤ subsetCap ∨ S = [] ∨ S = puts ∨ ∃ op ∈ puts.take subsetCap, S = [op]

theorem certain_pending {op : KeyOp} (h : op.certain = true) : op.pending = false := by
  simp only [KeyOp.certain, Bool.and_eq_true, Bool.not_eq_true'] at h
  exact h.1.1

theorem uncertainPut_pending {op : KeyOp} (h : op.uncertainPut = true) : op.pending = false := by
  simp only [KeyOp.uncertainPut, Bool.and_eq_true, Bool.not_eq_true'] at h
  exact h.1.1.1

theorem uncertainPut_not_certain {op : KeyOp} (h : op.uncertainPut = true) :
    op.certain = false := by
  simp only [KeyOp.uncertainPut, Bool.and_eq_true] at h
  simp only [KeyOp.certain, h.1.2, Bool.not_true, Bool.and_false]

/-- **What `check_key_linearizable` decides**: some of the subsets of crashed Puts it tries,
together with the definitely answered operations, has a schedule. -/
theorem checkKeyLinearizable_iff (ops : List KeyOp) :
    checkKeyLinearizable ops = true ↔ ∃ S : List KeyOp, S.Sublist (ops.filter KeyOp.uncertainPut) ∧
      Tried (ops.filter KeyOp.uncertainPut) S ∧ Schedulable KeyOp.before KeyOp.step none
        (ops.filter KeyOp.certain ++ S.map KeyOp.committed) := by
  have htry : ∀ S : List KeyOp, S.Sublist (ops.filter KeyOp.uncertainPut) →
      (trySubset (ops.filter KeyOp.certain ++ S.map KeyOp.committed) = true ↔
        Schedulable KeyOp.before KeyOp.step none
          (ops.filter KeyOp.certain ++ S.map KeyOp.committed)) := by
    intro S hS
    refine trySubset_iff fun o ho => ?_
    rcases List.mem_append.mp ho with ho | ho
    · exact certain_pending (List.mem_filter.mp ho).2
    · obtain ⟨o', ho', rfl⟩ := List.mem_map.mp ho
      exact uncertainPut_pending (List.mem_filter.mp (hS.subset ho')).2
  unfold checkKeyLinearizable
  generalize ops.filter KeyOp.certain = cert at htry ⊢
  generalize ops.filter KeyOp.uncertainPut = puts at htry ⊢
  have hnone := htry [] (List.nil_sublist _)
  rw [List.map_nil, List.append_nil] at hnone
  simp only
  split
  · rename_i h
    simp only [Bool.and_eq_true, List.isEmpty_iff] at h
    obtain ⟨rfl, rfl⟩ := h
    exact ⟨fun _ => ⟨[], List.Sublist.refl _, Or.inr (Or.inl rfl), schedulable_nil⟩, fun _ => rfl⟩
  · split
    · rename_i hcap
      rw [List.any_eq_true]
      constructor
      · rintro ⟨mask, -, hm⟩
        obtain ⟨S, hS, heq⟩ := chosen_eq_map mask 0 puts
        rw [heq] at hm
        exact ⟨S, hS, Or.inl hcap, (htry S hS).mp hm⟩
      · rintro ⟨S, hS, -, hsch⟩
        obtain ⟨mask, hlt, heq⟩ := exists_mask hS 0
        rw [Nat.zero_add] at hlt
        refine ⟨mask, List.mem_range.mpr hlt, ?_⟩
        rw [heq]
        exact (htry S hS).mpr hsch
    · rename_i hcap
      rw [Bool.or_eq_true, Bool.or_eq_true, List.any_eq_true, hnone,
        htry puts (List.Sublist.refl _)]
      constructor
      · rintro ((h | h) | ⟨op, hop, h⟩)
        · exact ⟨[], List.nil_sublist _, Or.inr (Or.inl rfl), by simpa using h⟩
        · exact ⟨puts, List.Sublist.refl _, Or.inr (Or.inr (Or.inl rfl)), h⟩
        · have hsub : [op].Sublist puts :=
            List.singleton_sublist.mpr (List.mem_of_mem_take hop)
          exact ⟨[op], hsub, Or.inr (Or.inr (Or.inr ⟨op, hop, rfl⟩)), (htry [op] hsub).mp h⟩
      · rintro ⟨S, hS, htried, hsch⟩
        rcases htried with h | rfl | rfl | ⟨op, hop, rfl⟩
        · exact absurd h hcap
        · exact Or.inl (Or.inl (by simpa using hsch))
        · exact Or.inl (Or.inr hsch)
        · exact Or.inr ⟨op, hop, (htry [op] hS).mpr hsch⟩

/-- **The search of one key is exact**, up to fifteen crashed Puts: it succeeds exactly when some of
them, taken as successful, can be ordered together with the definitely answered operations so that
an operation that returned before another was invoked comes first, and every response is the one
the model gives at its place. -/
theorem checkKeyLinearizable_exact (ops : List KeyOp)
    (hret : ∀ op ∈ ops, op.pending = false → 0 < op.ret)
    (hcap : (ops.filter KeyOp.uncertainPut).length ≤ 15) :
    checkKeyLinearizable ops = true ↔
      ∃ U : List KeyOp, U.Sublist (ops.filter KeyOp.uncertainPut) ∧
        ∃ l : List KeyOp, l.Perm (ops.filter KeyOp.certain ++ U.map KeyOp.committed) ∧
          l.Pairwise (fun a b => ¬ b.ret < a.invoke) ∧ Accepts KeyOp.step none l := by
  rw [checkKeyLinearizable_iff]
  refine exists_congr fun U => and_congr_right fun hU => ?_
  have hpos : ∀ op ∈ ops.filter KeyOp.certain ++ U.map KeyOp.committed, 0 < op.ret := by
    intro op hop
    rcases List.mem_append.mp hop with h | h
    · obtain ⟨hmem, hc⟩ := List.mem_filter.mp h
      exact hret op hmem (certain_pending hc)
    · obtain ⟨op', hop', rfl⟩ := List.mem_map.mp h
      obtain ⟨hmem, hu⟩ := List.mem_filter.mp (hU.subset hop')
      exact hret op' hmem (uncertainPut_pending hu)
  constructor
  · rintro ⟨-, l, hperm, hord, hacc⟩
    refine ⟨l, hperm, ?_, hacc⟩
    refine hord.imp_of_mem fun _ hb hab hlt => ?_
    exact hab ⟨hpos _ (hperm.subset hb), hlt⟩
  · rintro ⟨l, hperm, hord, hacc⟩
    exact ⟨Or.inl hcap, l, hperm, hord.imp fun hab hbef => hab hbef.2, hacc⟩

/-- A Put whose client was told of a crash, and a Get that reads its value. -/
def crashedThenRead : List KeyOp :=
  [⟨.put, Str.lit "v", Str.lit "", 1, 5, Str.lit "node_crashed", false, false⟩,
    ⟨.get, Str.lit "", Str.lit "", 6, 7, Str.lit "v", true, false⟩]

theorem checkKeyLinearizable_exact_crashed :
    ∃ U : List KeyOp, U.Sublist (crashedThenRead.filter KeyOp.uncertainPut) ∧
      ∃ l : List KeyOp, l.Perm (crashedThenRead.filter KeyOp.certain ++ U.map KeyOp.committed) ∧
        l.Pairwise (fun a b => ¬ b.ret < a.invoke) ∧ Accepts KeyOp.step none l :=
  (checkKeyLinearizable_exact crashedThenRead (by decide) (by decide)).mp (by decide)

/-! ## Whole histories -/

/-- The command the client sent. -/
def HistoryEntry.command (e : HistoryEntry) : Command :=
  match e.kind with
  | .put => .put e.key e.value
  | .get => .get e.key
  | .cas => .cas e.key e.expected e.value

/-- The result is the one recorded: a Get's value, the success flag of a Put or a Cas. -/
def HistoryEntry.agrees (e : HistoryEntry) (r : CmdResult) : Bool :=
  match e.kind with
  | .get => r.value == e.response
  | .put | .cas => r.ok == e.ok

/-- The store as an object that accepts a command only with the result that was recorded. -/
def KvStore.answer (s : KvStore) (e : HistoryEntry) : Option KvStore :=
  if e.agrees (s.apply e.command).2 then some (s.apply e.command).1 else none

/-- One order of all answered operations, in which an operation that returned before another was
invoked comes first, and along which one initially empty store gives the recorded answers. -/
def History.Linearizable (h : History) : Prop :=
  ∃ l : List HistoryEntry, l.Perm h.completed ∧ l.Pairwise (fun a b => ¬ b.ret < a.invoke) ∧
    Accepts KvStore.answer KvStore.empty l

theorem casMismatch_ne_ok : Str.lit "cas_mismatch" ≠ Str.lit "ok" := by decide

/-- The model's next state is the value the store then has for the key. -/
theorem applyModel_keyOp (s : KvStore) (e : HistoryEntry) :
    (applyModel (s.get e.key) e.keyOp).1 = (s.apply e.command).1.get e.key := by
  unfold applyModel HistoryEntry.command
  cases hk : e.kind with
  | put => simp [HistoryEntry.keyOp, hk, KvStore.apply, KvStore.get]
  | get => simp [HistoryEntry.keyOp, hk, KvStore.apply, KvStore.get]
  | cas =>
    simp only [HistoryEntry.keyOp, hk, KvStore.apply, KvStore.get]
    by_cases heq : (s.data.find? e.key).getD (Str.lit "") = e.expected
    · simp [heq]
    · simp [heq]

/-- The model and the store agree on whether the recorded answer is right. -/
theorem responseMatches_keyOp (s : KvStore) (e : HistoryEntry) :
    responseMatches e.keyOp (applyModel (s.get e.key) e.keyOp).2 =
      e.agrees (s.apply e.command).2 := by
  unfold applyModel HistoryEntry.command HistoryEntry.agrees responseMatches
  cases hk : e.kind with
  | put => cases hok : e.ok <;> simp [HistoryEntry.keyOp, hk, hok, KvStore.apply]
  | get => simp [HistoryEntry.keyOp, hk, KvStore.apply, KvStore.get, Bool.beq_comm]
  | cas =>
    simp only [HistoryEntry.keyOp, hk, KvStore.apply, KvStore.get]
    by_cases heq : (s.data.find? e.key).getD (Str.lit "") = e.expected
    · simp [heq]
    · simp [heq, beq_eq_false_iff_ne.mpr casMismatch_ne_ok]

/-- A command touches no key but its own. -/
theorem apply_get_of_ne (s : KvStore) (e : HistoryEntry) {k : Str} (h : k ≠ e.key) :
    (s.apply e.command).1.get k = s.get k := by
  unfold HistoryEntry.command
  cases e.kind with
  | put => exact OrdMap.find?_insert_of_ne _ _ h
  | get => rfl
  | cas =>
    simp only [KvStore.apply]
    split
    · rfl
    · exact OrdMap.find?_insert_of_ne _ _ h

/-- A command on the store is an operation on the value of its key. -/
theorem parted_answer : Parted HistoryEntry.key KvStore.get
    (fun state e => KeyOp.step state e.keyOp) KvStore.answer where
  some s e s' h := by
    unfold KvStore.answer at h
    unfold KeyOp.step
    rw [responseMatches_keyOp, applyModel_keyOp]
    split at h
    · rename_i hag
      rw [Option.some.injEq] at h
      subst h
      exact ⟨if_pos hag, fun k hk => apply_get_of_ne s e hk⟩
    · exact absurd h (by simp)
  none s e h := by
    unfold KvStore.answer at h
    unfold KeyOp.step
    rw [responseMatches_keyOp]
    split at h
    · exact absurd h (by simp)
    · rename_i hag
      exact if_neg hag

/-- The operations filed under a key. -/
theorem perKey_getD (h : History) (k : Str) :
    (perKey h).getD k [] = (part HistoryEntry.key k h.completed).map HistoryEntry.keyOp := by
  unfold perKey History.completed
  rw [OrdMap.getD_collect HistoryEntry.pending HistoryEntry.key HistoryEntry.keyOp]
  rfl

theorem checkLinearizable_ok (h : History) : (checkLinearizable h).ok = true ↔
    ∀ k, checkKeyLinearizable
      ((part HistoryEntry.key k h.completed).map HistoryEntry.keyOp) = true := by
  have hall : (checkLinearizable h).ok = true ↔
      ∀ p ∈ (perKey h).toList, checkKeyLinearizable p.2 = true := by
    unfold checkLinearizable
    cases hf : (perKey h).toList.find? fun p => !checkKeyLinearizable p.2 with
    | none =>
      have := List.find?_eq_none.mp hf
      exact ⟨fun _ p hp => by simpa using this p hp, fun _ => rfl⟩
    | some p =>
      have hp := List.find?_some hf
      have hmem := List.mem_of_find?_eq_some hf
      refine ⟨fun hok => absurd hok (by simp), fun hok => ?_⟩
      rw [hok p hmem] at hp
      simp at hp
  rw [hall, OrdMap.forall_mem_toList_iff (R := fun ops => checkKeyLinearizable ops = true)
    (d := []) rfl]
  exact forall_congr' fun k => by rw [perKey_getD]

/-- Without operations of unknown outcome, the search sees all answered operations of the key. -/
theorem checkKeyLinearizable_of_certain {ops : List KeyOp} (h : ∀ op ∈ ops, op.certain = true) :
    checkKeyLinearizable ops = true ↔ Schedulable KeyOp.before KeyOp.step none ops := by
  have hputs : ops.filter KeyOp.uncertainPut = [] := by
    rw [List.filter_eq_nil_iff]
    intro op hop hu
    have hc := h op hop
    rw [uncertainPut_not_certain hu] at hc
    exact absurd hc (by decide)
  rw [checkKeyLinearizable_iff, hputs, List.filter_eq_self.mpr h]
  constructor
  · rintro ⟨S, hS, -, hsch⟩
    rw [List.sublist_nil.mp hS] at hsch
    simpa using hsch
  · exact fun hsch => ⟨[], List.Sublist.refl _, Or.inr (Or.inl rfl), by simpa using hsch⟩

/-- **The verdict on a history of definite answers is exact.** -/
theorem checkLinearizable_exact (h : History)
    (hw : ∀ e ∈ h.completed, e.invoke ≤ e.ret ∧ 0 < e.ret ∧ e.response ≠ Str.lit "timeout" ∧
      e.response ≠ Str.lit "not_leader" ∧ e.response ≠ Str.lit "node_crashed") :
    (checkLinearizable h).ok = true ↔ h.Linearizable := by
  have hcert : ∀ e ∈ h.completed, e.keyOp.certain = true := by
    intro e he
    obtain ⟨-, -, h1, h2, h3⟩ := hw e he
    have hp : e.pending = false := by simpa using (List.mem_filter.mp he).2
    simp [KeyOp.certain, HistoryEntry.keyOp, hp, h1, h2, h3]
  have hkey : ∀ k, checkKeyLinearizable
        ((part HistoryEntry.key k h.completed).map HistoryEntry.keyOp) = true ↔
      Schedulable (Precedes HistoryEntry.invoke HistoryEntry.ret)
        (fun state e => KeyOp.step state e.keyOp) (KvStore.get .empty k)
        (part HistoryEntry.key k h.completed) := by
    intro k
    have hmem : ∀ e ∈ part HistoryEntry.key k h.completed, e ∈ h.completed :=
      fun e he => (List.mem_filter.mp he).1
    rw [checkKeyLinearizable_of_certain fun op hop => ?_, schedulable_map]
    · exact ⟨fun hs => hs.mono fun a ha b _ hab => ⟨(hw a (hmem a ha)).2.1, hab⟩,
        fun hs => hs.mono fun a _ b _ hab => hab.2⟩
    · obtain ⟨e, he, rfl⟩ := List.mem_map.mp hop
      exact hcert e (hmem e he)
  rw [checkLinearizable_ok, forall_congr' hkey]
  exact (parted_answer.schedulable_iff fun e he => (hw e he).1).symm

/-- A Put, an overlapping Get that saw it, and a Cas of another key that failed. -/
def twoKeyHistory : History :=
  ⟨[⟨100, 0, .put, Str.lit "a", Str.lit "v", Str.lit "", 1, 4, Str.lit "ok", true, false⟩,
    ⟨101, 0, .get, Str.lit "a", Str.lit "", Str.lit "", 2, 3, Str.lit "v", true, false⟩,
    ⟨100, 1, .cas, Str.lit "b", Str.lit "w", Str.lit "x", 5, 6, Str.lit "cas_mismatch", false,
      false⟩,
    ⟨101, 1, .get, Str.lit "b", Str.lit "", Str.lit "", 4, 0, Str.lit "", false, true⟩]⟩

theorem checkLinearizable_exact_twoKeys : twoKeyHistory.Linearizable :=
  (checkLinearizable_exact twoKeyHistory (by decide)).mp (by decide +kernel)

end SimKV
