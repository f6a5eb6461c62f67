/-
# The log as a plain indexed sequence

`RaftLog` keeps a window of a sequence: what a snapshot covers is gone, and every
accessor corrects for it.  `Reference` is the sequence without the window.  It keeps
every entry, by its index, and next to it the term of every index; a snapshot only
writes its term down.

`Refines l r` says that `l` is `r` seen past the base.  Every call keeps it
(`Refines.append`, `truncateFrom`, `setSnapshot`), and where it holds every accessor
answers as the reference does (`Refines.answers`).  The one difference is in calls
that address what is already compacted: `RaftLog` ignores them, a plain sequence would
not.

Indices are numbers here; `SimKV.Raft.LogWords` is about the words of the code.
-/
import SimKV.Raft.Formats
import SimKV.Raft.LogRep
import Mathlib.Data.Nat.Find

namespace SimKV

/-! ## The reference -/

structure Reference where
  entry : Nat → Option LogEntry
  /-- Also where a snapshot was set and no entry is. -/
  term : Nat → Option Nat
  last : Nat

namespace Reference

/-- No entries; index 0 is the sentinel, of term 0. -/
def empty : Reference := ⟨fun _ => none, fun i => if i = 0 then some 0 else none, 0⟩

def append (e : LogEntry) (r : Reference) : Reference where
  entry i := if i = r.last + 1 then some e else r.entry i
  term i := if i = r.last + 1 then some e.term else r.term i
  last := r.last + 1

def truncateFrom (i : Nat) (r : Reference) : Reference :=
  if i > r.last then r
  else ⟨fun j => if j < i then r.entry j else none, fun j => if j < i then r.term j else none,
    i - 1⟩

/-- Nothing is discarded: the term is recorded, past the end if need be. -/
def setSnapshot (i t : Nat) (r : Reference) : Reference :=
  { r with term := fun j => if j = i then some t else r.term j, last := max r.last i }

/-! The answers, restricted to what a log with this base still knows. -/

variable (base : Nat) (r : Reference)

def entryAt (i : Nat) : Option LogEntry := if base < i then r.entry i else none

def termAt (i : Nat) : Option Nat := if base ≤ i then r.term i else none

def contains (i t : Nat) : Bool := decide (base ≤ i ∧ r.term i = some t)

/-- The entries with an index in `(lo, hi]` that are still present. -/
def slice (lo hi : Nat) : List LogEntry :=
  ((List.range (r.last + 1)).filterMap (r.entryAt base)).filter fun e =>
    decide (lo < e.index ∧ e.index ≤ hi)

def lastIndexForTerm (t : Nat) : Nat :=
  Nat.findGreatest (fun i => base ≤ i ∧ r.term i = some t) r.last

end Reference

/-! ## Refinement -/

/-- `l` is `r` seen past its base. -/
structure Refines (l : RaftLog) (r : Reference) : Prop where
  indexed : ∀ i e, l.entryAt i = some e → e.index = i
  last : r.last = l.lastIndex
  entry : ∀ i, l.baseIndex < i → r.entry i = l.entryAt i
  term : ∀ i, l.baseIndex ≤ i → r.term i = l.termAt i

namespace RaftLog

theorem entryAt_eq_none {l : RaftLog} {i : Nat} (h : l.lastIndex < i) : l.entryAt i = none := by
  unfold entryAt
  rw [if_pos (Or.inr h)]

theorem termAt_base (l : RaftLog) : l.termAt l.baseIndex = some l.baseTerm := if_pos rfl

theorem termAt_of_lt {l : RaftLog} {i : Nat} (h : l.baseIndex < i) :
    l.termAt i = (l.entryAt i).map LogEntry.term := if_neg (by omega)

theorem contains_eq {l : RaftLog} {i : Nat} (h : 0 < i) (t : Nat) :
    l.contains i t = decide (l.baseIndex ≤ i ∧ l.termAt i = some t) := by
  unfold contains
  rw [if_neg (by omega)]
  by_cases hb : i = l.baseIndex
  · subst hb
    rw [if_pos rfl, termAt_base, beq_eq_decide, decide_eq_decide, Option.some.injEq]
    exact ⟨fun ht => ⟨Nat.le_refl _, ht.symm⟩, fun ht => ht.2.symm⟩
  · rw [if_neg hb]
    by_cases hlt : i < l.baseIndex
    · rw [if_pos hlt]
      simp only [Nat.not_le.mpr hlt, false_and, decide_false]
    · rw [if_neg hlt, termAt_of_lt (by omega)]
      by_cases hlast : i > l.lastIndex
      · simp [hlast, entryAt_eq_none hlast]
      · rw [if_neg hlast, entryAt, if_neg (by omega), beq_eq_decide]
        simp only [decide_eq_decide]
        exact ⟨fun h => ⟨by omega, h⟩, And.right⟩

/-- `slice` cuts at the distances from the base. -/
theorem slice_eq (l : RaftLog) (lo hi : Nat) :
    l.slice lo hi = (l.entries.take (hi - l.baseIndex)).drop (lo - l.baseIndex) := by
  have hlen : l.lastIndex = l.baseIndex + l.entries.length := rfl
  have hnil : ∀ {a b : Nat}, min a l.entries.length ≤ b → (l.entries.take a).drop b = [] :=
    fun h => List.drop_eq_nil_of_le (by rwa [List.length_take])
  unfold slice
  split
  · exact (hnil (by omega)).symm
  · dsimp only
    split
    · exact (hnil (by omega)).symm
    · have hstart : max (lo + 1) (l.baseIndex + 1) - l.baseIndex - 1 = lo - l.baseIndex := by omega
      rw [hstart]
      congr 1
      rcases Nat.le_total hi l.lastIndex with hle | hge
      · rw [Nat.min_eq_left hle]
      · rw [Nat.min_eq_right hge, List.take_of_length_le (by omega),
          List.take_of_length_le (by omega)]

theorem truncateFrom_base (l : RaftLog) (i : Nat) :
    (l.truncateFrom i).baseIndex = l.baseIndex ∧ (l.truncateFrom i).baseTerm = l.baseTerm := by
  unfold truncateFrom
  split
  · exact ⟨rfl, rfl⟩
  · split <;> exact ⟨rfl, rfl⟩

theorem lastIndex_setSnapshot_past {l : RaftLog} {i : Nat} (t : Nat) (h : l.lastIndex < i) :
    (l.setSnapshot i t).lastIndex = i := by
  have hlen : l.lastIndex = l.baseIndex + l.entries.length := rfl
  unfold setSnapshot
  rw [if_neg (by omega)]
  change i + List.length (if i ≥ l.lastIndex then [] else _) = i
  rw [if_pos (by omega)]
  rfl

end RaftLog

/-- In consecutive entries, the ones in a range of indices are those between two positions. -/
theorem filter_index {es : List LogEntry} {b : Nat}
    (h : ∀ (k : Nat) e, es[k]? = some e → e.index = b + k + 1) (lo hi : Nat) :
    es.filter (fun e => decide (lo < e.index ∧ e.index ≤ hi)) =
      (es.take (hi - b)).drop (lo - b) := by
  induction es generalizing b with
  | nil => simp
  | cons e es ih =>
    have he : e.index = b + 1 := h 0 e rfl
    have ih' := ih (b := b + 1) fun k e' hk => by
      have := h (k + 1) e' hk
      omega
    rw [List.filter_cons, ih', he]
    rcases Nat.lt_or_ge b hi with hhi | hhi
    · obtain ⟨c, hc⟩ : ∃ c, hi - b = c + 1 := ⟨hi - b - 1, by omega⟩
      rw [show hi - (b + 1) = c by omega, hc, List.take_succ_cons]
      rcases Nat.lt_or_ge b lo with hlo | hlo
      · obtain ⟨d, hd⟩ : ∃ d, lo - b = d + 1 := ⟨lo - b - 1, by omega⟩
        rw [if_neg (by simp; omega), show lo - (b + 1) = d by omega, hd, List.drop_succ_cons]
      · rw [if_pos (by simp; omega), show lo - (b + 1) = 0 by omega, show lo - b = 0 by omega]
        rfl
    · rw [if_neg (by simp; omega), show hi - (b + 1) = 0 by omega, show hi - b = 0 by omega]
      simp

theorem filterMap_range_getElem? {α : Type} (es : List α) :
    (List.range es.length).filterMap (fun k => es[k]?) = es := by
  induction es with
  | nil => rfl
  | cons e es ih =>
    rw [List.length_cons, List.range_succ_eq_map, List.filterMap_cons, List.filterMap_map]
    simp only [List.getElem?_cons_zero]
    exact congrArg (e :: ·) ih

namespace Refines

variable {l : RaftLog} {r : Reference}

theorem empty : Refines .empty .empty where
  indexed i e h := by simp [RaftLog.entryAt, RaftLog.empty] at h
  last := rfl
  entry i h := (RaftLog.entryAt_eq_none h).symm
  term i _ := by
    cases i with
    | zero => rfl
    | succ i =>
      rw [RaftLog.termAt_of_lt (Nat.succ_pos i), RaftLog.entryAt_eq_none (Nat.succ_pos i)]
      rfl

/-! ## Calls -/

theorem append (h : Refines l r) (t : Nat) (cmd : Command) :
    Refines (l.append ⟨t, l.lastIndex + 1, cmd⟩) (r.append ⟨t, r.last + 1, cmd⟩) := by
  have hlen : l.lastIndex = l.baseIndex + l.entries.length := rfl
  have hentry : ∀ i, l.baseIndex < i → (r.append ⟨t, r.last + 1, cmd⟩).entry i =
      (l.append ⟨t, l.lastIndex + 1, cmd⟩).entryAt i := by
    intro i hi
    refine Option.ext fun x => ?_
    rw [RaftLog.entryAt_append, ← h.entry i hi, ← h.last]
    change (if i = r.last + 1 then _ else _) = some x ↔ _
    split
    · rename_i heq
      have hnone : r.entry i = none := by
        rw [h.entry i hi, RaftLog.entryAt_eq_none (by rw [heq, h.last]; omega)]
      rw [hnone]
      exact ⟨fun hx => Or.inr ⟨heq, (Option.some.inj hx).symm⟩,
        fun hx => hx.elim (fun hx => nomatch hx) fun hx => congrArg some hx.2.symm⟩
    · rename_i hne
      exact ⟨Or.inl, fun hx => hx.resolve_right fun hx => hne hx.1⟩
  refine ⟨fun i e he => ?_, ?_, hentry, fun i hi => ?_⟩
  · rcases RaftLog.entryAt_append.mp he with he | ⟨rfl, rfl⟩
    · exact h.indexed i e he
    · rfl
  · rw [RaftLog.lastIndex_append, ← h.last]
    rfl
  · change l.baseIndex ≤ i at hi
    rcases Nat.eq_or_lt_of_le hi with rfl | hlt
    · have hbase : (l.append ⟨t, l.lastIndex + 1, cmd⟩).termAt l.baseIndex = some l.baseTerm :=
        RaftLog.termAt_base _
      rw [hbase, ← l.termAt_base, ← h.term _ hi]
      exact if_neg (by rw [h.last]; omega)
    · rw [RaftLog.termAt_of_lt (l := l.append _) hlt, ← hentry i hlt]
      change (if i = r.last + 1 then some t else r.term i) =
        Option.map LogEntry.term (if i = r.last + 1 then _ else _)
      split
      · rfl
      · rw [h.term i hi, h.entry i hlt, RaftLog.termAt_of_lt hlt]

theorem truncateFrom (h : Refines l r) {i : Nat} (hb : l.baseIndex < i) :
    Refines (l.truncateFrom i) (r.truncateFrom i) := by
  obtain ⟨hbase, hbterm⟩ := l.truncateFrom_base i
  by_cases hi : i > l.lastIndex
  · rw [RaftLog.truncateFrom, if_neg (by omega), if_pos hi, Reference.truncateFrom,
      if_pos (h.last ▸ hi)]
    exact h
  · have hlast : (l.truncateFrom i).lastIndex = i - 1 :=
      Nat.eq_sub_of_add_eq (RaftLog.lastIndex_truncateFrom hb (Nat.not_lt.mp hi))
    have hr : r.truncateFrom i = ⟨fun j => if j < i then r.entry j else none,
        fun j => if j < i then r.term j else none, i - 1⟩ := by
      rw [Reference.truncateFrom, if_neg (h.last ▸ hi)]
    have hentry : ∀ j, l.baseIndex < j →
        (r.truncateFrom i).entry j = (l.truncateFrom i).entryAt j := by
      intro j hj
      rw [hr]
      change (if j < i then r.entry j else none) = _
      split
      · rename_i hlt
        rw [RaftLog.entryAt_truncateFrom hlt, h.entry j hj]
      · rw [RaftLog.entryAt_eq_none (by omega)]
    refine ⟨fun j e he => ?_, by rw [hr, hlast], fun j hj => hentry j (hbase ▸ hj), fun j hj => ?_⟩
    · have hj := (RaftLog.entryAt_le he).2
      rw [RaftLog.entryAt_truncateFrom (by omega)] at he
      exact h.indexed j e he
    · rw [hbase] at hj
      rcases Nat.eq_or_lt_of_le hj with rfl | hlt
      · rw [RaftLog.termAt, hbase, if_pos rfl, hbterm, hr]
        change (if l.baseIndex < i then _ else _) = _
        rw [if_pos hb, h.term _ hj, RaftLog.termAt_base]
      · rw [RaftLog.termAt_of_lt (hbase.symm ▸ hlt), ← hentry j hlt, hr]
        change (if j < i then _ else _) = Option.map LogEntry.term (if j < i then _ else _)
        split
        · rw [h.term j hj, h.entry j hlt, RaftLog.termAt_of_lt hlt]
        · rfl

theorem setSnapshot (h : Refines l r) {i : Nat} (t : Nat) (hb : l.baseIndex < i) :
    Refines (l.setSnapshot i t) (r.setSnapshot i t) := by
  have hlen : l.lastIndex = l.baseIndex + l.entries.length := rfl
  obtain ⟨hbase, hbterm⟩ := RaftLog.setSnapshot_base hb t
  have hentry : ∀ j, i < j → (r.setSnapshot i t).entry j = (l.setSnapshot i t).entryAt j := by
    intro j hj
    rw [RaftLog.entryAt_setSnapshot t hj]
    exact h.entry j (by omega)
  refine ⟨fun j e he => ?_, ?_, fun j hj => hentry j (hbase ▸ hj), fun j hj => ?_⟩
  · have hj := (RaftLog.entryAt_le he).1
    rw [RaftLog.entryAt_setSnapshot t (by omega)] at he
    exact h.indexed j e he
  · change max r.last i = _
    rw [h.last]
    rcases Nat.lt_or_ge l.lastIndex i with hlt | hge
    · rw [RaftLog.lastIndex_setSnapshot_past t hlt]
      omega
    · rw [RaftLog.lastIndex_setSnapshot t hge]
      omega
  · rw [hbase] at hj
    change (if j = i then some t else r.term j) = _
    split
    · rename_i heq
      rw [RaftLog.termAt, hbase, if_pos heq, hbterm]
    · rw [RaftLog.termAt_of_lt (by omega), ← hentry j (by omega), h.term j (by omega),
        RaftLog.termAt_of_lt (by omega)]
      exact congrArg _ (h.entry j (by omega)).symm

/-! ## Answers -/

theorem index (h : Refines l r) {k : Nat} {e : LogEntry} (hk : l.entries[k]? = some e) :
    e.index = l.baseIndex + k + 1 := by
  refine h.indexed _ e (RaftLog.entryAt_eq_some.mpr ⟨by omega, ?_⟩)
  rwa [show l.baseIndex + k + 1 - l.baseIndex - 1 = k by omega]

theorem lastTerm (h : Refines l r) : r.term r.last = some l.lastTerm := by
  have hlen : l.lastIndex = l.baseIndex + l.entries.length := rfl
  rw [h.last, h.term _ (by omega), RaftLog.lastTerm]
  cases hlast : l.entries.getLast? with
  | none =>
    rw [List.getLast?_eq_none_iff] at hlast
    rw [show l.lastIndex = l.baseIndex by rw [hlen, hlast]; rfl, RaftLog.termAt_base]
  | some e =>
    have hpos : 0 < l.entries.length := List.length_pos_of_mem (List.mem_of_getLast? hlast)
    have he : l.entryAt l.lastIndex = some e := by
      refine RaftLog.entryAt_eq_some.mpr ⟨by omega, ?_⟩
      rw [List.getLast?_eq_getElem?] at hlast
      rwa [hlen, show l.baseIndex + l.entries.length - l.baseIndex - 1 =
        l.entries.length - 1 by omega]
    rw [RaftLog.termAt_of_lt (by omega), he]
    rfl

theorem slice (h : Refines l r) (lo hi : Nat) : l.slice lo hi = r.slice l.baseIndex lo hi := by
  -- all that is still present is what `entries` holds
  have hpresent : (List.range (r.last + 1)).filterMap (r.entryAt l.baseIndex) = l.entries := by
    rw [h.last, show l.lastIndex + 1 = (l.baseIndex + 1) + l.entries.length by
      unfold RaftLog.lastIndex; omega, List.range_add, List.filterMap_append, List.filterMap_map]
    have hgone : (List.range (l.baseIndex + 1)).filterMap (r.entryAt l.baseIndex) = [] := by
      rw [List.filterMap_eq_nil_iff]
      intro i hi
      exact if_neg (by rw [List.mem_range] at hi; omega)
    rw [hgone, List.nil_append]
    refine Eq.trans (List.filterMap_congr fun k _ => ?_) (filterMap_range_getElem? l.entries)
    change r.entryAt l.baseIndex (l.baseIndex + 1 + k) = _
    rw [Reference.entryAt, if_pos (by omega), h.entry _ (by omega)]
    refine Option.ext fun e => ?_
    rw [RaftLog.entryAt_eq_some, show l.baseIndex + 1 + k - l.baseIndex - 1 = k by omega]
    exact ⟨And.right, fun he => ⟨by omega, he⟩⟩
  rw [Reference.slice, hpresent, filter_index fun _ _ => h.index, RaftLog.slice_eq]

theorem lastIndexForTerm (h : Refines l r) (t : Nat) :
    l.lastIndexForTerm t = r.lastIndexForTerm l.baseIndex t := by
  -- an index past the base has term `t` exactly when its entry has
  have hlater : ∀ i, l.baseIndex < i →
      (r.term i = some t ↔ ∃ e, l.entryAt i = some e ∧ e.term = t) := by
    intro i hi
    rw [h.term i (by omega), RaftLog.termAt_of_lt hi, Option.map_eq_some_iff]
  symm
  unfold Reference.lastIndexForTerm
  rw [Nat.findGreatest_eq_iff, h.last]
  unfold RaftLog.lastIndexForTerm
  cases hfind : l.entries.reverse.find? (fun e => e.term == t) with
  | some e =>
    obtain ⟨k, hk, hp, hno⟩ := LogRep.find?_last hfind
    have hat : l.entryAt (l.baseIndex + k + 1) = some e :=
      RaftLog.entryAt_eq_some.mpr ⟨by omega, by
        rwa [show l.baseIndex + k + 1 - l.baseIndex - 1 = k by omega]⟩
    have hidx := h.indexed _ e hat
    dsimp only
    have hle := (RaftLog.entryAt_le hat).2
    refine ⟨by omega, fun _ => ⟨by omega, ?_⟩, fun i hi hlast hP => ?_⟩
    · rw [hidx]
      exact (hlater _ (by omega)).mpr ⟨e, hat, by simpa using hp⟩
    · obtain ⟨e', he', ht'⟩ := (hlater i (by omega)).mp hP.2
      have hk' := (RaftLog.entryAt_eq_some.mp he').2
      have := hno _ e' (by omega) hk'
      simp [ht'] at this
  | none =>
    have hnone : ∀ i, l.baseIndex < i → r.term i ≠ some t := by
      intro i hi hterm
      obtain ⟨e, he, ht⟩ := (hlater i hi).mp hterm
      have hmem := List.mem_of_getElem? (RaftLog.entryAt_eq_some.mp he).2
      have := List.find?_eq_none.mp hfind e (List.mem_reverse.mpr hmem)
      simp [ht] at this
    have hbase : r.term l.baseIndex = some l.baseTerm := by
      rw [h.term _ (Nat.le_refl _), RaftLog.termAt_base]
    dsimp only
    split
    · rename_i hb
      refine ⟨Nat.le_add_right _ _, fun _ => ⟨Nat.le_refl _, by rw [hbase, hb.2]⟩,
        fun i hi _ hP => hnone i hi hP.2⟩
    · rename_i hb
      refine ⟨Nat.zero_le _, fun h0 => absurd rfl h0, fun i hi _ hP => ?_⟩
      rcases Nat.eq_or_lt_of_le hP.1 with heq | hlt
      · rw [← heq, hbase, Option.some.injEq] at hP
        exact hb ⟨by omega, hP.2⟩
      · exact hnone i hlt hP.2

end Refines

/-- Every accessor of the log answers as the reference does, as far as the log goes back. -/
structure Answers (l : RaftLog) (r : Reference) : Prop where
  index : ∀ k e, l.entries[k]? = some e → e.index = l.baseIndex + k + 1
  entryAt : ∀ i, l.entryAt i = r.entryAt l.baseIndex i
  slice : ∀ lo hi, l.slice lo hi = r.slice l.baseIndex lo hi
  termAt : ∀ i, l.termAt i = r.termAt l.baseIndex i
  contains : ∀ i t, 0 < i → l.contains i t = r.contains l.baseIndex i t
  lastIndex : l.lastIndex = r.last
  lastTerm : some l.lastTerm = r.term r.last
  lastIndexForTerm : ∀ t, l.lastIndexForTerm t = r.lastIndexForTerm l.baseIndex t

theorem Refines.answers {l : RaftLog} {r : Reference} (h : Refines l r) : Answers l r where
  index _ _ := h.index
  entryAt i := by
    unfold Reference.entryAt
    split
    · rename_i hi
      exact (h.entry i hi).symm
    · rename_i hi
      exact if_pos (Or.inl (Nat.not_lt.mp hi))
  slice := h.slice
  termAt i := by
    unfold Reference.termAt
    split
    · rename_i hi
      exact (h.term i hi).symm
    · rename_i hi
      rw [RaftLog.termAt, if_neg (by omega), RaftLog.entryAt, if_pos (Or.inl (by omega))]
      rfl
  contains i t hi := by
    rw [RaftLog.contains_eq hi, Reference.contains, decide_eq_decide]
    exact and_congr_right fun hb => by rw [h.term i hb]
  lastIndex := h.last.symm
  lastTerm := h.lastTerm.symm
  lastIndexForTerm := h.lastIndexForTerm

/-! ## Compaction -/

/-- A snapshot at an entry of the log, with its term, tells the reference nothing new. -/
theorem Refines.compact {l : RaftLog} {r : Reference} (h : Refines l r) {i t : Nat}
    (hb : l.baseIndex < i) (hi : i ≤ l.lastIndex) (ht : l.termAt i = some t) :
    Refines (l.setSnapshot i t) r := by
  have hsame : r.setSnapshot i t = r := by
    have hterm : (fun j => if j = i then some t else r.term j) = r.term := by
      funext j
      split
      · rename_i hj
        rw [hj, h.term i (by omega), ht]
      · rfl
    rw [Reference.setSnapshot, hterm, Nat.max_eq_left (h.last ▸ hi)]
  rw [← hsame]
  exact h.setSnapshot t hb

/-- It takes nothing away past itself. -/
theorem RaftLog.slice_setSnapshot {l : RaftLog} {i lo : Nat} (t : Nat) (hb : l.baseIndex < i)
    (hlo : i ≤ lo) (hi : Nat) : (l.setSnapshot i t).slice lo hi = l.slice lo hi := by
  have hentries : (l.setSnapshot i t).entries = l.entries.drop (i - l.baseIndex) := by
    rw [RaftLog.setSnapshot, if_neg (by omega)]
    change (if i ≥ l.lastIndex then [] else l.entries.drop (i - l.baseIndex)) = _
    split
    · rename_i hge
      unfold RaftLog.lastIndex at hge
      rw [List.drop_eq_nil_of_le (by omega)]
    · rfl
  rw [RaftLog.slice_eq, RaftLog.slice_eq, hentries, (RaftLog.setSnapshot_base hb t).1,
    List.take_drop, List.drop_drop, show i - l.baseIndex + (lo - i) = lo - l.baseIndex by omega]
  rcases Nat.lt_or_ge hi i with hlt | hge
  · rw [List.drop_eq_nil_of_le (by rw [List.length_take]; omega),
      List.drop_eq_nil_of_le (by rw [List.length_take]; omega)]
  · rw [show i - l.baseIndex + (hi - i) = hi - l.baseIndex by omega]

/-- Seen from two bases, the last index of a term is the same if it lies past both. -/
theorem Reference.lastIndexForTerm_base {r : Reference} {b i t : Nat} (hb : b ≤ i)
    (h : i < r.lastIndexForTerm b t ∨ i < r.lastIndexForTerm i t) :
    r.lastIndexForTerm i t = r.lastIndexForTerm b t := by
  rcases h with h | h
  · obtain ⟨hle, hP, hno⟩ := Nat.findGreatest_eq_iff.mp
      (rfl : r.lastIndexForTerm b t = r.lastIndexForTerm b t)
    exact Nat.findGreatest_eq_iff.mpr ⟨hle, fun h0 => ⟨by omega, (hP h0).2⟩,
      fun n hn hn' hPn => hno hn hn' ⟨by omega, hPn.2⟩⟩
  · obtain ⟨hle, hP, hno⟩ := Nat.findGreatest_eq_iff.mp
      (rfl : r.lastIndexForTerm i t = r.lastIndexForTerm i t)
    symm
    exact Nat.findGreatest_eq_iff.mpr ⟨hle, fun h0 => ⟨by omega, (hP h0).2⟩,
      fun n hn hn' hPn => hno hn hn' ⟨by omega, hPn.2⟩⟩

/-! ## Runs -/

namespace RaftLog

def saveTo (store : DurableStore UInt8) (l : RaftLog) : DurableStore UInt8 :=
  (store.append (Medium.logBytes l)).flush

/-- `load_from` on a fresh log. -/
def loadFrom (store : DurableStore UInt8) : Except String RaftLog :=
  let data := store.readDurable
  if data.isEmpty then .ok .empty else Decoder.run Medium.logReader data

/-- Indices, terms and ids are machine words, and the encoding is shorter than `2 ^ 32` bytes. -/
structure Fits (l : RaftLog) : Prop where
  baseIndex : l.baseIndex < 2 ^ 64
  baseTerm : l.baseTerm < 2 ^ 64
  words : ∀ e ∈ l.entries, e.term < 2 ^ 64 ∧ e.index < 2 ^ 64 ∧ e.cmd.Fits
  bytes : (Medium.logBytes l).length < 2 ^ 32

theorem length_entryBytes (e : LogEntry) :
    (Medium.entryBytes e).length = 20 + (Wal.encodeCommand e.cmd).length := by
  simp only [Medium.entryBytes, Encoder.u64, Encoder.blob, Encoder.u32, List.length_append,
    ByteCodec.length_le]
  omega

/-- The encoding of a log bounds the number of its entries and the length of each. -/
theorem length_flatMap_entryBytes (es : List LogEntry) :
    es.length ≤ (es.flatMap Medium.entryBytes).length ∧
      ∀ e ∈ es, (Wal.encodeCommand e.cmd).length ≤ (es.flatMap Medium.entryBytes).length := by
  induction es with
  | nil => exact ⟨Nat.le_refl _, fun e he => absurd he List.not_mem_nil⟩
  | cons e' es ih =>
    rw [List.flatMap_cons, List.length_append, length_entryBytes]
    refine ⟨by rw [List.length_cons]; omega, fun e he => ?_⟩
    rcases List.mem_cons.mp he with rfl | he
    · omega
    · have := ih.2 e he
      omega

theorem loadFrom_saveTo {l : RaftLog} (h : l.Fits) : loadFrom (l.saveTo .empty) = .ok l := by
  obtain ⟨hcount, hcmd⟩ := length_flatMap_entryBytes l.entries
  have hlen : (Medium.logBytes l).length = 20 + (l.entries.flatMap Medium.entryBytes).length := by
    simp only [Medium.logBytes, Encoder.u64, Encoder.u32, List.length_append, ByteCodec.length_le]
    omega
  have hbytes := h.bytes
  have hdata : (l.saveTo .empty).readDurable = Medium.logBytes l := by
    rw [saveTo, DurableStore.flush_append_empty, DurableStore.readDurable_holding]
  have hne : (Medium.logBytes l).isEmpty = false := by
    cases hl : Medium.logBytes l with
    | nil => rw [hl] at hlen; simp at hlen; omega
    | cons b bs => rfl
  rw [loadFrom, hdata]
  simp only [hne, Bool.false_eq_true, if_false]
  refine Medium.run_of_reads (Medium.log_reads h.baseIndex h.baseTerm (by omega) fun e he => ?_)
  obtain ⟨ht, hi, hf⟩ := h.words e he
  have := hcmd e he
  exact ⟨ht, hi, hf, by omega⟩

end RaftLog

/-- A call on the log. -/
inductive LogCall where
  /-- With index `last_index() + 1`. -/
  | append (term : Nat) (cmd : Command)
  | truncateFrom (i : UInt64)
  | setSnapshot (i : UInt64) (t : Nat)
  /-- `save_to` a store and `load_from` it into a fresh log. -/
  | reload
deriving DecidableEq, Repr

/-- The call addresses only what lies at or before the base. -/
def LogCall.compacted (base : Nat) : LogCall → Bool
  | .truncateFrom i | .setSnapshot i _ => decide (i.toNat ≤ base)
  | .append _ _ | .reload => false

/-- The base after a call. -/
def LogCall.base (base : Nat) : LogCall → Nat
  | .setSnapshot i _ => max base i.toNat
  | _ => base

def RaftLog.call (l : RaftLog) : LogCall → Except String RaftLog
  | .append term cmd => .ok (l.append ⟨term, l.lastIndex + 1, cmd⟩)
  | .truncateFrom i => .ok (l.truncateFrom i.toNat)
  | .setSnapshot i t => .ok (l.setSnapshot i.toNat t)
  | .reload => RaftLog.loadFrom (l.saveTo .empty)

namespace Reference

/-- The call on a sequence that knows of no base. -/
def call (r : Reference) : LogCall → Reference
  | .append term cmd => r.append ⟨term, r.last + 1, cmd⟩
  | .truncateFrom i => r.truncateFrom i.toNat
  | .setSnapshot i t => r.setSnapshot i.toNat t
  | .reload => r

/-- The call, unless it addresses only what is compacted. -/
def guarded (p : Nat × Reference) (c : LogCall) : Nat × Reference :=
  (c.base p.1, if c.compacted p.1 then p.2 else p.2.call c)

/-- The sequence after the calls, those that address only what is compacted left out. -/
def calls (cs : List LogCall) : Nat × Reference := cs.foldl guarded (0, .empty)

end Reference

/-- A log that goes through a call, and its reference. -/
theorem Refines.call {l : RaftLog} {r : Reference} (h : Refines l r) {c : LogCall}
    (hfit : c = .reload → l.Fits) :
    ∃ l', l.call c = .ok l' ∧ l'.baseIndex = c.base l.baseIndex ∧
      Refines l' (if c.compacted l.baseIndex then r else r.call c) := by
  cases c with
  | append t cmd => exact ⟨_, rfl, rfl, h.append t cmd⟩
  | truncateFrom i =>
    refine ⟨_, rfl, (l.truncateFrom_base i.toNat).1, ?_⟩
    simp only [LogCall.compacted, decide_eq_true_eq]
    split
    · rename_i hi
      rw [RaftLog.truncateFrom, if_pos hi]
      exact h
    · rename_i hi
      exact h.truncateFrom (Nat.not_le.mp hi)
  | setSnapshot i t =>
    refine ⟨_, rfl, ?_⟩
    simp only [LogCall.compacted, LogCall.base, decide_eq_true_eq]
    split
    · rename_i hi
      rw [RaftLog.setSnapshot, if_pos hi]
      exact ⟨(Nat.max_eq_left hi).symm, h⟩
    · rename_i hi
      have hlt := Nat.not_le.mp hi
      exact ⟨(RaftLog.setSnapshot_base hlt t).1.trans (Nat.max_eq_right (Nat.le_of_lt hlt)).symm,
        h.setSnapshot t hlt⟩
  | reload =>
    refine ⟨l, ?_, rfl, h⟩
    rw [RaftLog.call]
    exact RaftLog.loadFrom_saveTo (hfit rfl)

end SimKV
