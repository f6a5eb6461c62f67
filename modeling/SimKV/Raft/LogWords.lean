/-
# The log in machine words

`Index` is a `uint64_t`, and `raft/log.cpp` computes with it: `last_index()` is a sum, and a
position in the vector is a difference from `base_index_`.  `WordLog` is the log with this
arithmetic, modulo `2 ^ 64`, where `RaftLog` of `SimKV.Raft.Log` has numbers.

The two agree, call by call and answer by answer, as long as the last index is below
`2 ^ 64 - 1` (`Stands`), and then both are the plain sequence of `SimKV.Raft.LogReference`
(`raftLog_refines`).  At `2 ^ 64 - 1` itself `base_index_ + 1` is 0, and `slice` reads outside of
the vector.

Terms are only compared; they stay numbers.
-/
import SimKV.Raft.LogReference

namespace SimKV

/-- `RaftLog`, with `base_index_` a word. -/
structure WordLog where
  entries : List LogEntry
  baseIndex : UInt64
  baseTerm : Nat
deriving DecidableEq, Repr

namespace WordLog

def empty : WordLog := ⟨[], 0, 0⟩

def lastIndex (w : WordLog) : UInt64 := w.baseIndex + UInt64.ofNat w.entries.length

def lastTerm (w : WordLog) : Nat :=
  match w.entries.getLast? with
  | none => w.baseTerm
  | some e => e.term

def append (e : LogEntry) (w : WordLog) : WordLog := { w with entries := w.entries ++ [e] }

def truncateFrom (i : UInt64) (w : WordLog) : WordLog :=
  if i ≤ w.baseIndex then w
  else if i > w.lastIndex then w
  else { w with entries := w.entries.take (i - w.baseIndex - 1).toNat }

def setSnapshot (i : UInt64) (t : Nat) (w : WordLog) : WordLog :=
  if i ≤ w.baseIndex then w
  else
    let entries := if i ≥ w.lastIndex then [] else w.entries.drop (i - w.baseIndex).toNat
    ⟨entries, i, t⟩

/-- `at`; `none` where the source throws. -/
def entryAt (w : WordLog) (i : UInt64) : Option LogEntry :=
  if i ≤ w.baseIndex ∨ i > w.lastIndex then none else w.entries[(i - w.baseIndex - 1).toNat]?

def termAt (w : WordLog) (i : UInt64) : Option Nat :=
  if i = w.baseIndex then some w.baseTerm else (w.entryAt i).map LogEntry.term

def contains (w : WordLog) (i : UInt64) (t : Nat) : Bool :=
  if i = 0 then true
  else if i = w.baseIndex then t == w.baseTerm
  else if i < w.baseIndex then false
  else if i > w.lastIndex then false
  else (w.entries[(i - w.baseIndex - 1).toNat]?).map LogEntry.term == some t

/-- The elements of a vector between two positions; `none` if these are not positions of the
vector, in this order. -/
def between (es : List LogEntry) (a b : Nat) : Option (List LogEntry) :=
  if a ≤ b ∧ b ≤ es.length then some ((es.take b).drop a) else none

/-- `none` where the source reads outside of the vector. -/
def slice (w : WordLog) (lo hi : UInt64) : Option (List LogEntry) :=
  if lo ≥ hi then some []
  else
    -- `std::max` and `std::min`
    let start := if lo + 1 < w.baseIndex + 1 then w.baseIndex + 1 else lo + 1
    let stop := if w.lastIndex < hi then w.lastIndex else hi
    if start > stop then some []
    else between w.entries (start - w.baseIndex - 1).toNat (stop - w.baseIndex).toNat

def lastIndexForTerm (w : WordLog) (t : Nat) : UInt64 :=
  match w.entries.reverse.find? (fun e => e.term == t) with
  | some e => UInt64.ofNat e.index
  | none => if w.baseIndex > 0 ∧ w.baseTerm = t then w.baseIndex else 0

/-- What `save_to` writes is what it reads in the fields. -/
def saveTo (store : DurableStore UInt8) (w : WordLog) : DurableStore UInt8 :=
  RaftLog.saveTo store ⟨w.entries, w.baseIndex.toNat, w.baseTerm⟩

def loadFrom (store : DurableStore UInt8) : Except String WordLog :=
  (RaftLog.loadFrom store).map fun l => ⟨l.entries, UInt64.ofNat l.baseIndex, l.baseTerm⟩

def call (w : WordLog) : LogCall → Except String WordLog
  | .append term cmd => .ok (w.append ⟨term, (w.lastIndex + 1).toNat, cmd⟩)
  | .truncateFrom i => .ok (w.truncateFrom i)
  | .setSnapshot i t => .ok (w.setSnapshot i t)
  | .reload => loadFrom (w.saveTo .empty)

def calls (cs : List LogCall) : Except String WordLog := cs.foldlM call .empty

/-! ## Words and numbers -/

/-- `w` has the entries and the base of `l`, and the last index is below the largest word. -/
structure Stands (w : WordLog) (l : RaftLog) : Prop where
  entries : w.entries = l.entries
  base : w.baseIndex.toNat = l.baseIndex
  term : w.baseTerm = l.baseTerm
  small : l.lastIndex < 2 ^ 64 - 1

namespace Stands

variable {w : WordLog} {l : RaftLog}

theorem empty : Stands .empty .empty := ⟨rfl, rfl, rfl, by decide⟩

/-- The sum in `last_index()` does not wrap. -/
theorem lastIndex (h : Stands w l) : w.lastIndex.toNat = l.lastIndex := by
  have hsmall := h.small
  unfold RaftLog.lastIndex at hsmall ⊢
  rw [WordLog.lastIndex, UInt64.toNat_add, UInt64.toNat_ofNat', h.entries, h.base]
  omega

theorem le_base_iff (h : Stands w l) (i : UInt64) : i ≤ w.baseIndex ↔ i.toNat ≤ l.baseIndex := by
  rw [UInt64.le_iff_toNat_le, h.base]

theorem last_lt_iff (h : Stands w l) (i : UInt64) : i > w.lastIndex ↔ i.toNat > l.lastIndex := by
  rw [gt_iff_lt, UInt64.lt_iff_toNat_lt, h.lastIndex]

theorem eq_base_iff (h : Stands w l) (i : UInt64) : i = w.baseIndex ↔ i.toNat = l.baseIndex := by
  rw [← UInt64.toNat_inj, h.base]

/-- Neither does a distance from the base. -/
theorem distance (h : Stands w l) {i : UInt64} (hi : l.baseIndex ≤ i.toNat) :
    (i - w.baseIndex).toNat = i.toNat - l.baseIndex := by
  rw [UInt64.toNat_sub_of_le _ _ (UInt64.le_iff_toNat_le.mpr (h.base ▸ hi)), h.base]

theorem position (h : Stands w l) {i : UInt64} (hi : l.baseIndex < i.toNat) :
    (i - w.baseIndex - 1).toNat = i.toNat - l.baseIndex - 1 := by
  have hd := h.distance (Nat.le_of_lt hi)
  rw [UInt64.toNat_sub_of_le, hd]
  · rfl
  · rw [UInt64.le_iff_toNat_le, hd]
    change 1 ≤ _
    omega

/-! ### Calls -/

theorem append (h : Stands w l) {e : LogEntry} (hsmall : (l.append e).lastIndex < 2 ^ 64 - 1) :
    Stands (w.append e) (l.append e) :=
  ⟨congrArg (· ++ [e]) h.entries, h.base, h.term, hsmall⟩

theorem truncateFrom (h : Stands w l) (i : UInt64) :
    Stands (w.truncateFrom i) (l.truncateFrom i.toNat) := by
  unfold WordLog.truncateFrom RaftLog.truncateFrom
  simp only [h.le_base_iff, h.last_lt_iff]
  split
  · exact h
  · rename_i hb
    split
    · exact h
    · have hsmall := h.small
      refine ⟨?_, h.base, h.term, ?_⟩
      · change w.entries.take _ = l.entries.take _
        rw [h.entries, h.position (Nat.not_le.mp hb)]
      · change l.baseIndex + (l.entries.take _).length < _
        unfold RaftLog.lastIndex at hsmall
        rw [List.length_take]
        omega

theorem setSnapshot (h : Stands w l) {i : UInt64} (t : Nat)
    (hsmall : (l.setSnapshot i.toNat t).lastIndex < 2 ^ 64 - 1) :
    Stands (w.setSnapshot i t) (l.setSnapshot i.toNat t) := by
  revert hsmall
  unfold WordLog.setSnapshot RaftLog.setSnapshot
  simp only [h.le_base_iff]
  split
  · exact fun _ => h
  · rename_i hb
    intro hsmall
    refine ⟨?_, rfl, rfl, hsmall⟩
    have hlast : i ≥ w.lastIndex ↔ i.toNat ≥ l.lastIndex := by
      rw [ge_iff_le, UInt64.le_iff_toNat_le, h.lastIndex]
    simp only [hlast, h.entries, h.distance (Nat.le_of_lt (Nat.not_le.mp hb))]

/-! ### Answers -/

theorem entryAt (h : Stands w l) (i : UInt64) : w.entryAt i = l.entryAt i.toNat := by
  unfold WordLog.entryAt RaftLog.entryAt
  simp only [h.le_base_iff, h.last_lt_iff]
  split
  · rfl
  · rename_i hi
    rw [h.entries, h.position (by omega)]

theorem termAt (h : Stands w l) (i : UInt64) : w.termAt i = l.termAt i.toNat := by
  unfold WordLog.termAt RaftLog.termAt
  simp only [h.eq_base_iff, h.term, h.entryAt]

theorem contains (h : Stands w l) (i : UInt64) (t : Nat) :
    w.contains i t = l.contains i.toNat t := by
  have hlt : i < w.baseIndex ↔ i.toNat < l.baseIndex := by
    rw [UInt64.lt_iff_toNat_lt, h.base]
  have hzero : i = 0 ↔ i.toNat = 0 := by
    rw [← UInt64.toNat_inj]
    rfl
  unfold WordLog.contains RaftLog.contains
  simp only [hzero, h.eq_base_iff, hlt, h.last_lt_iff, h.term, h.entries]
  split
  · rfl
  · split
    · rfl
    · split
      · rfl
      · split
        · rfl
        · rw [h.position (by omega)]

theorem lastTerm (h : Stands w l) : w.lastTerm = l.lastTerm := by
  have hl : (⟨w.entries, l.baseIndex, w.baseTerm⟩ : RaftLog).lastTerm = l.lastTerm := by
    rw [h.entries, h.term]
  exact hl

/-- The bounds of `slice` do not wrap either: `lo + 1` could, but not if `hi` is past `lo`. -/
theorem slice (h : Stands w l) (lo hi : UInt64) :
    w.slice lo hi = some (l.slice lo.toNat hi.toNat) := by
  have hlast := h.lastIndex
  have hbase := h.base
  have hsmall := h.small
  have hlen : l.lastIndex = l.baseIndex + l.entries.length := rfl
  have hword := hi.toNat_lt
  unfold WordLog.slice RaftLog.slice
  simp only [ge_iff_le, UInt64.le_iff_toNat_le]
  split
  · rfl
  · rename_i hlt
    have hlo : (lo + 1).toNat = lo.toNat + 1 := by
      rw [UInt64.toNat_add]
      change (lo.toNat + 1) % 2 ^ 64 = _
      omega
    have hb : (w.baseIndex + 1).toNat = l.baseIndex + 1 := by
      rw [UInt64.toNat_add, hbase]
      change (l.baseIndex + 1) % 2 ^ 64 = _
      omega
    obtain ⟨start, hs⟩ : ∃ start, start =
        if lo + 1 < w.baseIndex + 1 then w.baseIndex + 1 else lo + 1 := ⟨_, rfl⟩
    obtain ⟨stop, he⟩ : ∃ stop, stop = if w.lastIndex < hi then w.lastIndex else hi := ⟨_, rfl⟩
    have hstart : start.toNat = max (lo.toNat + 1) (l.baseIndex + 1) := by
      have hcmp : lo + 1 < w.baseIndex + 1 ↔ lo.toNat + 1 < l.baseIndex + 1 := by
        rw [UInt64.lt_iff_toNat_lt, hlo, hb]
      rw [hs]
      split
      · have := hcmp.mp ‹_›
        omega
      · have := mt hcmp.mpr ‹_›
        omega
    have hstop : stop.toNat = min hi.toNat l.lastIndex := by
      have hcmp : w.lastIndex < hi ↔ l.lastIndex < hi.toNat := by
        rw [UInt64.lt_iff_toNat_lt, hlast]
      rw [he]
      split
      · have := hcmp.mp ‹_›
        omega
      · have := mt hcmp.mpr ‹_›
        omega
    rw [← hs, ← he]
    simp only [gt_iff_lt, UInt64.lt_iff_toNat_lt, hstart, hstop]
    split
    · rfl
    · rename_i hle
      rw [h.position (i := start) (by omega), h.distance (i := stop) (by omega), hstart, hstop,
        h.entries, between, if_pos (by omega)]

theorem lastIndexForTerm (h : Stands w l) (hindex : ∀ e ∈ l.entries, e.index ≤ l.lastIndex)
    (t : Nat) : (w.lastIndexForTerm t).toNat = l.lastIndexForTerm t := by
  have hpos : w.baseIndex > 0 ↔ l.baseIndex > 0 := by
    rw [gt_iff_lt, UInt64.lt_iff_toNat_lt, h.base]
    rfl
  unfold WordLog.lastIndexForTerm RaftLog.lastIndexForTerm
  rw [h.entries, h.term]
  simp only [hpos]
  cases hf : l.entries.reverse.find? (fun e => e.term == t) with
  | some e =>
    have hle := hindex e (List.mem_reverse.mp (List.mem_of_find?_eq_some hf))
    have hsmall := h.small
    change (UInt64.ofNat e.index).toNat = e.index
    rw [UInt64.toNat_ofNat']
    omega
  | none =>
    dsimp only
    split
    · exact h.base
    · rfl

end Stands

/-! ## Runs -/

/-- What is saved is shorter than `2 ^ 32` bytes, and terms, indices and ids are words. -/
def Fits (w : WordLog) : Prop := RaftLog.Fits ⟨w.entries, w.baseIndex.toNat, w.baseTerm⟩

theorem loadFrom_saveTo {w : WordLog} (hfit : w.Fits) :
    loadFrom (w.saveTo .empty) = .ok w := by
  rw [loadFrom, saveTo, RaftLog.loadFrom_saveTo hfit]
  change Except.ok (WordLog.mk w.entries (UInt64.ofNat w.baseIndex.toNat) w.baseTerm) = _
  rw [UInt64.ofNat_toNat]

theorem Stands.fits {w : WordLog} {l : RaftLog} (h : Stands w l) (hfit : w.Fits) : l.Fits := by
  have hl : (⟨w.entries, w.baseIndex.toNat, w.baseTerm⟩ : RaftLog) = l := by
    rw [h.entries, h.base, h.term]
  rwa [Fits, hl] at hfit

/-- A call on the words is the call on the numbers, if the last index stays small. -/
theorem Stands.call {w : WordLog} {l l' : RaftLog} (h : Stands w l) {c : LogCall}
    (hfit : c = .reload → w.Fits) (hl' : l.call c = .ok l') (hsmall : l'.lastIndex < 2 ^ 64 - 1) :
    ∃ w', w.call c = .ok w' ∧ Stands w' l' := by
  cases c with
  | append term cmd =>
    cases hl'
    have hnext : (w.lastIndex + 1).toNat = l.lastIndex + 1 := by
      rw [UInt64.toNat_add, h.lastIndex]
      rw [RaftLog.lastIndex_append] at hsmall
      change (l.lastIndex + 1) % 2 ^ 64 = _
      omega
    refine ⟨_, rfl, ?_⟩
    rw [hnext]
    exact h.append hsmall
  | truncateFrom i =>
    cases hl'
    exact ⟨_, rfl, h.truncateFrom i⟩
  | setSnapshot i t =>
    cases hl'
    exact ⟨_, rfl, h.setSnapshot t hsmall⟩
  | reload =>
    have hsame : l' = l :=
      Except.ok.inj (hl'.symm.trans (RaftLog.loadFrom_saveTo (h.fits (hfit rfl))))
    exact ⟨w, loadFrom_saveTo (hfit rfl), hsame ▸ h⟩

/-- **Along a run, the words are numbers, and these the reference seen past the base.**  Induction
on the calls, from the last one. -/
theorem stands_calls (cs : List LogCall)
    (hsmall : ∀ cs', cs' <+: cs → (Reference.calls cs').2.last < 2 ^ 64 - 1)
    (hfit : ∀ cs', cs' ++ [.reload] <+: cs → ∀ w, calls cs' = .ok w → w.Fits) :
    ∃ w l, calls cs = .ok w ∧ Stands w l ∧ l.baseIndex = (Reference.calls cs).1 ∧
      Refines l (Reference.calls cs).2 := by
  induction cs using List.reverseRecOn with
  | nil => exact ⟨.empty, .empty, rfl, .empty, rfl, .empty⟩
  | append_singleton cs c ih =>
    obtain ⟨w, l, hw, hst, hbase, href⟩ := ih
      (fun cs' hpre => hsmall cs' (hpre.trans (List.prefix_append _ _)))
      (fun cs' hpre => hfit cs' (hpre.trans (List.prefix_append _ _)))
    have hfits : c = .reload → w.Fits := fun hc => hfit cs (by rw [hc]) w hw
    obtain ⟨l', hl', hbase', href'⟩ := href.call (c := c) fun hc => hst.fits (hfits hc)
    have hgrd : Reference.calls (cs ++ [c]) = Reference.guarded (Reference.calls cs) c := by
      rw [Reference.calls, List.foldl_append]
      rfl
    rw [hbase] at hbase' href'
    have hlast := hsmall (cs ++ [c]) (List.prefix_refl _)
    rw [hgrd, Reference.guarded, href'.last] at hlast
    obtain ⟨w', hw', hst'⟩ := hst.call hfits hl' hlast
    refine ⟨w', l', ?_, hst', ?_, ?_⟩
    · unfold calls at hw ⊢
      rw [List.foldlM_append, hw]
      change List.foldlM call w [c] = _
      rw [List.foldlM_cons, hw']
      rfl
    · rw [hgrd, hbase']
      rfl
    · rw [hgrd]
      exact href'

/-- Every accessor of the log answers as the reference does, as far as the log goes back. -/
structure Answers (w : WordLog) (r : Reference) : Prop where
  index : ∀ k e, w.entries[k]? = some e → e.index = w.baseIndex.toNat + k + 1
  entryAt : ∀ i, w.entryAt i = r.entryAt w.baseIndex.toNat i.toNat
  slice : ∀ lo hi, w.slice lo hi = some (r.slice w.baseIndex.toNat lo.toNat hi.toNat)
  termAt : ∀ i, w.termAt i = r.termAt w.baseIndex.toNat i.toNat
  contains : ∀ i t, 0 < i → w.contains i t = r.contains w.baseIndex.toNat i.toNat t
  lastIndex : w.lastIndex.toNat = r.last
  lastTerm : some w.lastTerm = r.term r.last
  lastIndexForTerm : ∀ t,
    (w.lastIndexForTerm t).toNat = r.lastIndexForTerm w.baseIndex.toNat t

/-- `w'` answers every question about an index past `i` as `w` does. -/
structure SameAbove (i : UInt64) (w w' : WordLog) : Prop where
  lastIndex : w'.lastIndex = w.lastIndex
  lastTerm : w'.lastTerm = w.lastTerm
  entryAt : ∀ j, i < j → w'.entryAt j = w.entryAt j
  termAt : ∀ j, i < j → w'.termAt j = w.termAt j
  contains : ∀ j t, i < j → w'.contains j t = w.contains j t
  slice : ∀ lo hi, i ≤ lo → w'.slice lo hi = w.slice lo hi
  lastIndexForTerm : ∀ t, i < w.lastIndexForTerm t ∨ i < w'.lastIndexForTerm t →
    w'.lastIndexForTerm t = w.lastIndexForTerm t

section

variable {w : WordLog} {l : RaftLog} {r : Reference}

theorem Stands.index_le (href : Refines l r) : ∀ e ∈ l.entries, e.index ≤ l.lastIndex := by
  intro e he
  obtain ⟨k, hk, rfl⟩ := List.getElem_of_mem he
  rw [href.index (List.getElem?_eq_getElem hk)]
  unfold RaftLog.lastIndex
  omega

theorem Stands.answers (h : Stands w l) (href : Refines l r) : Answers w r := by
  have ha := href.answers
  constructor
  · intro k e hk
    rw [h.base]
    exact ha.index k e (h.entries ▸ hk)
  · intro i
    rw [h.entryAt, h.base, ha.entryAt]
  · intro lo hi
    rw [h.slice, h.base, ha.slice]
  · intro i
    rw [h.termAt, h.base, ha.termAt]
  · intro i t hi
    rw [h.contains, h.base, ha.contains _ _ (UInt64.lt_iff_toNat_lt.mp hi)]
  · rw [h.lastIndex, ha.lastIndex]
  · rw [h.lastTerm, ha.lastTerm]
  · intro t
    rw [h.lastIndexForTerm (index_le href), h.base, ha.lastIndexForTerm]

theorem Stands.sameAbove (h : Stands w l) (href : Refines l r) {i : UInt64} {t : Nat}
    (hb : w.baseIndex < i) (hi : i ≤ w.lastIndex) (ht : w.termAt i = some t) :
    SameAbove i w (w.setSnapshot i t) := by
  have hb' : l.baseIndex < i.toNat := by
    rw [← h.base]
    exact UInt64.lt_iff_toNat_lt.mp hb
  have hi' : i.toNat ≤ l.lastIndex := by
    rw [← h.lastIndex]
    exact UInt64.le_iff_toNat_le.mp hi
  have href' := href.compact hb' hi' (by rw [← h.termAt, ht])
  have hlast := href'.last.symm.trans href.last
  have hbase := (RaftLog.setSnapshot_base hb' t).1
  have h' : Stands (w.setSnapshot i t) (l.setSnapshot i.toNat t) :=
    h.setSnapshot t (by rw [hlast]; exact h.small)
  constructor
  · rw [← UInt64.toNat_inj, h'.lastIndex, h.lastIndex, hlast]
  · rw [h'.lastTerm, h.lastTerm]
    exact Option.some.inj (href'.lastTerm.symm.trans href.lastTerm)
  · intro j hj
    have hj := UInt64.lt_iff_toNat_lt.mp hj
    rw [h'.entryAt, h.entryAt, ← href'.entry _ (by omega), ← href.entry _ (by omega)]
  · intro j hj
    have hj := UInt64.lt_iff_toNat_lt.mp hj
    rw [h'.termAt, h.termAt, ← href'.term _ (by omega), ← href.term _ (by omega)]
  · intro j u hj
    have hj := UInt64.lt_iff_toNat_lt.mp hj
    rw [h'.contains, h.contains, href'.answers.contains _ _ (by omega),
      href.answers.contains _ _ (by omega), hbase, Reference.contains, Reference.contains,
      decide_eq_decide]
    exact and_congr_left fun _ => ⟨fun _ => by omega, fun _ => by omega⟩
  · intro lo hi hlo
    rw [h'.slice, h.slice, RaftLog.slice_setSnapshot t hb' (UInt64.le_iff_toNat_le.mp hlo)]
  · intro u hu
    rw [UInt64.lt_iff_toNat_lt, UInt64.lt_iff_toNat_lt] at hu
    rw [← UInt64.toNat_inj]
    rw [h.lastIndexForTerm (index_le href), h'.lastIndexForTerm (index_le href'),
      href.lastIndexForTerm, href'.lastIndexForTerm, hbase] at hu ⊢
    exact Reference.lastIndexForTerm_base (Nat.le_of_lt hb') hu

end

end WordLog

/-- **The log refines a plain indexed sequence.**  After any calls on an empty log that keep the
last index below `2 ^ 64 - 1`, every accessor answers as on the sequence that was never compacted,
as far as the log goes back; calls that address only what is compacted change neither.  A snapshot
at an index of the log, with its term, changes no answer past it. -/
theorem raftLog_refines (cs : List LogCall)
    (hsmall : ∀ cs', cs' <+: cs → (Reference.calls cs').2.last < 2 ^ 64 - 1)
    (hfit : ∀ cs', cs' ++ [.reload] <+: cs → ∀ w, WordLog.calls cs' = .ok w → w.Fits) :
    ∃ w, WordLog.calls cs = .ok w ∧ w.baseIndex.toNat = (Reference.calls cs).1 ∧
      w.Answers (Reference.calls cs).2 ∧
      ∀ i t, w.baseIndex < i → i ≤ w.lastIndex → w.termAt i = some t →
        WordLog.SameAbove i w (w.setSnapshot i t) := by
  obtain ⟨w, l, hw, h, hbase, href⟩ := WordLog.stands_calls cs hsmall hfit
  exact ⟨w, hw, h.base.trans hbase, h.answers href, fun i t hb hi ht => h.sameAbove href hb hi ht⟩

/-- Three entries, the first one compacted, the last one cut off, and a reload. -/
def compactedReload : List LogCall :=
  [.append 1 (.get (Str.lit "a")), .append 1 (.get (Str.lit "b")), .append 2 (.get (Str.lit "c")),
    .setSnapshot 1 1, .truncateFrom 3, .reload]

theorem raftLog_refines_reload :
    ∃ w, WordLog.calls compactedReload = .ok w ∧
      w.baseIndex.toNat = (Reference.calls compactedReload).1 ∧
      w.Answers (Reference.calls compactedReload).2 ∧
      ∀ i t, w.baseIndex < i → i ≤ w.lastIndex → w.termAt i = some t →
        WordLog.SameAbove i w (w.setSnapshot i t) := by
  refine raftLog_refines compactedReload (fun cs' hpre => ?_) fun cs' hpre w hw => ?_
  · have hall : ∀ cs ∈ compactedReload.inits, (Reference.calls cs).2.last < 2 ^ 64 - 1 := by
      decide
    exact hall cs' ((List.mem_inits _ _).mpr hpre)
  · have hfull : ∀ cs ∈ compactedReload.inits,
        cs.getLast? = some .reload → cs = compactedReload := by
      decide
    have hcs := congrArg List.dropLast
      (hfull _ ((List.mem_inits _ _).mpr hpre) List.getLast?_concat)
    rw [List.dropLast_concat] at hcs
    have hrun : WordLog.calls compactedReload.dropLast =
        .ok ⟨[⟨1, 2, .get (Str.lit "b")⟩], 1, 1⟩ := rfl
    rw [hcs, hrun, Except.ok.injEq] at hw
    exact hw ▸ ⟨by decide, by decide, by decide, by decide⟩

-- with the largest word as its base, a log reads past its empty vector
example : (WordLog.empty.setSnapshot 18446744073709551615 1).slice 0 5 = none := by decide

/-- Two entries, the first one compacted, and a truncation from the first one. -/
def compactedTruncation : List LogCall :=
  [.append 1 (.get (Str.lit "a")), .append 1 (.get (Str.lit "b")), .setSnapshot 1 1,
    .truncateFrom 1]

/-- **A truncation of what is compacted is ignored**: the second entry is still there.  A plain
sequence would have lost it. -/
theorem compacted_truncation_ignored :
    (WordLog.calls compactedTruncation).toOption.map (fun w => (w.baseIndex, w.entryAt 2)) =
      some (1, some ⟨1, 2, .get (Str.lit "b")⟩) ∧
    (compactedTruncation.foldl Reference.call .empty).entryAt 1 2 = none := by
  decide

end SimKV
