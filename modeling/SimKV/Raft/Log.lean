/-
# `raft/log.{hpp,cpp}`: the log container

Indices are 1-based and absolute: after compaction the entries up to
`baseIndex` are gone and `entries[k]` holds index `baseIndex + k + 1`.  The
accessors that throw `std::out_of_range` in the source return `none` here, and
their callers in `SimKV.Raft.Node` turn that into the exception.

Indices are numbers.  In the source they are 64-bit words; `SimKV.Raft.LogWords` has the
arithmetic of the source, which is the one here as long as `lastIndex` is below `2 ^ 64 - 1`.

`append` asserts `entry.index == last_index() + 1`; the model pushes the entry
without the check, as a build with `NDEBUG` does.
-/
import SimKV.Raft.Types

namespace SimKV

@[ext] structure RaftLog where
  entries : List LogEntry
  baseIndex : Nat
  baseTerm : Nat
deriving DecidableEq, Repr

namespace RaftLog

def empty : RaftLog := ⟨[], 0, 0⟩

instance : Inhabited RaftLog := ⟨empty⟩

def lastIndex (l : RaftLog) : Nat := l.baseIndex + l.entries.length

def lastTerm (l : RaftLog) : Nat :=
  match l.entries.getLast? with
  | none => l.baseTerm
  | some e => e.term

/-- Entries in memory, after compaction. -/
def size (l : RaftLog) : Nat := l.entries.length

def append (e : LogEntry) (l : RaftLog) : RaftLog := { l with entries := l.entries ++ [e] }

/-- Drop the entries from index `i` on, unless `i` is compacted or past the end. -/
def truncateFrom (i : Nat) (l : RaftLog) : RaftLog :=
  if i ≤ l.baseIndex then l
  else if i > l.lastIndex then l
  else { l with entries := l.entries.take (i - l.baseIndex - 1) }

/-- Discard all entries with index up to `i` and make `(i, t)` the new base. -/
def setSnapshot (i : Nat) (t : Nat) (l : RaftLog) : RaftLog :=
  if i ≤ l.baseIndex then l
  else
    let entries := if i ≥ l.lastIndex then [] else l.entries.drop (i - l.baseIndex)
    ⟨entries, i, t⟩

/-- `at`: the entry at absolute index `i`, `none` where the source throws. -/
def entryAt (l : RaftLog) (i : Nat) : Option LogEntry :=
  if i ≤ l.baseIndex ∨ i > l.lastIndex then none else l.entries[i - l.baseIndex - 1]?

/-- The term at absolute index `i`, `none` where the source throws. -/
def termAt (l : RaftLog) (i : Nat) : Option Nat :=
  if i = l.baseIndex then some l.baseTerm else (l.entryAt i).map LogEntry.term

def contains (l : RaftLog) (i : Nat) (t : Nat) : Bool :=
  if i = 0 then true
  else if i = l.baseIndex then t == l.baseTerm
  else if i < l.baseIndex then false
  else if i > l.lastIndex then false
  else (l.entries[i - l.baseIndex - 1]?).map LogEntry.term == some t

/-- The entries in `(lo, hi]` that are still present. -/
def slice (l : RaftLog) (lo hi : Nat) : List LogEntry :=
  if lo ≥ hi then []
  else
    let start := max (lo + 1) (l.baseIndex + 1)
    let stop := min hi l.lastIndex
    if start > stop then []
    else (l.entries.take (stop - l.baseIndex)).drop (start - l.baseIndex - 1)

/-- The last absolute index with term `t`, 0 if there is none. -/
def lastIndexForTerm (l : RaftLog) (t : Nat) : Nat :=
  match l.entries.reverse.find? (fun e => e.term == t) with
  | some e => e.index
  | none => if l.baseIndex > 0 ∧ l.baseTerm = t then l.baseIndex else 0

/-! ## Reading the log -/

theorem entryAt_eq_some {l : RaftLog} {i : Nat} {e : LogEntry} :
    l.entryAt i = some e ↔ l.baseIndex < i ∧ l.entries[i - l.baseIndex - 1]? = some e := by
  unfold entryAt lastIndex
  constructor
  · intro h
    split at h
    · exact absurd h (by simp)
    · exact ⟨by omega, h⟩
  · rintro ⟨hb, h⟩
    have hlt : i - l.baseIndex - 1 < l.entries.length := (List.getElem?_eq_some_iff.mp h).1
    rw [if_neg (by omega)]
    exact h

/-- Between the base and the end there is an entry at every index. -/
theorem exists_entryAt {l : RaftLog} {i : Nat} (hb : l.baseIndex < i) (hi : i ≤ l.lastIndex) :
    ∃ e, l.entryAt i = some e := by
  have hlt : i - l.baseIndex - 1 < l.entries.length := by unfold lastIndex at hi; omega
  exact ⟨_, entryAt_eq_some.mpr ⟨hb, List.getElem?_eq_getElem hlt⟩⟩

theorem entryAt_le {l : RaftLog} {i : Nat} {e : LogEntry} (h : l.entryAt i = some e) :
    l.baseIndex < i ∧ i ≤ l.lastIndex := by
  obtain ⟨hb, he⟩ := entryAt_eq_some.mp h
  have := (List.getElem?_eq_some_iff.mp he).1
  exact ⟨hb, by unfold lastIndex; omega⟩

theorem termAt_le {l : RaftLog} {i t : Nat} (h : l.termAt i = some t) : i ≤ l.lastIndex := by
  unfold termAt at h
  split at h
  · unfold lastIndex
    omega
  · obtain ⟨e, he, -⟩ := Option.map_eq_some_iff.mp h
    exact (entryAt_le he).2

/-- The last index has a term: the base's, if nothing follows it. -/
theorem exists_termAt_lastIndex (l : RaftLog) : ∃ t, l.termAt l.lastIndex = some t := by
  unfold termAt
  split
  · exact ⟨_, rfl⟩
  · rename_i hne
    obtain ⟨e, he⟩ := l.exists_entryAt (i := l.lastIndex)
      (by unfold lastIndex at hne ⊢; omega) (Nat.le_refl _)
    exact ⟨e.term, by rw [he]; rfl⟩

/-- A later snapshot becomes the base. -/
theorem setSnapshot_base {l : RaftLog} {i : Nat} (h : l.baseIndex < i) (t : Nat) :
    (l.setSnapshot i t).baseIndex = i ∧ (l.setSnapshot i t).baseTerm = t := by
  unfold setSnapshot
  rw [if_neg (by omega)]
  exact ⟨rfl, rfl⟩

theorem setSnapshot_base_le {l : RaftLog} {i : Nat} (t : Nat) (h : l.baseIndex ≤ i) :
    (l.setSnapshot i t).baseIndex ≤ i := by
  unfold setSnapshot
  split
  · exact h
  · exact Nat.le_refl i

/-! ## Entries after a change -/

@[simp] theorem lastIndex_append (l : RaftLog) (e : LogEntry) :
    (l.append e).lastIndex = l.lastIndex + 1 := by
  simp [append, lastIndex, Nat.add_assoc]

theorem entryAt_append {l : RaftLog} {e x : LogEntry} {i : Nat} :
    (l.append e).entryAt i = some x ↔ l.entryAt i = some x ∨ (i = l.lastIndex + 1 ∧ x = e) := by
  rw [entryAt_eq_some, entryAt_eq_some]
  change l.baseIndex < i ∧ (l.entries ++ [e])[i - l.baseIndex - 1]? = some x ↔ _
  unfold lastIndex
  rcases Nat.lt_or_ge (i - l.baseIndex - 1) l.entries.length with hlt | hge
  · rw [List.getElem?_append_left hlt]
    exact ⟨Or.inl, fun h => h.elim id fun ⟨hi, _⟩ => absurd hlt (by omega)⟩
  · rw [List.getElem?_append_right hge, List.getElem?_eq_none hge]
    simp only [List.getElem?_singleton]
    constructor
    · rintro ⟨hb, h⟩
      split at h
      · exact Or.inr ⟨by omega, (Option.some.inj h).symm⟩
      · exact absurd h (by simp)
    · rintro (⟨-, h⟩ | ⟨rfl, rfl⟩)
      · exact absurd h (by simp)
      · exact ⟨by omega, by rw [if_pos (by omega)]⟩

/-- A truncation keeps what comes before it. -/
theorem entryAt_truncateFrom {l : RaftLog} {a i : Nat} (h : i < a) :
    (l.truncateFrom a).entryAt i = l.entryAt i := by
  unfold truncateFrom
  split
  · rfl
  · split
    · rfl
    · refine Option.ext fun x => ?_
      rw [entryAt_eq_some, entryAt_eq_some]
      change l.baseIndex < i ∧ (l.entries.take (a - l.baseIndex - 1))[i - l.baseIndex - 1]? = _ ↔ _
      refine and_congr_right fun hb => ?_
      rw [List.getElem?_take_of_lt (by omega)]

/-- A snapshot keeps what comes after it. -/
theorem entryAt_setSnapshot {l : RaftLog} {a i : Nat} (t : Nat) (h : a < i) :
    (l.setSnapshot a t).entryAt i = l.entryAt i := by
  unfold setSnapshot
  split
  · rfl
  · rename_i hb
    refine Option.ext fun x => ?_
    rw [entryAt_eq_some, entryAt_eq_some]
    split
    · rename_i hge
      have hnone : l.entries[i - l.baseIndex - 1]? = none := by
        rw [List.getElem?_eq_none]
        unfold lastIndex at hge
        omega
      simp [hnone]
    · simp only [List.getElem?_drop]
      rw [show a - l.baseIndex + (i - a - 1) = i - l.baseIndex - 1 by omega]
      exact and_congr_left' ⟨fun _ => by omega, fun _ => h⟩

theorem lastIndex_setSnapshot {l : RaftLog} {a : Nat} (t : Nat) (h : a ≤ l.lastIndex) :
    (l.setSnapshot a t).lastIndex = l.lastIndex := by
  have hlen : l.lastIndex = l.baseIndex + l.entries.length := rfl
  unfold setSnapshot
  split
  · rfl
  · change a + List.length (if a ≥ l.lastIndex then [] else l.entries.drop (a - l.baseIndex)) = _
    split
    · rw [List.length_nil]
      omega
    · rw [List.length_drop]
      omega

end RaftLog

end SimKV
