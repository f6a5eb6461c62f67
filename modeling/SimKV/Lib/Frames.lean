/-
# Scanning a string of frames

A file of records is a concatenation of frames, and it is read by a loop that takes
one frame off the front at a time and stops at the first place where there is none.
`Scanner` is such a loop: what it takes off, and that what it leaves is shorter.

A scanner is *exact* on `a` when it takes the frame of `a` off whatever follows, and
takes nothing off a frame of `a` that is cut short.  Exactness of the single frames
is all a torn file needs: cut anywhere, it scans to exactly the items whose frames
are whole (`scan_take`).
-/
import Mathlib.Data.List.Flatten

namespace Frames

variable {α β : Type}

/-- What takes one item off the front of a string. -/
structure Scanner (α β : Type) where
  next : List β → Option (α × List β)
  shorter : ∀ {bs rest a}, next bs = some (a, rest) → rest.length < bs.length

namespace Scanner

/-- Take items off until there is none to take. -/
def scan (S : Scanner α β) (bs : List β) : List α :=
  match _h : S.next bs with
  | none => []
  | some (a, rest) => a :: S.scan rest
termination_by bs.length
decreasing_by exact S.shorter _h

variable {S : Scanner α β} {frame : α → List β}

theorem scan_none {bs : List β} (h : S.next bs = none) : S.scan bs = [] := by
  rw [scan]
  split
  · rfl
  · rename_i h'
    rw [h] at h'
    cases h'

theorem scan_some {bs rest : List β} {a : α} (h : S.next bs = some (a, rest)) :
    S.scan bs = a :: S.scan rest := by
  rw [scan]
  split
  · rename_i h'
    rw [h] at h'
    cases h'
  · rename_i h'
    rw [h, Option.some.injEq, Prod.mk.injEq] at h'
    rw [h'.1, h'.2]

/-- The scanner reads the frame of `a`, and no part of it. -/
structure Exact (S : Scanner α β) (frame : α → List β) (a : α) : Prop where
  whole : ∀ rest, S.next (frame a ++ rest) = some (a, rest)
  torn : ∀ k < (frame a).length, S.next ((frame a).take k) = none

/-- Whole frames are read off first, whatever follows them. -/
theorem scan_append {as : List α} {rest : List β}
    (h : ∀ a ∈ as, ∀ rest, S.next (frame a ++ rest) = some (a, rest)) :
    S.scan (as.flatMap frame ++ rest) = as ++ S.scan rest := by
  induction as with
  | nil => rfl
  | cons a as ih =>
    rw [List.flatMap_cons, List.append_assoc, scan_some (h a List.mem_cons_self _),
      ih fun b hb => h b (List.mem_cons_of_mem _ hb), List.cons_append]

/-- **A torn string scans to the items whose frames are whole.**  Induction on the items: the cut
falls into the first frame, and nothing is read, or behind it, and the rest is cut the same way. -/
theorem scan_take {as : List α} (h : ∀ a ∈ as, S.Exact frame a) (k : Nat) :
    ∃ m ≤ as.length, S.scan ((as.flatMap frame).take k) = as.take m ∧
      ∀ i < as.length, (i < m ↔ ((as.take (i + 1)).flatMap frame).length ≤ k) := by
  induction as generalizing k with
  | nil =>
    have hnil : S.next [] = none := by
      cases hn : S.next [] with
      | none => rfl
      | some p => exact absurd (S.shorter hn) (Nat.not_lt_zero _)
    exact ⟨0, Nat.le_refl _, by simp [scan_none hnil], fun i hi => absurd hi (Nat.not_lt_zero i)⟩
  | cons a as ih =>
    have ha := h a List.mem_cons_self
    rw [List.flatMap_cons]
    by_cases hk : k < (frame a).length
    · -- the cut falls into the first frame
      refine ⟨0, Nat.zero_le _, ?_, fun i _ => ?_⟩
      · rw [List.take_append_of_le_length (Nat.le_of_lt hk), scan_none (ha.torn k hk)]
        rfl
      · simp only [List.take_succ_cons, List.flatMap_cons, List.length_append]
        omega
    · obtain ⟨m, hm, hscan, hi⟩ := ih (fun b hb => h b (List.mem_cons_of_mem _ hb))
        (k - (frame a).length)
      refine ⟨m + 1, Nat.succ_le_succ hm, ?_, fun i hlt => ?_⟩
      · rw [List.take_append, List.take_of_length_le (Nat.le_of_not_lt hk),
          scan_some (ha.whole _), hscan, List.take_succ_cons]
      · cases i with
        | zero =>
          simp only [List.take_succ_cons, List.take_zero, List.flatMap_cons, List.flatMap_nil,
            List.append_nil]
          omega
        | succ i =>
          have := hi i (Nat.lt_of_succ_lt_succ hlt)
          rw [List.take_succ_cons, List.flatMap_cons, List.length_append]
          omega

/-- A string that is not cut scans to all its items. -/
theorem scan_flatMap {as : List α} (h : ∀ a ∈ as, S.Exact frame a) :
    S.scan (as.flatMap frame) = as := by
  obtain ⟨m, hm, hscan, hi⟩ := scan_take h (as.flatMap frame).length
  rw [List.take_length] at hscan
  have hall : m = as.length := by
    refine Nat.le_antisymm hm (Nat.le_of_not_lt fun hlt => ?_)
    have hlast := hi m hlt
    have hle : ((as.take (m + 1)).flatMap frame).length ≤ (as.flatMap frame).length :=
      ((List.take_sublist _ _).flatMap _).length_le
    omega
  rw [hscan, hall, List.take_length]

/-- The scanner reads the frame of `a` whole, if it reads it, and no part of it. -/
structure Wary (S : Scanner α β) (frame : α → List β) (a : α) : Prop where
  whole : ∀ rest p, S.next (frame a ++ rest) = some p → p = (a, rest)
  torn : ∀ k < (frame a).length, S.next ((frame a).take k) = none

/-- A torn string of frames that may be refused scans to some of the first items, whose frames are
whole. -/
theorem scan_take_wary {as : List α} (h : ∀ a ∈ as, S.Wary frame a) (k : Nat) :
    ∃ m ≤ as.length, S.scan ((as.flatMap frame).take k) = as.take m ∧
      ((as.take m).flatMap frame).length ≤ k := by
  induction as generalizing k with
  | nil =>
    have hnil : S.next [] = none := by
      cases hn : S.next [] with
      | none => rfl
      | some p => exact absurd (S.shorter hn) (Nat.not_lt_zero _)
    exact ⟨0, Nat.le_refl _, by simp [scan_none hnil], Nat.zero_le _⟩
  | cons a as ih =>
    have ha := h a List.mem_cons_self
    rw [List.flatMap_cons]
    by_cases hk : k < (frame a).length
    · refine ⟨0, Nat.zero_le _, ?_, Nat.zero_le _⟩
      rw [List.take_append_of_le_length (Nat.le_of_lt hk), scan_none (ha.torn k hk)]
      rfl
    · rw [List.take_append, List.take_of_length_le (Nat.le_of_not_lt hk)]
      cases hn : S.next (frame a ++ (as.flatMap frame).take (k - (frame a).length)) with
      | none => exact ⟨0, Nat.zero_le _, scan_none hn, Nat.zero_le _⟩
      | some p =>
        obtain ⟨m, hm, hscan, hlen⟩ := ih (fun b hb => h b (List.mem_cons_of_mem _ hb))
          (k - (frame a).length)
        rw [ha.whole _ p hn] at hn
        refine ⟨m + 1, Nat.succ_le_succ hm, ?_, ?_⟩
        · rw [scan_some hn, hscan, List.take_succ_cons]
        · rw [List.take_succ_cons, List.flatMap_cons, List.length_append]
          omega

end Scanner

end Frames
