/-
# An alarm guarded by a generation counter

The owner of an alarm keeps a flag and a counter; a callback captures the counter
at the moment it is set.  Cancelling asks the clock to forget the callback that
was set last and moves the counter on.  The clock may have posted that callback
already, and then runs it all the same: cancelled callbacks that have not run are
`late`, the others that have not run are `live`.

`Sound` is what the flag and the counter say about the clock.  It survives setting,
cancelling, resetting and giving the alarm up without telling the clock, and it
survives whatever callback the clock runs.  While the flag is up, exactly one live
callback carries the current generation, and a late one never does.
-/
import Mathlib.Data.List.Nodup
import Mathlib.Data.List.Count

namespace Alarm

/-- What the owner asks of the clock. -/
inductive Op where
  | schedule (gen : Nat)
  | cancel
deriving DecidableEq, Repr

/-- The callbacks the clock has not run, by the generation they captured, and the one that was set
last. -/
structure Clock where
  live : List Nat
  late : List Nat
  last : Option Nat
deriving DecidableEq, Repr

namespace Clock

def empty : Clock := ⟨[], [], none⟩

def op (c : Clock) : Op → Clock
  | .schedule gen => { c with live := c.live ++ [gen], last := some gen }
  | .cancel =>
    match c.last with
    | none => c
    | some gen =>
      if gen ∈ c.live then { c with live := c.live.erase gen, late := gen :: c.late } else c

def ops (c : Clock) (os : List Op) : Clock := os.foldl op c

theorem ops_append (c : Clock) (os os' : List Op) : c.ops (os ++ os') = (c.ops os).ops os' :=
  List.foldl_append

/-- The callbacks the clock may run now. -/
def mayRun (c : Clock) (gen : Nat) : Bool := gen ∈ c.live ∨ gen ∈ c.late

/-- The callback with generation `gen` runs. -/
def run (c : Clock) (gen : Nat) : Clock :=
  { c with live := c.live.erase gen, late := c.late.erase gen }

end Clock

/-- The flag and the counter. -/
structure Owner where
  armed : Bool
  gen : Nat

/-- What the owner knows of the clock. -/
structure Sound (o : Owner) (c : Clock) : Prop where
  nodup : (c.live ++ c.late).Nodup
  live_le : ∀ g ∈ c.live, g ≤ o.gen
  late_lt : ∀ g ∈ c.late, g < o.gen
  armed : o.armed = true → o.gen ∈ c.live ∧ c.last = some o.gen

namespace Sound

variable {o : Owner} {c : Clock}

theorem empty (gen : Nat) : Sound ⟨false, gen⟩ .empty :=
  ⟨List.nodup_nil, by simp [Clock.empty], by simp [Clock.empty], fun h => nomatch h⟩

theorem nodup_live (h : Sound o c) : c.live.Nodup := (List.nodup_append.mp h.nodup).1

/-- While the flag is up, exactly one live callback has the current generation. -/
theorem count_eq_one (h : Sound o c) (ha : o.armed = true) : c.live.count o.gen = 1 :=
  List.count_eq_one_of_mem h.nodup_live (h.armed ha).1

/-- The owner gives the alarm up; the clock is not told. -/
theorem drop (h : Sound o c) : Sound ⟨false, o.gen⟩ c :=
  ⟨h.nodup, h.live_le, h.late_lt, fun ha => nomatch ha⟩

theorem schedule (h : Sound o c) : Sound ⟨true, o.gen + 1⟩ (c.op (.schedule (o.gen + 1))) where
  nodup := by
    have hlive : o.gen + 1 ∉ c.live := fun hmem => Nat.not_succ_le_self _ (h.live_le _ hmem)
    have hlate : o.gen + 1 ∉ c.late := fun hmem =>
      Nat.not_succ_le_self _ (Nat.le_of_lt (h.late_lt _ hmem))
    have hperm : (c.live ++ [o.gen + 1] ++ c.late).Perm ((o.gen + 1) :: (c.live ++ c.late)) := by
      rw [List.append_assoc]
      exact List.perm_middle
    refine hperm.nodup_iff.mpr (List.nodup_cons.mpr ⟨?_, h.nodup⟩)
    rw [List.mem_append, not_or]
    exact ⟨hlive, hlate⟩
  live_le g hg := by
    rcases List.mem_append.mp hg with hg | hg
    · exact Nat.le_succ_of_le (h.live_le g hg)
    · exact Nat.le_of_eq (List.mem_singleton.mp hg)
  late_lt g hg := Nat.lt_succ_of_lt (h.late_lt g hg)
  armed _ := ⟨List.mem_append_right _ (List.mem_singleton.mpr rfl), rfl⟩

/-- Cancelling an alarm that is set leaves no callback of the new generation. -/
theorem cancel (h : Sound o c) (ha : o.armed = true) :
    Sound ⟨false, o.gen + 1⟩ (c.op .cancel) ∧ o.gen + 1 ∉ (c.op .cancel).live := by
  obtain ⟨hmem, hlast⟩ := h.armed ha
  have hop : c.op .cancel = { c with live := c.live.erase o.gen, late := o.gen :: c.late } := by
    rw [Clock.op, hlast]
    exact if_pos hmem
  rw [hop]
  have hle : ∀ g ∈ c.live.erase o.gen, g ≤ o.gen := fun g hg =>
    h.live_le g (List.mem_of_mem_erase hg)
  refine ⟨⟨?_, fun g hg => Nat.le_succ_of_le (hle g hg), fun g hg => ?_, fun ha => nomatch ha⟩,
    fun hg => Nat.not_succ_le_self _ (hle _ hg)⟩
  · have hperm : (c.live.erase o.gen ++ o.gen :: c.late).Perm (c.live ++ c.late) :=
      List.perm_middle.trans ((List.perm_cons_erase hmem).symm.append_right c.late)
    exact hperm.nodup_iff.mpr h.nodup
  · rcases List.mem_cons.mp hg with rfl | hg
    · exact Nat.lt_succ_self _
    · exact Nat.lt_succ_of_lt (h.late_lt g hg)

/-- A callback of another generation runs. -/
theorem run_other (h : Sound o c) {gen : Nat} (hne : gen ≠ o.gen) : Sound o (c.run gen) where
  nodup := h.nodup.sublist (List.erase_sublist.append List.erase_sublist)
  live_le g hg := h.live_le g (List.mem_of_mem_erase hg)
  late_lt g hg := h.late_lt g (List.mem_of_mem_erase hg)
  armed ha := ⟨(List.mem_erase_of_ne hne.symm).mpr (h.armed ha).1, (h.armed ha).2⟩

/-- The current callback runs, and takes the flag down. -/
theorem run_current (h : Sound o c) :
    Sound ⟨false, o.gen⟩ (c.run o.gen) ∧ o.gen ∉ (c.run o.gen).live :=
  ⟨⟨h.nodup.sublist (List.erase_sublist.append List.erase_sublist),
    fun g hg => h.live_le g (List.mem_of_mem_erase hg),
    fun g hg => h.late_lt g (List.mem_of_mem_erase hg), fun ha => nomatch ha⟩,
    fun hmem => (List.Nodup.mem_erase_iff h.nodup_live).mp hmem |>.1 rfl⟩

end Sound

end Alarm
