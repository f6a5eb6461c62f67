/-
# Shuffling by swaps

Positions are fixed from the last to the second: position `k` is swapped with one of the
positions up to it.  Each order of a list without repetitions comes about in exactly one
way (`existsUnique_shuffle`): what is to stand at the last free position says which swap
it takes, and later swaps do not touch it.  So if the choices are fair, the orders are.
-/
import Mathlib.Data.List.Nodup
import Mathlib.Data.List.Perm.Basic
import Mathlib.Logic.ExistsUnique

namespace Shuffle

variable {α : Type}

def swap (i j : Nat) (v : List α) : List α :=
  if h : i < v.length ∧ j < v.length then
    (v.set i (v.get ⟨j, h.2⟩)).set j (v.get ⟨i, h.1⟩)
  else v

theorem swap_perm (i j : Nat) (v : List α) : (swap i j v).Perm v := by
  unfold swap
  split
  · rename_i h
    exact List.set_set_perm h.1 h.2
  · exact List.Perm.refl v

/-- The two positions have changed places. -/
theorem getElem?_swap {i j : Nat} {v : List α} (hi : i < v.length) (hj : j < v.length) (k : Nat) :
    (swap i j v)[k]? = if k = j then v[i]? else if k = i then v[j]? else v[k]? := by
  unfold swap
  rw [dif_pos ⟨hi, hj⟩]
  by_cases hkj : k = j
  · subst hkj
    rw [if_pos rfl, List.getElem?_set_self (by simpa using hj), List.getElem?_eq_getElem hi]
    rfl
  · rw [if_neg hkj, List.getElem?_set_ne (Ne.symm hkj)]
    by_cases hki : k = i
    · subst hki
      rw [if_pos rfl, List.getElem?_set_self hi, List.getElem?_eq_getElem hj]
      rfl
    · rw [if_neg hki, List.getElem?_set_ne (Ne.symm hki)]

/-- Swap position `k` with the first of the positions `js`, and so on down to position 1. -/
def shuffleWith : Nat → List Nat → List α → List α
  | k + 1, j :: js, v => shuffleWith k js (swap j (k + 1) v)
  | _, _, v => v

/-- A choice for each of the positions from `k` to 1, from those up to it. -/
def Choices : Nat → List Nat → Prop
  | 0, js => js = []
  | _ + 1, [] => False
  | k + 1, j :: js => j < k + 2 ∧ Choices k js

theorem shuffleWith_perm (k : Nat) (js : List Nat) (v : List α) : (shuffleWith k js v).Perm v := by
  induction k generalizing js v with
  | zero => cases js <;> exact List.Perm.refl v
  | succ k ih =>
    cases js with
    | nil => exact List.Perm.refl v
    | cons j js => exact (ih js _).trans (swap_perm j (k + 1) v)

/-- What stands behind position `k` stays. -/
theorem getElem?_shuffleWith {k : Nat} {js : List Nat} (hjs : Choices k js) {v : List α}
    (hk : k < v.length) {i : Nat} (hi : k < i) : (shuffleWith k js v)[i]? = v[i]? := by
  induction k generalizing js v with
  | zero =>
    obtain rfl : js = [] := hjs
    rfl
  | succ k ih =>
    cases js with
    | nil => exact absurd hjs id
    | cons j js =>
      have hlen : (swap j (k + 1) v).length = v.length := (swap_perm _ _ _).length_eq
      refine (ih hjs.2 (by omega) (by omega)).trans ?_
      rw [getElem?_swap (Nat.lt_of_lt_of_le hjs.1 hk) hk, if_neg (by omega), if_neg]
      have := hjs.1
      omega

/-- Two orders of one list that agree behind the first position are the same. -/
theorem eq_of_tail {v w : List α} (hw : w.Perm v) (h : ∀ i, 0 < i → w[i]? = v[i]?) : w = v := by
  cases v with
  | nil => exact hw.eq_nil
  | cons a v =>
    cases w with
    | nil => exact absurd hw.nil_eq (by simp)
    | cons b w =>
      have htail : w = v := List.ext_getElem? fun i => h (i + 1) (Nat.succ_pos i)
      subst htail
      obtain rfl : b = a := by
        have hone : [b].Perm [a] := (List.perm_append_right_iff w).mp hw
        exact List.singleton_perm_singleton.mp hone
      rfl

/-- **Each order comes about in exactly one way.** -/
theorem existsUnique_shuffle {k : Nat} {v w : List α} (hk : k < v.length) (hv : v.Nodup)
    (hw : w.Perm v) (hbehind : ∀ i, k < i → w[i]? = v[i]?) :
    ∃! js, Choices k js ∧ shuffleWith k js v = w := by
  induction k generalizing v with
  | zero =>
    refine ⟨[], ⟨rfl, (eq_of_tail hw hbehind).symm⟩, ?_⟩
    rintro js ⟨hjs, -⟩
    exact hjs
  | succ k ih =>
    have hlen := hw.length_eq
    have hk' : k + 1 < w.length := by omega
    -- where what is to stand at position `k + 1` stands now
    obtain ⟨j, hj⟩ := List.getElem?_of_mem (hw.subset (List.getElem_mem hk'))
    have hjlen : j < v.length := (List.getElem?_eq_some_iff.mp hj).1
    have hjk : j < k + 2 := by
      by_contra hlt
      have hat : w[j]? = w[k + 1]? := by
        rw [hbehind j (by omega), hj, List.getElem?_eq_getElem hk']
      have := (List.getElem?_inj (by omega) (hw.nodup_iff.mpr hv)).mp hat
      omega
    have hswap : (swap j (k + 1) v).Perm v := swap_perm j (k + 1) v
    have hbehind' : ∀ i, k < i → w[i]? = (swap j (k + 1) v)[i]? := by
      intro i hi
      rw [getElem?_swap hjlen hk]
      by_cases hik : i = k + 1
      · rw [if_pos hik, hik, hj, List.getElem?_eq_getElem hk']
      · rw [if_neg hik, if_neg (by omega)]
        exact hbehind i (by omega)
    obtain ⟨js, ⟨hjs, heq⟩, huniq⟩ := ih (by rw [hswap.length_eq]; omega)
      (hswap.nodup_iff.mpr hv) (hw.trans hswap.symm) hbehind'
    refine ⟨j :: js, ⟨⟨hjk, hjs⟩, heq⟩, ?_⟩
    rintro js' ⟨hjs', heq'⟩
    cases js' with
    | nil => exact absurd hjs' id
    | cons j' js' =>
      have hj'len : j' < v.length := Nat.lt_of_lt_of_le hjs'.1 hk
      have hlen' : k < (swap j' (k + 1) v).length := by
        rw [(swap_perm j' (k + 1) v).length_eq]
        omega
      -- the first swap decides what ends up at position `k + 1`
      have hat := getElem?_shuffleWith hjs'.2 hlen' (Nat.lt_succ_self k)
      have heq'' : shuffleWith k js' (swap j' (k + 1) v) = w := heq'
      rw [heq'', getElem?_swap hj'len hk, if_pos rfl, List.getElem?_eq_getElem hk', ← hj] at hat
      obtain rfl : j = j' := (List.getElem?_inj hjlen hv).mp hat
      rw [huniq js' ⟨hjs'.2, heq''⟩]

end Shuffle
