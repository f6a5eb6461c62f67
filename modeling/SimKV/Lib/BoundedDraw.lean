/-
# Drawing a number below a bound

A source gives numbers below `N`, all alike, and numbers below `n` are wanted.  The
product `x * n` is split at `N`: the quotient is the number drawn, and the remainder
decides whether the draw counts.  If only remainders from `N % n` on count, each of
the `n` numbers is drawn for exactly `N / n` of the `N` inputs: the multiples of `n`
are evenly spaced, and what counts of each stretch of length `N` is a stretch of
length `N / n * n` (`counts_iff_mem_Ico`).
-/
import Mathlib.Algebra.Order.Floor.Div
import Mathlib.Order.Interval.Finset.Nat

namespace BoundedDraw

variable {N n : Nat}

/-- What is drawn is below the bound. -/
theorem quotient_lt {x : Nat} (hx : x < N) (hn : 0 < n) : x * n / N < n := by
  rw [Nat.div_lt_iff_lt_mul (Nat.zero_lt_of_lt hx), Nat.mul_comm n N]
  exact Nat.mul_lt_mul_of_pos_right hx hn

/-- Only inputs of the source draw below the bound. -/
theorem lt_of_quotient_lt {x : Nat} (hN : 0 < N) (h : x * n / N < n) : x < N := by
  rw [Nat.div_lt_iff_lt_mul hN, Nat.mul_comm n N] at h
  exact Nat.lt_of_mul_lt_mul_right h

/-- If the bound divides `N`, every draw counts. -/
theorem counts_of_dvd (h : n ∣ N) (x : Nat) : N % n ≤ x * n % N := by
  rw [Nat.mod_eq_zero_of_dvd h]
  exact Nat.zero_le _

/-- The first input for which `v` is drawn. -/
def first (N n v : Nat) : Nat := (v * N + N % n) ⌈/⌉ n

/-- `x * n` lies in the part of the `v`-th stretch that counts. -/
theorem counts_iff_between (hN : 0 < N) (v x : Nat) :
    (N % n ≤ x * n % N ∧ x * n / N = v) ↔
      v * N + N % n ≤ x * n ∧ x * n < v * N + N % n + N / n * n := by
  have hsplit : N / n * n + N % n = N := by
    rw [Nat.mul_comm]
    exact Nat.div_add_mod N n
  have hdiv : x * n / N * N + x * n % N = x * n := by
    rw [Nat.mul_comm]
    exact Nat.div_add_mod (x * n) N
  have hmod : x * n % N < N := Nat.mod_lt _ hN
  constructor
  · rintro ⟨hlow, rfl⟩
    omega
  · rintro ⟨hge, hlt⟩
    have hv : x * n / N = v := by
      refine Nat.div_eq_of_lt_le ?_ ?_
      · omega
      · rw [Nat.succ_mul]
        omega
    rw [hv] at hdiv
    exact ⟨by omega, hv⟩

/-- **Every number is drawn for `N / n` inputs**, one after the other. -/
theorem counts_iff_mem_Ico (hN : 0 < N) (hn : 0 < n) (v x : Nat) :
    (N % n ≤ x * n % N ∧ x * n / N = v) ↔ x ∈ Finset.Ico (first N n v) (first N n v + N / n) := by
  rw [counts_iff_between hN, Finset.mem_Ico, first, ceilDiv_le_iff_le_mul hn]
  refine and_congr (by rw [Nat.mul_comm x n]) ?_
  generalize v * N + N % n = b
  -- the end is the beginning of the stretch that is `N / n` multiples further on
  rw [← not_le, ← not_le, not_iff_not]
  constructor
  · intro h
    have hq : N / n ≤ x := Nat.le_of_mul_le_mul_right (by omega) hn
    have hrest : b ≤ n * (x - N / n) := by
      rw [Nat.mul_sub, Nat.mul_comm n x, Nat.mul_comm n (N / n)]
      omega
    have := (ceilDiv_le_iff_le_mul hn).mpr hrest
    omega
  · intro h
    have hrest : b ≤ n * (x - N / n) := (ceilDiv_le_iff_le_mul hn).mp (by omega)
    have hq : N / n ≤ x := by omega
    rw [Nat.mul_sub, Nat.mul_comm n x, Nat.mul_comm n (N / n)] at hrest
    have := Nat.mul_le_mul_right n hq
    omega

end BoundedDraw
