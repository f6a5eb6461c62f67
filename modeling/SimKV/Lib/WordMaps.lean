/-
# Maps of machine words that lose nothing

The steps of which generators and hash functions are built: xor with a shift of the
word itself, rotation, multiplication by an odd number.  Each is injective on the words
of a width.  For the shifts this is one argument: a shift is additive and, repeated
often enough, zero, and what a word and such an image of it differ by is enough to find
the word (`xor_injective_of_nilpotent`).
-/
import Mathlib.Logic.Function.Iterate

namespace WordMaps

variable {w : Nat}

/-- If two words have the same xor with their images, their difference is its own image, and so
all its images. -/
theorem xor_injective_of_nilpotent {f : BitVec w → BitVec w}
    (hadd : ∀ x y, f (x ^^^ y) = f x ^^^ f y) {m : Nat} (hnil : ∀ x, f^[m] x = 0) :
    Function.Injective fun x => x ^^^ f x := by
  intro x y h
  have hfix : f (x ^^^ y) = x ^^^ y := by
    have hxor : x ^^^ y = f x ^^^ f y := by
      calc x ^^^ y = (x ^^^ f x) ^^^ (f x ^^^ y) := by
            rw [BitVec.xor_assoc, ← BitVec.xor_assoc (f x), BitVec.xor_self, BitVec.zero_xor]
        _ = (y ^^^ f y) ^^^ (f x ^^^ y) := by rw [show x ^^^ f x = y ^^^ f y from h]
        _ = f x ^^^ f y := by
            rw [BitVec.xor_comm y, BitVec.xor_comm (f x) y, BitVec.xor_assoc,
              ← BitVec.xor_assoc y, BitVec.xor_self, BitVec.zero_xor, BitVec.xor_comm]
    rw [hadd, ← hxor]
  have hzero : x ^^^ y = 0 := by
    rw [← Function.iterate_fixed hfix m]
    exact hnil _
  exact BitVec.xor_eq_zero_iff.mp hzero

theorem iterate_shiftLeft (k m : Nat) (x : BitVec w) :
    (fun y : BitVec w => y <<< k)^[m] x = x <<< (m * k) := by
  induction m with
  | zero => rw [Function.iterate_zero_apply, Nat.zero_mul, BitVec.shiftLeft_zero]
  | succ m ih => rw [Function.iterate_succ_apply', ih, Nat.succ_mul, BitVec.shiftLeft_add]

theorem iterate_shiftRight (k m : Nat) (x : BitVec w) :
    (fun y : BitVec w => y >>> k)^[m] x = x >>> (m * k) := by
  induction m with
  | zero => rw [Function.iterate_zero_apply, Nat.zero_mul, BitVec.ushiftRight_zero]
  | succ m ih => rw [Function.iterate_succ_apply', ih, Nat.succ_mul, BitVec.shiftRight_add]

variable {k : Nat}

theorem xor_shiftLeft_injective (hk : 0 < k) :
    Function.Injective fun x : BitVec w => x ^^^ x <<< k := by
  refine xor_injective_of_nilpotent (m := w) (fun x y => BitVec.shiftLeft_xor_distrib x y k) ?_
  intro x
  rw [iterate_shiftLeft]
  exact BitVec.shiftLeft_eq_zero (Nat.le_mul_of_pos_right w hk)

theorem xor_shiftRight_injective (hk : 0 < k) :
    Function.Injective fun x : BitVec w => x ^^^ x >>> k := by
  refine xor_injective_of_nilpotent (m := w) (fun x y => BitVec.ushiftRight_xor_distrib x y k) ?_
  intro x
  rw [iterate_shiftRight]
  exact BitVec.ushiftRight_eq_zero (Nat.le_mul_of_pos_right w hk)

/-- A rotation is undone by the rotation the other way. -/
theorem rotate_injective (hk : k ≤ w) :
    Function.Injective fun x : BitVec w => x <<< k ||| x >>> (w - k) := by
  have hback : Function.LeftInverse (fun y : BitVec w => y >>> k ||| y <<< (w - k))
      fun x : BitVec w => x <<< k ||| x >>> (w - k) := by
    intro x
    refine BitVec.eq_of_getLsbD_eq fun i hi => ?_
    simp only [BitVec.getLsbD_or, BitVec.getLsbD_ushiftRight, BitVec.getLsbD_shiftLeft]
    have hout : x.getLsbD (w - k + (k + i)) = false := BitVec.getLsbD_of_ge x _ (by omega)
    by_cases hlow : i < w - k
    · -- the bit was moved up
      have hin : k + i < w := by omega
      simp [hlow, hin, hout]
    · -- the bit went round
      have hin : ¬ k + i < w := by omega
      have hround : i - (w - k) < k := by omega
      have hplace : w - k + (i - (w - k)) = i := by omega
      simp [hlow, hin, hout, hround, hplace, hi]
  exact hback.injective

theorem mul_injective {c d : BitVec w} (h : c * d = 1#w) :
    Function.Injective fun x : BitVec w => x * c := by
  have hback : Function.LeftInverse (fun y : BitVec w => y * d) fun x : BitVec w => x * c := by
    intro x
    change x * c * d = x
    rw [BitVec.mul_assoc, h, BitVec.mul_one]
  exact hback.injective

end WordMaps
