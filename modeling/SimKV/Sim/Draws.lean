/-
# `sim/prng.{hpp,cpp}`: `bernoulli`, `unit` and `shuffle`

`bernoulli` compares a word with `p * 2^64` and `unit` scales the upper 53 bits of a
word.  Both round nothing: `scale` is rounded to `2^64`, and multiplying by a power of two
is exact.  So for a `p` that is a double they are what they are here, over the rationals.
The probabilities themselves need not be doubles: for 0.05, 0.3 or 0.6, and for a sum of
two of them, the source's threshold is that of the nearest double and differs from the
one here in its last bits.

`shuffle` is the shuffle of `SimKV.Lib.Shuffle` with its choices drawn.  How a bounded
value is drawn is a parameter, since the loop of `range` has no bound (`bounded` is
`range` with a limit): what is said of the shuffle holds for every such function.
-/
import SimKV.Lib.Shuffle
import SimKV.Sim.Prng
import Mathlib.Algebra.Order.Ring.Rat
import Mathlib.Data.Rat.Floor

namespace SimKV.Sim

namespace Prng

/-- `bernoulli`; a value is only drawn if `p` leaves something to decide. -/
def bernoulli (p : Rat) (g : Prng) : Bool × Prng :=
  if p ≤ 0 then (false, g)
  else if 1 ≤ p then (true, g)
  else
    let threshold := ⌊p * 2 ^ 64⌋.toNat
    (decide (g.nextU64.1.toNat < threshold), g.nextU64.2)

/-- The upper 53 bits of a word: `unit` is that over `2^53`. -/
def unitBits (g : Prng) : Nat × Prng := ((g.nextU64.1 >>> 11).toNat, g.nextU64.2)

def unit (g : Prng) : Rat × Prng := ((g.unitBits.1 : Rat) / 2 ^ 53, g.unitBits.2)

/-- How a value in `[lo, hi)` is drawn. -/
abbrev Range := Nat → Nat → Prng → Nat × Prng

/-- The values drawn are within the bounds. -/
def Range.Bounded (range : Range) : Prop :=
  ∀ lo hi g, lo < hi → hi < 2 ^ 64 → lo ≤ (range lo hi g).1 ∧ (range lo hi g).1 < hi

/-- `range`, which gives up after `fuel` rejections. -/
def bounded (fuel : Nat) : Range := fun lo hi g =>
  match range (.ofNat lo) (.ofNat hi) fuel g with
  | some (v, g') => (v.toNat, g')
  | none => (lo, g)

theorem bounded_bounded (fuel : Nat) : Range.Bounded (bounded fuel) := by
  intro lo hi g hlt hhi
  unfold bounded
  split
  · rename_i v g' hrange
    have hlo : (UInt64.ofNat lo).toNat = lo := UInt64.toNat_ofNat_of_lt' (Nat.lt_trans hlt hhi)
    have hhi' : (UInt64.ofNat hi).toNat = hi := UInt64.toNat_ofNat_of_lt' hhi
    have hlt' : UInt64.ofNat lo < UInt64.ofNat hi := by
      rw [UInt64.lt_iff_toNat_lt, hlo, hhi']
      exact hlt
    obtain ⟨k, -, -, -, hv, -⟩ := (range_eq_some_iff hlt' fuel g v g').mp hrange
    obtain ⟨h₁, h₂⟩ := mapped_bounds hlt' (g.draw k)
    rw [← hv] at h₁ h₂
    rw [UInt64.le_iff_toNat_le, hlo] at h₁
    rw [UInt64.lt_iff_toNat_lt, hhi'] at h₂
    exact ⟨h₁, h₂⟩
  · exact ⟨Nat.le_refl lo, hlt⟩

/-! ## `shuffle` -/

variable {α : Type}

/-- The loop of `shuffle`, from position `k` on. -/
def shuffleFrom (range : Range) : Nat → List α → Prng → List α × Prng
  | 0, v, g => (v, g)
  | k + 1, v, g =>
    let r := range 0 (k + 2) g
    shuffleFrom range k (Shuffle.swap r.1 (k + 1) v) r.2

def shuffle (range : Range) (v : List α) (g : Prng) : List α × Prng :=
  shuffleFrom range (v.length - 1) v g

/-- The values that `shuffle` draws for `k + 1` positions. -/
def choices (range : Range) : Nat → Prng → List Nat
  | 0, _ => []
  | k + 1, g =>
    let r := range 0 (k + 2) g
    r.1 :: choices range k r.2

theorem shuffleFrom_eq (range : Range) (k : Nat) (v : List α) (g : Prng) :
    (shuffleFrom range k v g).1 = Shuffle.shuffleWith k (choices range k g) v := by
  induction k generalizing v g with
  | zero => rfl
  | succ k ih => exact ih _ _

theorem choices_choices {range : Range} (hr : range.Bounded) {k : Nat} (hk : k + 1 < 2 ^ 64)
    (g : Prng) : Shuffle.Choices k (choices range k g) := by
  induction k generalizing g with
  | zero => rfl
  | succ k ih =>
    exact ⟨(hr 0 (k + 2) g (by omega) hk).2, ih (by omega) _⟩

/-- **`shuffle` favours no order.**  The values it draws are a choice for each position, and for
each order of different elements there is exactly one list of choices that leads to it. -/
theorem shuffle_unbiased (range : Range) (hr : range.Bounded) (v : List α) (hv : v.Nodup)
    (hlen : v.length < 2 ^ 64) :
    (∀ g, Shuffle.Choices (v.length - 1) (choices range (v.length - 1) g) ∧
      (shuffle range v g).1.Perm v) ∧
    ∀ w : List α, w.Perm v → ∃ js, Shuffle.Choices (v.length - 1) js ∧
      Shuffle.shuffleWith (v.length - 1) js v = w ∧
      ∀ g, (shuffle range v g).1 = w ↔ choices range (v.length - 1) g = js := by
  have heq : ∀ g, (shuffle range v g).1 =
      Shuffle.shuffleWith (v.length - 1) (choices range (v.length - 1) g) v :=
    fun g => shuffleFrom_eq range _ v g
  have hch : ∀ g, Shuffle.Choices (v.length - 1) (choices range (v.length - 1) g) := by
    intro g
    exact choices_choices hr (by omega) g
  refine ⟨fun g => ⟨hch g, ?_⟩, fun w hw => ?_⟩
  · rw [heq]
    exact Shuffle.shuffleWith_perm _ _ v
  · cases v with
    | nil =>
      obtain rfl := hw.eq_nil
      exact ⟨[], rfl, rfl, fun g => ⟨fun _ => rfl, fun _ => rfl⟩⟩
    | cons a v =>
      obtain ⟨js, ⟨hjs, hout⟩, huniq⟩ := Shuffle.existsUnique_shuffle
        (k := (a :: v).length - 1) (Nat.lt_succ_self _) hv hw fun i hi => by
          have hi' : (a :: v).length ≤ i := hi
          rw [List.getElem?_eq_none hi', List.getElem?_eq_none (by rw [hw.length_eq]; exact hi')]
      refine ⟨js, hjs, hout, fun g => ?_⟩
      rw [heq]
      constructor
      · intro hg
        exact huniq _ ⟨hch g, hg⟩
      · intro hg
        rw [hg]
        exact hout

theorem shuffle_unbiased_three : ∃ js, Shuffle.Choices 2 js ∧
    Shuffle.shuffleWith 2 js [1, 2, 3] = [3, 1, 2] ∧
    ∀ g, (shuffle (bounded 5) [1, 2, 3] g).1 = [3, 1, 2] ↔ choices (bounded 5) 2 g = js :=
  (shuffle_unbiased (bounded 5) (bounded_bounded 5) [1, 2, 3] (by decide) (by decide)).2
    [3, 1, 2] (by decide)

end Prng

end SimKV.Sim
