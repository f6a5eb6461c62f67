/-
# `sim/prng.{hpp,cpp}`: the generator and its bounded draws

The state of `xoshiro256**` is seeded by `splitmix64` and advanced by `next_u64`.  All
zeros is a state that would never change again; no seed leads to it, since every step of
either function loses nothing (`never_degenerates`).

`range` draws until a draw is accepted.  Whether it is, and what it stands for, depends on
the draw alone, so `range` is the first accepted draw of the stream
(`range_eq_some_iff`), and it favours no value (`range_unbiased`).  How many draws are
rejected is not bounded; `fuel` is how many the model looks at behind the first.

`bernoulli`, `unit` and `shuffle` are in `SimKV.Sim.Draws`.
-/
import Mathlib.Data.Set.Card
import SimKV.Lib.BoundedDraw
import SimKV.Lib.WordMaps
import SimKV.Sim.Simulator

namespace SimKV.Sim

/-! ## Nothing is lost -/

section Words

variable {x y k : UInt64}

theorem xor_shiftRight_inj (hk : 0 < (k.toBitVec % 64).toNat)
    (h : x ^^^ x >>> k = y ^^^ y >>> k) : x = y := by
  have hbits := congrArg UInt64.toBitVec h
  simp only [UInt64.toBitVec_xor, UInt64.toBitVec_shiftRight] at hbits
  exact UInt64.toBitVec_inj.mp (WordMaps.xor_shiftRight_injective hk hbits)

theorem xor_shiftLeft_inj (hk : 0 < (k.toBitVec % 64).toNat)
    (h : x ^^^ x <<< k = y ^^^ y <<< k) : x = y := by
  have hbits := congrArg UInt64.toBitVec h
  simp only [UInt64.toBitVec_xor, UInt64.toBitVec_shiftLeft] at hbits
  exact UInt64.toBitVec_inj.mp (WordMaps.xor_shiftLeft_injective hk hbits)

theorem mul_inj {c d : UInt64} (hc : c * d = 1) (h : x * c = y * c) : x = y :=
  UInt64.toBitVec_inj.mp
    (WordMaps.mul_injective (congrArg UInt64.toBitVec hc) (congrArg UInt64.toBitVec h))

theorem rotl64_inj (h : rotl64 x 45 = rotl64 y 45) : x = y :=
  UInt64.toBitVec_inj.mp
    (WordMaps.rotate_injective (k := 45) (by decide) (congrArg UInt64.toBitVec h))

end Words

/-- Different states give different values: each line of `splitmix64` can be undone, from the last
to the first. -/
theorem splitmix64_injective : Function.Injective fun state => (splitmix64 state).1 := by
  intro x y h
  simp only [splitmix64] at h
  have h₁ := xor_shiftRight_inj (by decide) h
  have h₂ := mul_inj (d := 0x319642b2d24d8ec3) (by decide) h₁
  have h₃ := xor_shiftRight_inj (by decide) h₂
  have h₄ := mul_inj (d := 0x96de1b173f119089) (by decide) h₃
  have h₅ := xor_shiftRight_inj (by decide) h₄
  exact (UInt64.add_left_inj _).mp h₅

namespace Prng

/-- All words zero. -/
def zero : Prng := ⟨0, 0, 0, 0⟩

/-- The state after a draw. -/
def next (p : Prng) : Prng := p.nextU64.2

/-- Only one state of `splitmix64` gives zero, and two words in a row come from different ones. -/
theorem ofSeed_ne_zero (seed : UInt64) : ofSeed seed ≠ zero := by
  intro h
  have hzero : (splitmix64 (-0x9e3779b97f4a7c15)).1 = 0 := by decide
  have h₀ : (splitmix64 seed).1 = 0 := congrArg s0 h
  have h₁ : (splitmix64 (seed + 0x9e3779b97f4a7c15)).1 = 0 := congrArg s1 h
  have hseed : seed = -0x9e3779b97f4a7c15 := splitmix64_injective (h₀.trans hzero.symm)
  have hnext : seed + 0x9e3779b97f4a7c15 = -0x9e3779b97f4a7c15 :=
    splitmix64_injective (h₁.trans hzero.symm)
  rw [hseed] at hnext
  exact absurd hnext (by decide)

/-- **The update loses nothing.**  The last word gives back `s3 ^ s1` and with it `s0`; the second
and third word differ by `s1 ^ (s1 << 17)`, which gives back `s1`, and the rest follows. -/
theorem next_injective : Function.Injective next := by
  intro p q h
  have h₀ : p.s0 ^^^ (p.s3 ^^^ p.s1) = q.s0 ^^^ (q.s3 ^^^ q.s1) := congrArg s0 h
  have h₁ : p.s1 ^^^ (p.s2 ^^^ p.s0) = q.s1 ^^^ (q.s2 ^^^ q.s0) := congrArg s1 h
  have h₂ : (p.s2 ^^^ p.s0) ^^^ p.s1 <<< 17 = (q.s2 ^^^ q.s0) ^^^ q.s1 <<< 17 := congrArg s2 h
  have h₃ : p.s3 ^^^ p.s1 = q.s3 ^^^ q.s1 := rotl64_inj (congrArg s3 h)
  have hs0 : p.s0 = q.s0 := by
    rw [h₃] at h₀
    exact (UInt64.xor_left_inj _).mp h₀
  have hs1 : p.s1 = q.s1 := by
    refine xor_shiftLeft_inj (k := 17) (by decide) ?_
    have hdiff (r : Prng) : r.s1 ^^^ r.s1 <<< 17 =
        (r.s1 ^^^ (r.s2 ^^^ r.s0)) ^^^ ((r.s2 ^^^ r.s0) ^^^ r.s1 <<< 17) := by
      rw [UInt64.xor_assoc, ← UInt64.xor_assoc (r.s2 ^^^ r.s0), UInt64.xor_self, UInt64.zero_xor]
    rw [hdiff p, hdiff q, h₁, h₂]
  have hs2 : p.s2 = q.s2 := by
    rw [hs1, hs0] at h₁
    exact (UInt64.xor_left_inj _).mp ((UInt64.xor_right_inj _).mp h₁)
  have hs3 : p.s3 = q.s3 := by
    rw [hs1] at h₃
    exact (UInt64.xor_left_inj _).mp h₃
  cases p
  cases q
  simp only at hs0 hs1 hs2 hs3
  rw [hs0, hs1, hs2, hs3]

theorem next_zero : zero.nextU64 = (0, zero) := by decide

theorem next_ne_zero {p : Prng} (h : p ≠ zero) : p.next ≠ zero := by
  intro hnext
  exact h (next_injective (hnext.trans (congrArg Prod.snd next_zero).symm))

theorem iterate_next_ne_zero {p : Prng} (h : p ≠ zero) (k : Nat) : next^[k] p ≠ zero := by
  induction k with
  | zero => exact h
  | succ k ih =>
    rw [Function.iterate_succ_apply']
    exact next_ne_zero ih

/-! ## `range` -/

/-- The product `m`, which 128 bits hold. -/
def wide (x n : UInt64) : Nat := x.toNat * n.toNat

/-- The loop of `range`: draw again while the low word of `m` is below `t`. -/
def redraw (n t : UInt64) : Nat → Nat → Prng → Option (Nat × Prng)
  | 0, m, p => if UInt64.ofNat m < t then none else some (m, p)
  | fuel + 1, m, p =>
    if UInt64.ofNat m < t then redraw n t fuel (wide p.nextU64.1 n) p.nextU64.2
    else some (m, p)

/-- `range`, for `hi > lo`; `none` if no draw is accepted in time. -/
def range (lo hi : UInt64) (fuel : Nat) (p : Prng) : Option (UInt64 × Prng) :=
  let n := hi - lo
  let x := p.nextU64.1
  let m := wide x n
  let drawn := if UInt64.ofNat m < n then redraw n (-n % n) fuel m p.nextU64.2
    else some (m, p.nextU64.2)
  drawn.map fun r => (UInt64.ofNat (r.1 >>> 64) + lo, r.2)

/-- The draw is rejected by the two tests of `range`. -/
def Rejected (n x : UInt64) : Prop :=
  UInt64.ofNat (wide x n) < n ∧ UInt64.ofNat (wide x n) < -n % n

instance (n x : UInt64) : Decidable (Rejected n x) := inferInstanceAs (Decidable (_ ∧ _))

/-- What `range` makes of a draw. -/
def mapped (lo n x : UInt64) : UInt64 := UInt64.ofNat (wide x n >>> 64) + lo

/-- The `k`-th draw of the stream. -/
def draw (p : Prng) (k : Nat) : UInt64 := (next^[k] p).nextU64.1

theorem draw_next (p : Prng) (k : Nat) : p.next.draw k = p.draw (k + 1) := by
  rw [draw, draw, Function.iterate_succ_apply]

section Range

variable {lo hi n : UInt64}

theorem toNat_threshold (hn : 0 < n) : (-n % n).toNat = 2 ^ 64 % n.toNat := by
  have hpos : 0 < n.toNat := UInt64.lt_iff_toNat_lt.mp hn
  have hlt : n.toNat < 2 ^ 64 := n.toNat_lt
  have hneg : (-n).toNat = 2 ^ 64 - n.toNat := by
    rw [UInt64.toNat_neg]
    exact Nat.mod_eq_of_lt (Nat.sub_lt (Nat.two_pow_pos 64) hpos)
  rw [UInt64.toNat_mod, hneg, ← Nat.mod_eq_sub_mod (Nat.le_of_lt hlt)]

theorem low_lt_iff (m : Nat) (t : UInt64) : UInt64.ofNat m < t ↔ m % 2 ^ 64 < t.toNat := by
  rw [UInt64.lt_iff_toNat_lt, UInt64.toNat_ofNat']

/-- The first test only saves the computation of the threshold. -/
theorem rejected_iff (hn : 0 < n) (x : UInt64) :
    Rejected n x ↔ UInt64.ofNat (wide x n) < -n % n := by
  have hpos : 0 < n.toNat := UInt64.lt_iff_toNat_lt.mp hn
  have hle : -n % n < n := by
    rw [UInt64.lt_iff_toNat_lt, UInt64.toNat_mod]
    exact Nat.mod_lt _ hpos
  exact and_iff_right_of_imp fun h => UInt64.lt_trans h hle

/-- `k` is the first draw that is not below the threshold. -/
def Stops (n t : UInt64) (p : Prng) (k : Nat) : Prop :=
  (∀ i < k, UInt64.ofNat (wide (p.draw i) n) < t) ∧ ¬ UInt64.ofNat (wide (p.draw k) n) < t

theorem stops_zero_iff {t : UInt64} {p : Prng} :
    Stops n t p 0 ↔ ¬ UInt64.ofNat (wide (p.draw 0) n) < t :=
  and_iff_right fun i hi => absurd hi (Nat.not_lt_zero i)

theorem stops_succ_iff {t : UInt64} {p : Prng} (h : UInt64.ofNat (wide (p.draw 0) n) < t)
    (k : Nat) : Stops n t p (k + 1) ↔ Stops n t p.next k := by
  simp only [Stops, draw_next]
  refine and_congr_left fun _ => ⟨fun hall i hi => hall (i + 1) (Nat.succ_lt_succ hi), ?_⟩
  intro hall i hi
  cases i with
  | zero => exact h
  | succ i => exact hall i (Nat.lt_of_succ_lt_succ hi)

theorem redraw_of_not_lt {t : UInt64} {m : Nat} (h : ¬ UInt64.ofNat m < t) (fuel : Nat)
    (p : Prng) : redraw n t fuel m p = some (m, p) := by
  cases fuel with
  | zero => exact if_neg h
  | succ fuel => exact if_neg h

/-- The loop is not entered. -/
theorem redraw_stops {t : UInt64} {p : Prng} (h : ¬ UInt64.ofNat (wide (p.draw 0) n) < t)
    (fuel m : Nat) (p' : Prng) :
    redraw n t fuel (wide (p.draw 0) n) p.next = some (m, p') ↔
      ∃ k ≤ fuel, Stops n t p k ∧ m = wide (p.draw k) n ∧ p' = next^[k + 1] p := by
  rw [redraw_of_not_lt h]
  constructor
  · intro heq
    cases heq
    exact ⟨0, Nat.zero_le _, stops_zero_iff.mpr h, rfl, rfl⟩
  · rintro ⟨k, -, hstop, rfl, rfl⟩
    have hk : k = 0 := Nat.eq_zero_of_not_pos fun hpos => h (hstop.1 0 hpos)
    rw [hk]
    rfl

/-- The loop stops at the first draw that is not below the threshold.  Induction on the fuel: the
loop from the next state on is the loop with one draw less. -/
theorem redraw_eq_some_iff (t : UInt64) (fuel : Nat) (p : Prng) (m : Nat) (p' : Prng) :
    redraw n t fuel (wide (p.draw 0) n) p.next = some (m, p') ↔
      ∃ k ≤ fuel, Stops n t p k ∧ m = wide (p.draw k) n ∧ p' = next^[k + 1] p := by
  induction fuel generalizing p with
  | zero =>
    by_cases h : UInt64.ofNat (wide (p.draw 0) n) < t
    · rw [redraw, if_pos h]
      refine iff_of_false (by simp) ?_
      rintro ⟨k, hk, hstop, -⟩
      rw [Nat.le_zero.mp hk, stops_zero_iff] at hstop
      exact hstop h
    · exact redraw_stops h 0 m p'
  | succ fuel ih =>
    by_cases h : UInt64.ofNat (wide (p.draw 0) n) < t
    · have hstep : redraw n t (fuel + 1) (wide (p.draw 0) n) p.next =
          redraw n t fuel (wide (p.next.draw 0) n) p.next.next := by
        rw [redraw, if_pos h]
        rfl
      rw [hstep, ih p.next]
      constructor
      · rintro ⟨k, hk, hstop, hm, hp⟩
        refine ⟨k + 1, Nat.succ_le_succ hk, (stops_succ_iff h k).mpr hstop, ?_, hp⟩
        rw [hm, draw_next]
      · rintro ⟨k, hk, hstop, hm, hp⟩
        cases k with
        | zero => exact absurd h (stops_zero_iff.mp hstop)
        | succ k =>
          refine ⟨k, Nat.le_of_succ_le_succ hk, (stops_succ_iff h k).mp hstop, ?_, hp⟩
          rw [hm, draw_next]
    · exact redraw_stops h (fuel + 1) m p'

theorem sub_pos (h : lo < hi) : 0 < hi - lo := by
  have hlt := UInt64.lt_iff_toNat_lt.mp h
  rw [UInt64.lt_iff_toNat_lt, UInt64.toNat_sub_of_le _ _ (UInt64.le_of_lt h)]
  exact Nat.sub_pos_of_lt hlt

/-- The test in front of the loop lets no draw through that the loop would not. -/
theorem range_eq (h : lo < hi) (fuel : Nat) (p : Prng) :
    p.range lo hi fuel = (redraw (hi - lo) (-(hi - lo) % (hi - lo)) fuel
      (wide (p.draw 0) (hi - lo)) p.next).map
        fun r => (UInt64.ofNat (r.1 >>> 64) + lo, r.2) := by
  refine congrArg (Option.map _) ?_
  split
  · rfl
  · rename_i hge
    have hstop : ¬ UInt64.ofNat (wide (p.draw 0) (hi - lo)) < -(hi - lo) % (hi - lo) := fun hlt =>
      hge ((rejected_iff (sub_pos h) (p.draw 0)).mpr hlt).1
    rw [redraw_of_not_lt hstop]
    rfl

/-- **`range` is the first accepted draw.** -/
theorem range_eq_some_iff (h : lo < hi) (fuel : Nat) (p : Prng) (v : UInt64) (p' : Prng) :
    p.range lo hi fuel = some (v, p') ↔
      ∃ k ≤ fuel, (∀ i < k, Rejected (hi - lo) (p.draw i)) ∧ ¬ Rejected (hi - lo) (p.draw k) ∧
        v = mapped lo (hi - lo) (p.draw k) ∧ p' = next^[k + 1] p := by
  rw [range_eq h, Option.map_eq_some_iff]
  simp only [rejected_iff (sub_pos h)]
  constructor
  · rintro ⟨⟨m, q⟩, hdrawn, heq⟩
    obtain ⟨k, hk, hstop, hm, hp⟩ := (redraw_eq_some_iff _ fuel p m q).mp hdrawn
    cases heq
    exact ⟨k, hk, hstop.1, hstop.2, by rw [mapped, hm], hp⟩
  · rintro ⟨k, hk, hbefore, hstop, rfl, rfl⟩
    exact ⟨(wide (p.draw k) (hi - lo), next^[k + 1] p),
      (redraw_eq_some_iff _ fuel p _ _).mpr ⟨k, hk, ⟨hbefore, hstop⟩, rfl, rfl⟩, rfl⟩

/-! ## Counting -/

/-- The high word of the product is below the width of the interval. -/
theorem high_add_lt (h : lo < hi) (x : UInt64) :
    x.toNat * (hi - lo).toNat / 2 ^ 64 + lo.toNat < hi.toNat := by
  have hlt := UInt64.lt_iff_toNat_lt.mp h
  have hn := UInt64.toNat_sub_of_le _ _ (UInt64.le_of_lt h)
  have hq := BoundedDraw.quotient_lt x.toNat_lt (UInt64.lt_iff_toNat_lt.mp (sub_pos h))
  generalize x.toNat * (hi - lo).toNat / 2 ^ 64 = q at hq
  omega

/-- The casts lose nothing. -/
theorem toNat_mapped (h : lo < hi) (x : UInt64) :
    (mapped lo (hi - lo) x).toNat =
      x.toNat * (hi - lo).toNat / 2 ^ 64 + lo.toNat := by
  have hword := Nat.lt_trans (high_add_lt h x) hi.toNat_lt
  rw [mapped, wide, Nat.shiftRight_eq_div_pow, UInt64.toNat_add, UInt64.toNat_ofNat',
    Nat.mod_eq_of_lt (Nat.lt_of_le_of_lt (Nat.le_add_right _ _) hword), Nat.mod_eq_of_lt hword]

/-- In bounds. -/
theorem mapped_bounds (h : lo < hi) (x : UInt64) :
    lo ≤ mapped lo (hi - lo) x ∧ mapped lo (hi - lo) x < hi := by
  rw [UInt64.le_iff_toNat_le, UInt64.lt_iff_toNat_lt, toNat_mapped h]
  exact ⟨Nat.le_add_left _ _, high_add_lt h x⟩

/-- What `range` does with a draw, in numbers. -/
theorem accepted_iff (h : lo < hi) {v : UInt64} (hv : lo ≤ v) (x : UInt64) :
    (¬ Rejected (hi - lo) x ∧ mapped lo (hi - lo) x = v) ↔
      2 ^ 64 % (hi - lo).toNat ≤ x.toNat * (hi - lo).toNat % 2 ^ 64 ∧
        x.toNat * (hi - lo).toNat / 2 ^ 64 = v.toNat - lo.toNat := by
  have hle := UInt64.le_iff_toNat_le.mp hv
  refine and_congr ?_ ?_
  · rw [rejected_iff (sub_pos h), low_lt_iff, toNat_threshold (sub_pos h), Nat.not_lt]
    rfl
  · rw [← UInt64.toNat_inj, toNat_mapped h]
    omega

/-- **Every value has `2 ^ 64 / n` draws.** -/
theorem ncard_accepted (h : lo < hi) {v : UInt64} (hv : lo ≤ v) (hv' : v < hi) :
    {x | ¬ Rejected (hi - lo) x ∧ mapped lo (hi - lo) x = v}.ncard =
      2 ^ 64 / (hi - lo).toNat := by
  have hN : 0 < 2 ^ 64 := Nat.two_pow_pos 64
  have hn : 0 < (hi - lo).toNat := UInt64.lt_iff_toNat_lt.mp (sub_pos h)
  have hsub := UInt64.toNat_sub_of_le _ _ (UInt64.le_of_lt h)
  have hbelow : v.toNat - lo.toNat < (hi - lo).toNat := by
    have := UInt64.lt_iff_toNat_lt.mp hv'
    have := UInt64.le_iff_toNat_le.mp hv
    omega
  have himage : Set.image UInt64.toNat
      {x | ¬ Rejected (hi - lo) x ∧ mapped lo (hi - lo) x = v} =
      (Finset.Ico (BoundedDraw.first (2 ^ 64) (hi - lo).toNat (v.toNat - lo.toNat))
        (BoundedDraw.first (2 ^ 64) (hi - lo).toNat (v.toNat - lo.toNat) +
          2 ^ 64 / (hi - lo).toNat) : Finset Nat) := by
    ext a
    rw [Finset.mem_coe, ← BoundedDraw.counts_iff_mem_Ico hN hn]
    constructor
    · rintro ⟨x, hx, rfl⟩
      exact (accepted_iff h hv x).mp hx
    · intro ha
      have hword : a < 2 ^ 64 := BoundedDraw.lt_of_quotient_lt hN (ha.2 ▸ hbelow)
      have hx : (UInt64.ofNat a).toNat = a := UInt64.toNat_ofNat_of_lt' hword
      refine ⟨UInt64.ofNat a, (accepted_iff h hv _).mpr ?_, hx⟩
      rw [hx]
      exact ha
  have hinj : Function.Injective UInt64.toNat := fun _ _ => UInt64.toNat_inj.mp
  rw [← Set.ncard_image_of_injective _ hinj, himage, Set.ncard_coe_finset, Nat.card_Ico,
    Nat.add_sub_cancel_left]

theorem accepted_of_dvd (h : lo < hi) (hdvd : (hi - lo).toNat ∣ 2 ^ 64) (x : UInt64) :
    ¬ Rejected (hi - lo) x := by
  rw [rejected_iff (sub_pos h), low_lt_iff, toNat_threshold (sub_pos h), Nat.not_lt]
  exact BoundedDraw.counts_of_dvd hdvd x.toNat

end Range

/-- **Bounded draws are in bounds and unbiased.**  `range` returns as soon as a draw is accepted,
with what that draw is mapped to, which is in `[lo, hi)`; every value in `[lo, hi)` has the same
number of accepted draws among all words; and if that divides evenly, no draw is rejected. -/
theorem range_unbiased (lo hi : UInt64) (h : lo < hi) :
    (∀ (fuel : Nat) (p p' : Prng) (v : UInt64), p.range lo hi fuel = some (v, p') →
      lo ≤ v ∧ v < hi) ∧
    (∀ (fuel : Nat) (p p' : Prng) (v : UInt64), p.range lo hi fuel = some (v, p') ↔
      ∃ k ≤ fuel, (∀ i < k, Rejected (hi - lo) (p.draw i)) ∧ ¬ Rejected (hi - lo) (p.draw k) ∧
        v = mapped lo (hi - lo) (p.draw k) ∧ p' = next^[k + 1] p) ∧
    (∀ v, lo ≤ v → v < hi →
      {x | ¬ Rejected (hi - lo) x ∧ mapped lo (hi - lo) x = v}.ncard = 2 ^ 64 / (hi - lo).toNat) ∧
    ((hi - lo).toNat ∣ 2 ^ 64 → ∀ x, ¬ Rejected (hi - lo) x) := by
  refine ⟨?_, ?_, ?_, ?_⟩
  · intro fuel p p' v hrange
    obtain ⟨k, -, -, -, rfl, -⟩ := (range_eq_some_iff h fuel p v p').mp hrange
    exact mapped_bounds h (p.draw k)
  · intro fuel p p' v
    exact range_eq_some_iff h fuel p v p'
  · intro v hv hv'
    exact ncard_accepted h hv hv'
  · intro hdvd x
    exact accepted_of_dvd h hdvd x

/-- The bounds and the seed of the test: the first draw is accepted, and it is one of
`2 ^ 64 / 10` for the value. -/
theorem range_unbiased_tens :
    (ofSeed 1337).range 10 20 0 = some (16, next (ofSeed 1337)) ∧
    {x | ¬ Rejected 10 x ∧ mapped 10 10 x = 16}.ncard = 1844674407370955161 := by
  obtain ⟨-, hfirst, hcount, -⟩ := range_unbiased 10 20 (by decide)
  refine ⟨(hfirst 0 _ _ 16).mpr ⟨0, Nat.le_refl _, ?_, ?_, ?_, rfl⟩, ?_⟩
  · exact fun i hi => absurd hi (Nat.not_lt_zero i)
  · decide
  · decide
  · exact hcount 16 (by decide) (by decide)

/-! ## The state that would never change -/

theorem draw_zero (k : Nat) : zero.draw k = 0 := by
  have hfix : next^[k] zero = zero := Function.iterate_fixed (congrArg Prod.snd next_zero) k
  rw [draw, hfix, next_zero]

/-- From there on `range` would draw zeros for ever. -/
theorem range_zero {lo hi : UInt64} (h : lo < hi) (hdvd : ¬ (hi - lo).toNat ∣ 2 ^ 64) (fuel : Nat) :
    zero.range lo hi fuel = none := by
  rw [Option.eq_none_iff_forall_ne_some]
  rintro ⟨v, p'⟩ hrange
  obtain ⟨k, -, -, haccepted, -⟩ := (range_eq_some_iff h fuel zero v p').mp hrange
  rw [draw_zero, rejected_iff (sub_pos h), low_lt_iff, toNat_threshold (sub_pos h)] at haccepted
  have hpos : 0 < 2 ^ 64 % (hi - lo).toNat :=
    Nat.pos_of_ne_zero fun hmod => hdvd (Nat.dvd_of_mod_eq_zero hmod)
  refine haccepted ?_
  rw [wide, UInt64.toNat_zero, Nat.zero_mul]
  exact hpos

/-- **The generator never degenerates.**  Whatever the seed and however many words were drawn, the
state is not all zero: seeding does not produce it, and the update is injective and leaves it where
it is.  It is a state from which every word drawn would be zero, and every `range` endless whose
bounds do not divide evenly. -/
theorem never_degenerates :
    (∀ seed k, next^[k] (ofSeed seed) ≠ zero) ∧
    (∀ seed, ofSeed seed ≠ zero) ∧ Function.Injective next ∧ (∀ p, p ≠ zero → next p ≠ zero) ∧
    (next zero = zero ∧ ∀ k, zero.draw k = 0) ∧
    ∀ (lo hi : UInt64), lo < hi → ¬ (hi - lo).toNat ∣ 2 ^ 64 →
      ∀ fuel, zero.range lo hi fuel = none := by
  refine ⟨?_, ofSeed_ne_zero, next_injective, ?_, ⟨congrArg Prod.snd next_zero, draw_zero⟩, ?_⟩
  · intro seed k
    exact iterate_next_ne_zero (ofSeed_ne_zero seed) k
  · intro p hp
    exact next_ne_zero hp
  · intro lo hi h hdvd fuel
    exact range_zero h hdvd fuel

/-- After a thousand draws, and for the bounds of the test. -/
theorem never_degenerates_thousand :
    next^[1000] (ofSeed 0) ≠ zero ∧ next (ofSeed 0) ≠ zero ∧ zero.range 10 20 1000 = none := by
  obtain ⟨hnever, hseed, -, hnext, -, hendless⟩ := never_degenerates
  exact ⟨hnever 0 1000, hnext _ (hseed 0), hendless 10 20 (by decide) (by decide) 1000⟩

end Prng

end SimKV.Sim
