/-
# Feedback shift registers

A register of `w` bits takes a byte in by adding it (exclusive or) to its low bits and
shifting right eight times; every bit that falls out at the low end decides whether the
polynomial is added.  This is the bit-serial form of a reflected cyclic redundancy check.

A shift is additive and, if the polynomial has its top bit, injective.  Bytes that fit into
the register side by side can therefore be added all at once and shifted afterwards
(`run_eq`), so two strings of the same length that fit into it leave different registers;
and what follows keeps different registers different.  This is burst detection
(`run_ne_of_burst`), for any width, any such polynomial and any start.
-/
import Mathlib.Logic.Function.Iterate

namespace ShiftRegister

variable {w : Nat} {poly : BitVec w}

/-- One shift. -/
def shift (poly x : BitVec w) : BitVec w := (x >>> 1) ^^^ (if x.getLsbD 0 then poly else 0#w)

/-- One byte. -/
def feed (poly s : BitVec w) (b : BitVec 8) : BitVec w := (shift poly)^[8] (s ^^^ b.setWidth w)

/-- A string of bytes. -/
def run (poly s : BitVec w) (bs : List (BitVec 8)) : BitVec w := bs.foldl (feed poly) s

/-! ## Shifts -/

theorem shift_xor (x y : BitVec w) : shift poly (x ^^^ y) = shift poly x ^^^ shift poly y := by
  have hswap : ∀ a b c d : BitVec w, a ^^^ b ^^^ (c ^^^ d) = a ^^^ c ^^^ (b ^^^ d) := by
    intro a b c d
    ac_rfl
  unfold shift
  rw [BitVec.ushiftRight_xor_distrib, BitVec.getLsbD_xor, hswap]
  cases x.getLsbD 0 <;> cases y.getLsbD 0 <;> simp

/-- The top bit of the result is the bit that fell out, so no bit is lost. -/
theorem shift_eq_zero (hp : poly.getLsbD (w - 1) = true) {x : BitVec w}
    (h : shift poly x = 0#w) : x = 0#w := by
  have hw : 0 < w := by
    rcases Nat.eq_zero_or_pos w with rfl | hw
    · rw [BitVec.getLsbD_of_ge _ _ (Nat.zero_le _)] at hp
      cases hp
    · exact hw
  have hlow : x.getLsbD 0 = false := by
    have htop := congrArg (fun y : BitVec w => y.getLsbD (w - 1)) h
    have hout : x.getLsbD (1 + (w - 1)) = false := BitVec.getLsbD_of_ge _ _ (by omega)
    simp only [shift, BitVec.getLsbD_xor, BitVec.getLsbD_ushiftRight, hout] at htop
    cases hx : x.getLsbD 0 with
    | false => rfl
    | true => simp [hx, hp] at htop
  refine BitVec.eq_of_getLsbD_eq fun i hi => ?_
  rw [BitVec.getLsbD_zero]
  cases i with
  | zero => exact hlow
  | succ i =>
    have hbit := congrArg (fun y : BitVec w => y.getLsbD i) h
    simpa [shift, hlow, Nat.add_comm] using hbit

theorem shift_injective (hp : poly.getLsbD (w - 1) = true) : Function.Injective (shift poly) := by
  intro x y h
  have hzero : x ^^^ y = 0#w := shift_eq_zero hp (by rw [shift_xor, h, BitVec.xor_self])
  exact BitVec.xor_eq_zero_iff.mp hzero

theorem iterate_shift_xor (k : Nat) (x y : BitVec w) :
    (shift poly)^[k] (x ^^^ y) = (shift poly)^[k] x ^^^ (shift poly)^[k] y := by
  induction k generalizing x y with
  | zero => rfl
  | succ k ih => rw [Function.iterate_succ_apply, shift_xor, ih]; rfl

/-- While zeros fall out, a register only moves down. -/
theorem iterate_shift_of_low {k : Nat} {x : BitVec w} (h : ∀ i < k, x.getLsbD i = false) :
    (shift poly)^[k] x = x >>> k := by
  induction k with
  | zero => rfl
  | succ k ih =>
    rw [Function.iterate_succ_apply', ih fun i hi => h i (Nat.lt_succ_of_lt hi)]
    have hlow : (x >>> k).getLsbD 0 = false := by
      rw [BitVec.getLsbD_ushiftRight]
      exact h k (Nat.lt_succ_self k)
    simp [shift, hlow, BitVec.shiftRight_add]

/-! ## Bytes side by side -/

/-- The bytes of a string next to each other, the first one lowest. -/
def pack : List (BitVec 8) → BitVec w
  | [] => 0#w
  | b :: bs => b.setWidth w ^^^ (pack bs <<< 8)

theorem getLsbD_pack_cons (b : BitVec 8) (bs : List (BitVec 8)) (i : Nat) :
    (pack (w := w) (b :: bs)).getLsbD i =
      (decide (i < w) && if i < 8 then b.getLsbD i else (pack (w := w) bs).getLsbD (i - 8)) := by
  rw [pack, BitVec.getLsbD_xor, BitVec.getLsbD_setWidth, BitVec.getLsbD_shiftLeft]
  by_cases hi : i < 8
  · simp [hi]
  · simp [hi, BitVec.getLsbD_of_ge b i (by omega)]

/-- A string takes up no more than its own length. -/
theorem getLsbD_pack_of_le (bs : List (BitVec 8)) {i : Nat} (h : 8 * bs.length ≤ i) :
    (pack (w := w) bs).getLsbD i = false := by
  induction bs generalizing i with
  | nil => exact BitVec.getLsbD_zero
  | cons b bs ih =>
    rw [List.length_cons] at h
    rw [getLsbD_pack_cons, if_neg (by omega), ih (by omega), Bool.and_false]

/-- What fits is told apart. -/
theorem pack_injective : ∀ {bs bs' : List (BitVec 8)}, bs.length = bs'.length →
    8 * bs.length ≤ w → pack (w := w) bs = pack bs' → bs = bs'
  | [], [], _, _, _ => rfl
  | [], _ :: _, hlen, _, _ => nomatch hlen
  | _ :: _, [], hlen, _, _ => nomatch hlen
  | b :: bs, b' :: bs', hlen, hw, h => by
    rw [List.length_cons] at hw
    have hlen' : bs.length = bs'.length := Nat.succ.inj hlen
    have hbit : ∀ i, i < w → (if i < 8 then b.getLsbD i else (pack (w := w) bs).getLsbD (i - 8)) =
        if i < 8 then b'.getLsbD i else (pack (w := w) bs').getLsbD (i - 8) := by
      intro i hi
      have := congrArg (fun x : BitVec w => x.getLsbD i) h
      simpa only [getLsbD_pack_cons, hi, decide_true, Bool.true_and] using this
    have hb : b = b' := by
      refine BitVec.eq_of_getLsbD_eq fun i hi => ?_
      have := hbit i (by omega)
      rwa [if_pos hi, if_pos hi] at this
    have hbs : pack (w := w) bs = pack bs' := by
      refine BitVec.eq_of_getLsbD_eq fun i _ => ?_
      by_cases hi : i + 8 < w
      · have := hbit (i + 8) hi
        rwa [if_neg (by omega), if_neg (by omega), Nat.add_sub_cancel] at this
      · rw [getLsbD_pack_of_le bs (by omega), getLsbD_pack_of_le bs' (by omega)]
    rw [hb, pack_injective hlen' (by omega) hbs]

/-- **Bytes that fit can be added all at once.**  Induction on the string: eight shifts bring the
later bytes down to where they would have been added. -/
theorem run_eq (s : BitVec w) {bs : List (BitVec 8)} (h : 8 * bs.length ≤ w) :
    run poly s bs = (shift poly)^[8 * bs.length] (s ^^^ pack bs) := by
  induction bs generalizing s with
  | nil => simp [run, pack]
  | cons b bs ih =>
    rw [List.length_cons] at h ⊢
    have hlow : ∀ i < 8, (pack (w := w) bs <<< 8).getLsbD i = false := by
      intro i hi
      simp [BitVec.getLsbD_shiftLeft, hi]
    have hdown : (shift poly)^[8] (pack bs <<< 8) = pack bs := by
      rw [iterate_shift_of_low hlow]
      refine BitVec.eq_of_getLsbD_eq fun i _ => ?_
      rw [BitVec.getLsbD_ushiftRight, BitVec.getLsbD_shiftLeft]
      by_cases hi : 8 + i < w
      · simp [hi]
      · simp [hi, getLsbD_pack_of_le (w := w) bs (i := i) (by omega)]
    change run poly (feed poly s b) bs = _
    rw [ih _ (by omega), Nat.mul_succ, Function.iterate_add_apply, pack, ← BitVec.xor_assoc,
      iterate_shift_xor 8, hdown]
    rfl

/-! ## Bursts -/

theorem feed_injective (hp : poly.getLsbD (w - 1) = true) (b : BitVec 8) :
    Function.Injective fun s => feed poly s b := by
  intro s s' h
  have hs := ((shift_injective hp).iterate 8) h
  exact (BitVec.xor_left_inj _).mp hs

/-- What follows keeps different registers different. -/
theorem run_injective (hp : poly.getLsbD (w - 1) = true) (bs : List (BitVec 8)) :
    Function.Injective fun s => run poly s bs := by
  induction bs with
  | nil => exact fun _ _ h => h
  | cons b bs ih => exact fun s s' h => feed_injective hp b (ih h)

/-- **Bursts are detected**: strings that differ only in a part that fits into the register leave
it different. -/
theorem run_ne_of_burst (hp : poly.getLsbD (w - 1) = true) (s : BitVec w)
    {pre mid mid' post : List (BitVec 8)} (hlen : mid.length = mid'.length)
    (hfit : 8 * mid.length ≤ w) (hne : mid ≠ mid') :
    run poly s (pre ++ mid ++ post) ≠ run poly s (pre ++ mid' ++ post) := by
  intro h
  simp only [run, List.foldl_append] at h
  have hmid := run_injective hp post h
  change run poly _ mid = run poly _ mid' at hmid
  rw [run_eq _ hfit, run_eq _ (hlen ▸ hfit), ← hlen] at hmid
  have hpack := (BitVec.xor_right_inj _).mp ((shift_injective hp).iterate _ hmid)
  exact hne (pack_injective hlen hfit hpack)

end ShiftRegister
