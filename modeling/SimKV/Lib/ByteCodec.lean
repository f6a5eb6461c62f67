/-
# Little-endian words and readers of byte strings

A reader consumes a byte string from the left and may fail with an error of any
type `ε`.  The one notion the round trips need is `Reads d bs a`: in front of
*any* rest, `d` consumes exactly `bs` and returns `a`.  It composes along the
monad (`Reads.bind`), so the round trip of a format is proved field by field, in
the order in which the writer lays the fields down.
-/
import Mathlib.Data.Nat.ModEq
import Mathlib.Tactic.Ring

namespace ByteCodec

/-! ## Words -/

/-- The `k` low bytes of `v`, least significant first. -/
def le : Nat → Nat → List UInt8
  | 0, _ => []
  | k + 1, v => UInt8.ofNat v :: le k (v / 256)

/-- The number a little-endian byte string denotes. -/
def leVal : List UInt8 → Nat
  | [] => 0
  | b :: bs => b.toNat + 256 * leVal bs

@[simp] theorem length_le (k v : Nat) : (le k v).length = k := by
  induction k generalizing v with
  | zero => rfl
  | succ k ih => simp [le, ih]

theorem leVal_le (k v : Nat) : leVal (le k v) = v % 256 ^ k := by
  induction k generalizing v with
  | zero => simp [le, leVal, Nat.mod_one]
  | succ k ih =>
    have hb : (UInt8.ofNat v).toNat = v % 256 := by simp
    rw [le, leVal, ih, hb, Nat.pow_succ, Nat.mul_comm (256 ^ k) 256, Nat.mod_mul]

theorem leVal_le_of_lt {k v : Nat} (h : v < 256 ^ k) : leVal (le k v) = v := by
  rw [leVal_le, Nat.mod_eq_of_lt h]

/-! ## Readers -/

/-- A reader takes what it needs off the front of a byte string, or fails. -/
abbrev Reader (ε α : Type) := StateT (List UInt8) (Except ε) α

/-- The next `n` bytes, or the error `err`. -/
def takeBytes {ε : Type} (err : ε) (n : Nat) : Reader ε (List UInt8) := fun s =>
  if s.length < n then .error err else .ok (s.take n, s.drop n)

/-- `n` items, one after another. -/
def readMany {ε α : Type} (d : Reader ε α) : Nat → Reader ε (List α)
  | 0 => pure []
  | n + 1 => do
      let a ← d
      let as ← readMany d n
      pure (a :: as)

/-- In front of any rest, `d` consumes exactly `bs` and returns `a`. -/
def Reads {ε α : Type} (d : Reader ε α) (bs : List UInt8) (a : α) : Prop :=
  ∀ rest, d (bs ++ rest) = .ok (a, rest)

section Calculus

variable {ε α β : Type}

theorem Reads.pure (a : α) : Reads (Pure.pure a : Reader ε α) [] a := fun _ => rfl

theorem Reads.bind {d : Reader ε α} {f : α → Reader ε β} {bs bs' : List UInt8} {a : α} {b : β}
    (h : Reads d bs a) (h' : Reads (f a) bs' b) : Reads (d >>= f) (bs ++ bs') b := by
  intro rest
  have h1 : (d >>= f) (bs ++ bs' ++ rest) = (d (bs ++ (bs' ++ rest)) >>= fun p => f p.1 p.2) := by
    rw [List.append_assoc]; rfl
  rw [h1, h]
  exact h' rest

/-- The last field: nothing follows it but the result. -/
theorem Reads.bind_pure {d : Reader ε α} {f : α → β} {bs : List UInt8} {a : α}
    (h : Reads d bs a) : Reads (d >>= fun x => Pure.pure (f x)) bs (f a) := by
  have h0 : Reads (Pure.pure (f a) : Reader ε β) [] (f a) := Reads.pure (f a)
  have h1 := h.bind (f := fun x => Pure.pure (f x)) h0
  rwa [List.append_nil] at h1

theorem Reads.takeBytes (err : ε) (bs : List UInt8) :
    Reads (takeBytes err bs.length) bs bs := by
  intro rest
  simp [ByteCodec.takeBytes]

theorem Reads.many {d : Reader ε α} {enc : α → List UInt8} {as : List α}
    (h : ∀ a ∈ as, Reads d (enc a) a) : Reads (readMany d as.length) (as.flatMap enc) as := by
  induction as with
  | nil => exact Reads.pure []
  | cons a as ih =>
    rw [List.flatMap_cons]
    exact (h a List.mem_cons_self).bind
      (ih fun b hb => h b (List.mem_cons_of_mem _ hb)).bind_pure

/-- Reading a whole buffer. -/
theorem Reads.run_eq {d : Reader ε α} {bs : List UInt8} {a : α} (h : Reads d bs a) :
    d bs = .ok (a, []) := by
  have h1 := h []
  rwa [List.append_nil] at h1

end Calculus

end ByteCodec
