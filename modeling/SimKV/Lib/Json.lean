/-
# JSON texts

A parser of JSON over bytes: values, objects, arrays, strings with their escapes, numbers
as `mantissa * 10 ^ exponent`, and the four kinds of white space between tokens.  A
string is the bytes of its UTF-8 form.  `parse` takes a whole text, and nothing but
space may follow the value.  Half of a surrogate pair stands for U+FFFD.

The recursion over nested values is on a fuel that `parse` sets from the length of the
text.

For the writer of a text the lemmas come in the order of the grammar: what the reader of
strings does with one character, of numbers with the decimal digits, and of objects with
their members.  `Scalar` is a piece of text that is read as one value wherever a value
may end.
-/
import Mathlib.Data.UInt
import Mathlib.Data.List.Basic
import Mathlib.Tactic.Common

namespace Json

inductive Value where
  | null
  | bool (b : Bool)
  | num (mantissa exponent : Int)
  | str (bytes : List UInt8)
  | arr (items : List Value)
  | obj (members : List (List UInt8 × Value))

/-! ## Characters -/

def quote : UInt8 := 0x22
def comma : UInt8 := 0x2c
def colon : UInt8 := 0x3a
def backslash : UInt8 := 0x5c
def lbracket : UInt8 := 0x5b
def rbracket : UInt8 := 0x5d
def lbrace : UInt8 := 0x7b
def rbrace : UInt8 := 0x7d

def isSpace (b : UInt8) : Bool := b == 0x20 || b == 0x09 || b == 0x0a || b == 0x0d

def isDigit (b : UInt8) : Bool := 0x30 ≤ b && b ≤ 0x39

/-- Skip space. -/
def skip (bs : List UInt8) : List UInt8 := bs.dropWhile isSpace

/-- The rest behind the character `b`. -/
def expect (b : UInt8) : List UInt8 → Option (List UInt8)
  | [] => none
  | c :: bs => if c = b then some bs else none

/-- The rest behind the word `w`. -/
def strip : List UInt8 → List UInt8 → Option (List UInt8)
  | [], bs => some bs
  | _ :: _, [] => none
  | c :: w, b :: bs => if b = c then strip w bs else none

/-! ## Strings -/

def utf8 (n : Nat) : List UInt8 := String.utf8EncodeChar (Char.ofNat n)

def hexDigit? (b : UInt8) : Option Nat :=
  if 0x30 ≤ b && b ≤ 0x39 then some (b.toNat - 0x30)
  else if 0x41 ≤ b && b ≤ 0x46 then some (b.toNat - 0x37)
  else if 0x61 ≤ b && b ≤ 0x66 then some (b.toNat - 0x57)
  else none

/-- Four hexadecimal digits, and the rest. -/
def hex4 : List UInt8 → Option (Nat × List UInt8)
  | a :: b :: c :: d :: bs => do
      let a ← hexDigit? a
      let b ← hexDigit? b
      let c ← hexDigit? c
      let d ← hexDigit? d
      some (4096 * a + 256 * b + 16 * c + d, bs)
  | _ => none

def isHigh (u : Nat) : Bool := 0xd800 ≤ u && u < 0xdc00

def isLow (u : Nat) : Bool := 0xdc00 ≤ u && u < 0xe000

/-- What follows a code unit `u` that was written with `\u`, if it is the low half to the high half
`u`. -/
def lowHalf (bs : List UInt8) : Option (Nat × List UInt8) := do
  let bs ← expect backslash bs
  let bs ← expect 0x75 bs
  let (v, bs) ← hex4 bs
  if isLow v then some (v, bs) else none

def unicode (u : Nat) (bs : List UInt8) : List UInt8 × List UInt8 :=
  if isHigh u then
    match lowHalf bs with
    | some (v, bs) => (utf8 (0x10000 + 0x400 * (u - 0xd800) + (v - 0xdc00)), bs)
    | none => (utf8 0xfffd, bs)
  else if isLow u then (utf8 0xfffd, bs)
  else (utf8 u, bs)

/-- The character that a backslash and one more stand for. -/
def escaped? (b : UInt8) : Option UInt8 :=
  if b = quote then some quote
  else if b = backslash then some backslash
  else if b = 0x2f then some 0x2f
  else if b = 0x62 then some 0x08
  else if b = 0x66 then some 0x0c
  else if b = 0x6e then some 0x0a
  else if b = 0x72 then some 0x0d
  else if b = 0x74 then some 0x09
  else none

/-- What follows a backslash. -/
def escape : List UInt8 → Option (List UInt8 × List UInt8)
  | [] => none
  | b :: bs =>
    match escaped? b with
    | some c => some ([c], bs)
    | none => if b = 0x75 then (hex4 bs).map fun p => unicode p.1 p.2 else none

/-- One character of a string, which is not its closing quote. -/
def character : List UInt8 → Option (List UInt8 × List UInt8)
  | [] => none
  | b :: bs =>
    if b = backslash then escape bs
    else if b < 0x20 then none
    else some ([b], bs)

theorem expect_shorter {b : UInt8} {bs rest : List UInt8} (h : expect b bs = some rest) :
    rest.length < bs.length := by
  cases bs with
  | nil => exact nomatch h
  | cons c bs =>
    rw [expect] at h
    split at h
    · cases h
      exact Nat.lt_succ_self _
    · exact nomatch h

theorem hex4_shorter {bs rest : List UInt8} {n : Nat} (h : hex4 bs = some (n, rest)) :
    rest.length < bs.length := by
  unfold hex4 at h
  split at h
  · simp only [Option.bind_eq_bind, Option.bind_eq_some_iff, Option.some.injEq, Prod.mk.injEq] at h
    obtain ⟨_, _, _, _, _, _, _, _, _, rfl⟩ := h
    simp only [List.length_cons]
    omega
  · exact nomatch h

theorem unicode_le (u : Nat) (bs : List UInt8) : (unicode u bs).2.length ≤ bs.length := by
  unfold unicode
  split
  · cases h : lowHalf bs with
    | none => exact Nat.le_refl _
    | some p =>
      simp only [lowHalf, Option.bind_eq_bind, Option.bind_eq_some_iff] at h
      obtain ⟨bs₁, h₁, bs₂, h₂, q, h₃, h₄⟩ := h
      have hlt₁ := expect_shorter h₁
      have hlt₂ := expect_shorter h₂
      have hlt₃ := hex4_shorter h₃
      split at h₄
      · cases h₄
        dsimp only
        omega
      · exact nomatch h₄
  · split <;> exact Nat.le_refl _

theorem escape_shorter {bs rest c : List UInt8} (h : escape bs = some (c, rest)) :
    rest.length < bs.length := by
  cases bs with
  | nil => exact nomatch h
  | cons b bs =>
    rw [escape] at h
    split at h
    · cases h
      exact Nat.lt_succ_self _
    · split at h
      · obtain ⟨⟨n, bs'⟩, hn, heq⟩ := Option.map_eq_some_iff.mp h
        have hlt := hex4_shorter hn
        have hle := unicode_le n bs'
        rw [heq] at hle
        rw [List.length_cons]
        dsimp only at hle
        omega
      · exact nomatch h

theorem character_shorter {bs rest c : List UInt8} (h : character bs = some (c, rest)) :
    rest.length < bs.length := by
  cases bs with
  | nil => exact nomatch h
  | cons b bs =>
    rw [character] at h
    split at h
    · exact Nat.lt_succ_of_lt (escape_shorter h)
    · split at h
      · exact nomatch h
      · cases h
        exact Nat.lt_succ_self _

/-- The rest of a string, when its opening quote has been read. -/
def string (bs : List UInt8) : Option (List UInt8 × List UInt8) :=
  match expect quote bs with
  | some bs => some ([], bs)
  | none =>
    match _h : character bs with
    | none => none
    | some (c, bs) => (string bs).map fun p => (c ++ p.1, p.2)
termination_by bs.length
decreasing_by exact character_shorter _h

/-! ## Numbers -/

def digitsVal (ds : List UInt8) : Nat := ds.foldl (fun n d => 10 * n + (d.toNat - 0x30)) 0

/-- One digit or more, and the rest. -/
def digits (bs : List UInt8) : Option (List UInt8 × List UInt8) :=
  if (bs.takeWhile isDigit).isEmpty then none
  else some (bs.takeWhile isDigit, bs.dropWhile isDigit)

/-- The digits behind the point, if there is one. -/
def fraction (bs : List UInt8) : Option (List UInt8 × List UInt8) :=
  match expect 0x2e bs with
  | some bs => digits bs
  | none => some ([], bs)

def exponentDigits (bs : List UInt8) : Option (Int × List UInt8) :=
  match expect 0x2d bs with
  | some bs => (digits bs).map fun p => (-(digitsVal p.1 : Int), p.2)
  | none => (digits ((expect 0x2b bs).getD bs)).map fun p => (digitsVal p.1, p.2)

def exponent (bs : List UInt8) : Option (Int × List UInt8) :=
  match expect 0x65 bs <|> expect 0x45 bs with
  | some bs => exponentDigits bs
  | none => some (0, bs)

/-- A number without its sign. -/
def unsigned (bs : List UInt8) : Option (Nat × Int × List UInt8) := do
  let (ds, bs) ← digits bs
  -- no zero in front
  if ds.head? = some 0x30 ∧ ds.length ≠ 1 then none
  else
    let (fs, bs) ← fraction bs
    let (e, bs) ← exponent bs
    some (digitsVal (ds ++ fs), e - fs.length, bs)

def number (bs : List UInt8) : Option (Value × List UInt8) :=
  match expect 0x2d bs with
  | some bs => (unsigned bs).map fun p => (.num (-(p.1 : Int)) p.2.1, p.2.2)
  | none => (unsigned bs).map fun p => (.num p.1 p.2.1, p.2.2)

/-! ## Values -/

mutual

/-- A value, which begins here, and the rest. -/
def value : Nat → List UInt8 → Option (Value × List UInt8)
  | 0, _ => none
  | _ + 1, [] => none
  | fuel + 1, b :: bs =>
    if b = lbrace then
      match expect rbrace (skip bs) with
      | some bs => some (.obj [], bs)
      | none => (members fuel bs).map fun p => (.obj p.1, p.2)
    else if b = lbracket then
      match expect rbracket (skip bs) with
      | some bs => some (.arr [], bs)
      | none => (elements fuel bs).map fun p => (.arr p.1, p.2)
    else if b = quote then (string bs).map fun p => (.str p.1, p.2)
    else if b = 0x74 then (strip [0x72, 0x75, 0x65] bs).map fun bs => (.bool true, bs)
    else if b = 0x66 then (strip [0x61, 0x6c, 0x73, 0x65] bs).map fun bs => (.bool false, bs)
    else if b = 0x6e then (strip [0x75, 0x6c, 0x6c] bs).map fun bs => (.null, bs)
    else number (b :: bs)

/-- The members of an object, one or more, with its closing brace. -/
def members : Nat → List UInt8 → Option (List (List UInt8 × Value) × List UInt8)
  | 0, _ => none
  | fuel + 1, bs => do
      let bs ← expect quote (skip bs)
      let (k, bs) ← string bs
      let bs ← expect colon (skip bs)
      let (v, bs) ← value fuel (skip bs)
      match expect comma (skip bs) with
      | some bs => (members fuel bs).map fun p => ((k, v) :: p.1, p.2)
      | none => (expect rbrace (skip bs)).map fun bs => ([(k, v)], bs)

/-- The items of an array, one or more, with its closing bracket. -/
def elements : Nat → List UInt8 → Option (List Value × List UInt8)
  | 0, _ => none
  | fuel + 1, bs => do
      let (v, bs) ← value fuel (skip bs)
      match expect comma (skip bs) with
      | some bs => (elements fuel bs).map fun p => (v :: p.1, p.2)
      | none => (expect rbracket (skip bs)).map fun bs => ([v], bs)

end

/-- The value that a text is. -/
def parse (bs : List UInt8) : Option Value := do
  let (v, bs) ← value (2 * bs.length + 2) (skip bs)
  if skip bs = [] then some v else none

/-! ## Tokens -/

theorem expect_self (b : UInt8) (bs : List UInt8) : expect b (b :: bs) = some bs := if_pos rfl

theorem expect_of_ne {b c : UInt8} (h : c ≠ b) (bs : List UInt8) : expect b (c :: bs) = none :=
  if_neg h

theorem skip_cons {b : UInt8} (h : isSpace b = false) (bs : List UInt8) :
    skip (b :: bs) = b :: bs := by
  rw [skip, List.dropWhile_cons, h]
  rfl

theorem skip_space {b : UInt8} (h : isSpace b = true) (bs : List UInt8) :
    skip (b :: bs) = skip bs := by
  rw [skip, List.dropWhile_cons, if_pos h]
  rfl

/-! ## Reading strings -/

theorem string_quote (bs : List UInt8) : string (quote :: bs) = some ([], bs) := by
  rw [string, expect_self]

theorem string_character {bs rest c : List UInt8} (hq : expect quote bs = none)
    (h : character bs = some (c, rest)) :
    string bs = (string rest).map fun p => (c ++ p.1, p.2) := by
  rw [string, hq]
  dsimp only
  split
  · rename_i h'
    rw [h] at h'
    exact nomatch h'
  · rename_i h'
    rw [h] at h'
    cases h'
    rfl

/-- A byte that stands for itself. -/
def Plain (b : UInt8) : Prop := b ≠ quote ∧ b ≠ backslash ∧ ¬ b < 0x20

instance (b : UInt8) : Decidable (Plain b) := inferInstanceAs (Decidable (_ ∧ _ ∧ _))

theorem string_plain {b : UInt8} (h : Plain b) (bs : List UInt8) :
    string (b :: bs) = (string bs).map fun p => (b :: p.1, p.2) := by
  have hc : character (b :: bs) = some ([b], bs) := by
    rw [character, if_neg h.2.1, if_neg h.2.2]
  exact string_character (expect_of_ne h.1 bs) hc

theorem string_escaped {b c : UInt8} (h : escaped? b = some c) (bs : List UInt8) :
    string (backslash :: b :: bs) = (string bs).map fun p => (c :: p.1, p.2) := by
  have hc : character (backslash :: b :: bs) = some ([c], bs) := by
    rw [character, if_pos rfl, escape, h]
  exact string_character (expect_of_ne (by decide) _) hc

theorem string_unicode {n : Nat} {bs rest : List UInt8} (h : hex4 bs = some (n, rest))
    (hhigh : isHigh n = false) (hlow : isLow n = false) :
    string (backslash :: 0x75 :: bs) = (string rest).map fun p => (utf8 n ++ p.1, p.2) := by
  have hnone : escaped? 0x75 = none := by decide
  have hc : character (backslash :: 0x75 :: bs) = some (utf8 n, rest) := by
    rw [character, if_pos rfl, escape, hnone]
    dsimp only
    rw [if_pos rfl, h, Option.map_some, unicode, hhigh, hlow]
    rfl
  exact string_character (expect_of_ne (by decide) _) hc

/-- A string without escapes. -/
theorem string_word {w : List UInt8} (h : ∀ b ∈ w, Plain b) (rest : List UInt8) :
    string (w ++ quote :: rest) = some (w, rest) := by
  induction w with
  | nil => exact string_quote rest
  | cons b w ih =>
    rw [List.cons_append, string_plain (h b List.mem_cons_self),
      ih fun c hc => h c (List.mem_cons_of_mem _ hc)]
    rfl

/-! ## Reading numbers -/

/-- The decimal digits of a number. -/
def decimal (n : Nat) : List UInt8 :=
  if n < 10 then [UInt8.ofNat (0x30 + n)]
  else decimal (n / 10) ++ [UInt8.ofNat (0x30 + n % 10)]

theorem toNat_digit {d : Nat} (h : d < 10) : (UInt8.ofNat (0x30 + d)).toNat = 0x30 + d := by
  rw [UInt8.toNat_ofNat']
  exact Nat.mod_eq_of_lt (by omega)

theorem isDigit_digit {d : Nat} (h : d < 10) : isDigit (UInt8.ofNat (0x30 + d)) = true := by
  revert d
  decide

theorem digitsVal_decimal (n : Nat) : digitsVal (decimal n) = n := by
  induction n using Nat.strongRecOn with
  | _ n ih =>
    rw [decimal]
    split
    · rename_i h
      rw [digitsVal, List.foldl_cons, List.foldl_nil, toNat_digit h]
      omega
    · have hrec : List.foldl _ 0 (decimal (n / 10)) = _ := ih (n / 10) (by omega)
      rw [digitsVal, List.foldl_append, hrec, List.foldl_cons, List.foldl_nil,
        toNat_digit (Nat.mod_lt n (by decide))]
      omega

theorem isDigit_decimal (n : Nat) : ∀ b ∈ decimal n, isDigit b = true := by
  induction n using Nat.strongRecOn with
  | _ n ih =>
    intro b hb
    rw [decimal] at hb
    split at hb
    · rename_i h
      rw [List.mem_singleton.mp hb]
      exact isDigit_digit h
    · rcases List.mem_append.mp hb with hb | hb
      · exact ih (n / 10) (by omega) b hb
      · rw [List.mem_singleton.mp hb]
        exact isDigit_digit (Nat.mod_lt n (by decide))

theorem decimal_ne_nil (n : Nat) : decimal n ≠ [] := by
  rw [decimal]
  split
  · exact List.cons_ne_nil _ _
  · exact List.append_ne_nil_of_right_ne_nil _ (List.cons_ne_nil _ _)

/-- There is no zero in front of other digits. -/
theorem head_decimal {n : Nat} (h : (decimal n).head? = some 0x30) : n = 0 := by
  induction n using Nat.strongRecOn with
  | _ n ih =>
    rw [decimal] at h
    split at h
    · rename_i hlt
      have hn := congrArg UInt8.toNat (Option.some.inj h)
      rw [toNat_digit hlt] at hn
      change 0x30 + n = 0x30 at hn
      omega
    · rw [List.head?_append_of_ne_nil _ (decimal_ne_nil _)] at h
      have := ih (n / 10) (by omega) h
      omega

/-- No number goes on here. -/
def Stops (rest : List UInt8) : Prop :=
  ∀ b ∈ rest.head?, isDigit b = false ∧ b ≠ 0x2e ∧ b ≠ 0x65 ∧ b ≠ 0x45

theorem stops_cons {b : UInt8} (h : isDigit b = false ∧ b ≠ 0x2e ∧ b ≠ 0x65 ∧ b ≠ 0x45)
    (rest : List UInt8) : Stops (b :: rest) := by
  intro c hc
  cases hc
  exact h

theorem Stops.expect {rest : List UInt8} (h : Stops rest) :
    expect 0x2e rest = none ∧ expect 0x65 rest = none ∧ expect 0x45 rest = none := by
  cases rest with
  | nil => exact ⟨rfl, rfl, rfl⟩
  | cons b rest =>
    obtain ⟨-, hpoint, he, hE⟩ := h b rfl
    exact ⟨expect_of_ne hpoint _, expect_of_ne he _, expect_of_ne hE _⟩

theorem digits_decimal (n : Nat) {rest : List UInt8} (h : Stops rest) :
    digits (decimal n ++ rest) = some (decimal n, rest) := by
  have htake : (decimal n ++ rest).takeWhile isDigit = decimal n ∧
      (decimal n ++ rest).dropWhile isDigit = rest := by
    have hall := isDigit_decimal n
    rw [List.takeWhile_append_of_pos hall, List.dropWhile_append_of_pos hall]
    cases rest with
    | nil => exact ⟨List.append_nil _, rfl⟩
    | cons b rest =>
      rw [List.takeWhile_cons, List.dropWhile_cons, (h b rfl).1]
      exact ⟨List.append_nil _, rfl⟩
  rw [digits, htake.1, htake.2, if_neg]
  rw [List.isEmpty_iff]
  exact decimal_ne_nil n

theorem number_decimal (n : Nat) {rest : List UInt8} (h : Stops rest) :
    number (decimal n ++ rest) = some (.num n 0, rest) := by
  obtain ⟨hpoint, he, hE⟩ := h.expect
  have hminus : expect 0x2d (decimal n ++ rest) = none := by
    cases hd : decimal n with
    | nil => exact absurd hd (decimal_ne_nil n)
    | cons b ds =>
      refine expect_of_ne ?_ _
      rintro rfl
      exact absurd (isDigit_decimal n 0x2d (hd ▸ List.mem_cons_self)) (by decide)
  have hzero : ¬ ((decimal n).head? = some 0x30 ∧ (decimal n).length ≠ 1) := by
    rintro ⟨hhead, hlen⟩
    rw [head_decimal hhead] at hlen
    exact hlen (by rw [decimal]; rfl)
  have hunsigned : unsigned (decimal n ++ rest) = some (n, 0, rest) := by
    rw [unsigned, digits_decimal n h]
    dsimp only [Option.bind_eq_bind, Option.bind_some]
    rw [if_neg hzero, fraction, hpoint]
    dsimp only [Option.bind_some]
    rw [exponent, he, hE]
    dsimp only [Option.bind_some, HOrElse.hOrElse, OrElse.orElse, Option.orElse]
    rw [List.append_nil, digitsVal_decimal]
    rfl
  rw [number, hminus, hunsigned]
  rfl

/-! ## Reading values -/

/-- A text of one token, read as `v` wherever a value may end. -/
structure Scalar (text : List UInt8) (v : Value) : Prop where
  skip : ∀ rest, skip (text ++ rest) = text ++ rest
  value : ∀ fuel rest, Stops rest → value (fuel + 1) (text ++ rest) = some (v, rest)

theorem scalar_string {text s : List UInt8} (h : ∀ rest, string (text ++ rest) = some (s, rest)) :
    Scalar (quote :: text) (.str s) where
  skip _ := skip_cons rfl _
  value fuel rest _ := by
    rw [List.cons_append, value, if_neg (by decide), if_neg (by decide), if_pos rfl, h]
    rfl

theorem scalar_true : Scalar [0x74, 0x72, 0x75, 0x65] (.bool true) where
  skip _ := skip_cons rfl _
  value _ _ _ := rfl

theorem scalar_false : Scalar [0x66, 0x61, 0x6c, 0x73, 0x65] (.bool false) where
  skip _ := skip_cons rfl _
  value _ _ _ := rfl

theorem scalar_decimal (n : Nat) : Scalar (decimal n) (.num n 0) := by
  obtain ⟨b, ds, hd⟩ := List.exists_cons_of_ne_nil (decimal_ne_nil n)
  have hb : isDigit b = true := isDigit_decimal n b (hd ▸ List.mem_cons_self)
  have hne : ∀ c, isDigit c = false → b ≠ c := by
    rintro c hc rfl
    rw [hb] at hc
    exact nomatch hc
  refine ⟨fun rest => ?_, fun fuel rest hrest => ?_⟩
  · rw [hd]
    refine skip_cons ?_ _
    rw [isSpace, beq_false_of_ne (hne 0x20 rfl), beq_false_of_ne (hne 0x09 rfl),
      beq_false_of_ne (hne 0x0a rfl), beq_false_of_ne (hne 0x0d rfl)]
    rfl
  · rw [← number_decimal n hrest, hd, List.cons_append, value, if_neg (hne _ rfl),
      if_neg (hne _ rfl), if_neg (hne _ rfl), if_neg (hne _ rfl), if_neg (hne _ rfl),
      if_neg (hne _ rfl)]

/-- A member of an object, as text and as what it is. -/
structure Field where
  key : List UInt8
  text : List UInt8
  value : Value

namespace Field

/-- The key in quotes, a colon, and the value. -/
def member (f : Field) : List UInt8 := quote :: (f.key ++ quote :: colon :: f.text)

structure Ok (f : Field) : Prop where
  key : ∀ b ∈ f.key, Plain b
  text : Scalar f.text f.value

variable {f : Field} {fuel : Nat}

/-- One member, and what decides whether there is another. -/
theorem Ok.members (h : f.Ok) {b : UInt8} {rest : List UInt8} (hb : Stops (b :: rest))
    (hspace : isSpace b = false) :
    Json.members (fuel + 2) (f.member ++ b :: rest) =
      match expect comma (b :: rest) with
      | some bs => (Json.members (fuel + 1) bs).map fun p => ((f.key, f.value) :: p.1, p.2)
      | none => (expect rbrace (b :: rest)).map fun bs => ([(f.key, f.value)], bs) := by
  have hmember : f.member ++ b :: rest =
      quote :: (f.key ++ quote :: (colon :: (f.text ++ b :: rest))) := by
    simp only [member, List.cons_append, List.append_assoc]
  rw [hmember, Json.members, skip_cons rfl, expect_self]
  dsimp only [Option.bind_eq_bind, Option.bind_some]
  rw [string_word h.key]
  dsimp only [Option.bind_some]
  rw [skip_cons rfl, expect_self]
  dsimp only [Option.bind_some]
  rw [h.text.skip, h.text.value fuel _ hb]
  dsimp only [Option.bind_some]
  rw [skip_cons hspace]

end Field

/-- The members of an object, with commas between them. -/
theorem members_intercalate {fs : List Field} (hne : fs ≠ []) (h : ∀ f ∈ fs, f.Ok) (fuel : Nat)
    (rest : List UInt8) :
    members (fs.length + 1 + fuel)
        ([comma].intercalate (fs.map Field.member) ++ rbrace :: rest) =
      some (fs.map fun f => (f.key, f.value), rest) := by
  induction fs with
  | nil => exact absurd rfl hne
  | cons f fs ih =>
    have hf := h f List.mem_cons_self
    cases fs with
    | nil =>
      have hfuel : [f].length + 1 + fuel = fuel + 2 := by
        rw [List.length_singleton]
        omega
      have hone : [comma].intercalate ([f].map Field.member) = f.member := by
        simp [List.intercalate]
      rw [hfuel, hone, hf.members (stops_cons (by decide) _) rfl,
        expect_of_ne (by decide)]
      dsimp only
      rw [expect_self]
      rfl
    | cons g fs =>
      have hfuel : (f :: g :: fs).length + 1 + fuel = (fs.length + 1 + fuel) + 2 := by
        simp only [List.length_cons]
        omega
      have hmore : [comma].intercalate ((f :: g :: fs).map Field.member) ++ rbrace :: rest =
          f.member ++ comma ::
            ([comma].intercalate ((g :: fs).map Field.member) ++ rbrace :: rest) := by
        simp [List.intercalate]
      have hfuel' : (fs.length + 1 + fuel) + 1 = (g :: fs).length + 1 + fuel := by
        simp only [List.length_cons]
        omega
      rw [hfuel, hmore, hf.members (stops_cons (by decide) _) rfl, expect_self]
      dsimp only
      rw [hfuel', ih (List.cons_ne_nil _ _) fun f' hf' => h f' (List.mem_cons_of_mem _ hf')]
      rfl

/-- An object. -/
theorem value_object {fs : List Field} (hne : fs ≠ []) (h : ∀ f ∈ fs, f.Ok) (fuel : Nat)
    (rest : List UInt8) :
    value (fs.length + 2 + fuel)
        (lbrace :: ([comma].intercalate (fs.map Field.member) ++ rbrace :: rest)) =
      some (.obj (fs.map fun f => (f.key, f.value)), rest) := by
  have hfuel : fs.length + 2 + fuel = (fs.length + 1 + fuel) + 1 := by omega
  have hopen : expect rbrace
      (skip ([comma].intercalate (fs.map Field.member) ++ rbrace :: rest)) = none := by
    obtain ⟨f, fs, rfl⟩ := List.exists_cons_of_ne_nil hne
    have hquote : ∃ bs, [comma].intercalate ((f :: fs).map Field.member) ++ rbrace :: rest =
        quote :: bs := by
      cases fs with
      | nil => exact ⟨_, by simp [List.intercalate, Field.member]; rfl⟩
      | cons g fs => exact ⟨_, by simp [List.intercalate, Field.member]; rfl⟩
    obtain ⟨bs, hbs⟩ := hquote
    rw [hbs, skip_cons rfl, expect_of_ne (by decide)]
  rw [hfuel, value, if_pos rfl, hopen]
  dsimp only
  rw [members_intercalate hne h]
  rfl

/-! ## Reading arrays -/

section Arrays

variable {fuel : Nat} {bs rest rest' : List UInt8} {v : Value}

theorem elements_space {b : UInt8} (h : isSpace b = true) (fuel : Nat) (bs : List UInt8) :
    elements fuel (b :: bs) = elements fuel bs := by
  cases fuel with
  | zero => rfl
  | succ fuel => rw [elements, elements, skip_space h]

theorem elements_comma (hv : value fuel (skip bs) = some (v, comma :: rest)) :
    elements (fuel + 1) bs = (elements fuel rest).map fun p => (v :: p.1, p.2) := by
  rw [elements, hv]
  dsimp only [Option.bind_eq_bind, Option.bind_some]
  rw [skip_cons rfl, expect_self]

theorem elements_last (hv : value fuel (skip bs) = some (v, rest))
    (hrest : skip rest = rbracket :: rest') : elements (fuel + 1) bs = some ([v], rest') := by
  rw [elements, hv]
  dsimp only [Option.bind_eq_bind, Option.bind_some]
  rw [hrest, expect_of_ne (by decide), expect_self]
  rfl

/-- A comma is not followed by the closing bracket. -/
theorem elements_rbracket (fuel : Nat) (bs : List UInt8) :
    elements fuel (rbracket :: bs) = none := by
  have hvalue : ∀ fuel, value fuel (rbracket :: bs) = none := by
    intro fuel
    cases fuel with
    | zero => rfl
    | succ fuel => rfl
  cases fuel with
  | zero => rfl
  | succ fuel =>
    rw [elements, skip_cons rfl, hvalue]
    rfl

theorem value_array (h : expect rbracket (skip bs) = none) :
    value (fuel + 1) (lbracket :: bs) = (elements fuel bs).map fun p => (.arr p.1, p.2) := by
  rw [value, if_neg (by decide), if_pos rfl, h]

end Arrays

/-! ## UTF-8 -/

/-- The bytes of some characters. -/
def Utf8 (bs : List UInt8) : Prop := ∃ cs : List Char, bs = cs.flatMap String.utf8EncodeChar

theorem utf8_nil : Utf8 [] := ⟨[], rfl⟩

theorem Utf8.append {bs bs' : List UInt8} (h : Utf8 bs) (h' : Utf8 bs') : Utf8 (bs ++ bs') := by
  obtain ⟨cs, rfl⟩ := h
  obtain ⟨cs', rfl⟩ := h'
  exact ⟨cs ++ cs', (List.flatMap_append).symm⟩

theorem utf8_flatMap {α : Type} {f : α → List UInt8} {l : List α} (h : ∀ a ∈ l, Utf8 (f a)) :
    Utf8 (l.flatMap f) := by
  induction l with
  | nil => exact utf8_nil
  | cons a l ih =>
    rw [List.flatMap_cons]
    exact (h a List.mem_cons_self).append (ih fun b hb => h b (List.mem_cons_of_mem _ hb))

theorem utf8_intercalate {sep : List UInt8} {l : List (List UInt8)} (hsep : Utf8 sep)
    (h : ∀ bs ∈ l, Utf8 bs) : Utf8 (sep.intercalate l) := by
  induction l with
  | nil => exact utf8_nil
  | cons a l ih =>
    have ha := h a List.mem_cons_self
    cases l with
    | nil => simpa [List.intercalate] using ha
    | cons b l =>
      have hmore : sep.intercalate (a :: b :: l) = a ++ (sep ++ sep.intercalate (b :: l)) := by
        simp [List.intercalate]
      rw [hmore]
      exact ha.append (hsep.append (ih fun c hc => h c (List.mem_cons_of_mem _ hc)))

theorem utf8_ofNat {n : Nat} (h : n < 128) : utf8 n = [UInt8.ofNat n] := by
  revert n
  decide

/-- All bytes are below 128. -/
def ascii (bs : List UInt8) : Bool := bs.all (· < 128)

theorem utf8_ascii {bs : List UInt8} (h : ascii bs = true) : Utf8 bs := by
  induction bs with
  | nil => exact utf8_nil
  | cons b bs ih =>
    simp only [ascii, List.all_cons, Bool.and_eq_true, decide_eq_true_eq] at h
    obtain ⟨hlt, hbs⟩ := h
    have hb : b.toNat < 128 := UInt8.lt_iff_toNat_lt.mp hlt
    have hone : Utf8 [b] := by
      refine ⟨[Char.ofNat b.toNat], ?_⟩
      rw [List.flatMap_singleton]
      have henc := utf8_ofNat hb
      rw [utf8, UInt8.ofNat_toNat] at henc
      exact henc.symm
    exact hone.append (ih hbs)

theorem not_ofNat_lt {m : Nat} (h : 128 ≤ m) (h' : m < 256) : ¬ UInt8.ofNat m < 128 := by
  intro hlt
  have hlt := UInt8.lt_iff_toNat_lt.mp hlt
  rw [UInt8.toNat_ofNat', Nat.mod_eq_of_lt h'] at hlt
  exact absurd hlt (Nat.not_lt.mpr h)

/-- A character is one byte below 128, or has none. -/
theorem utf8EncodeChar_cases (c : Char) :
    (∃ b < 128, String.utf8EncodeChar c = [b]) ∨ ∀ b ∈ String.utf8EncodeChar c, ¬ b < 128 := by
  unfold String.utf8EncodeChar
  dsimp only
  split
  · rename_i h
    refine Or.inl ⟨_, UInt8.lt_iff_toNat_lt.mpr ?_, rfl⟩
    rw [UInt8.toNat_ofNat', Nat.mod_eq_of_lt (by omega)]
    exact Nat.lt_succ_of_le h
  · refine Or.inr ?_
    split
    · rw [List.forall_mem_cons, List.forall_mem_singleton]
      exact ⟨not_ofNat_lt (by omega) (by omega), not_ofNat_lt (by omega) (by omega)⟩
    · split
      · rw [List.forall_mem_cons, List.forall_mem_cons, List.forall_mem_singleton]
        exact ⟨not_ofNat_lt (by omega) (by omega), not_ofNat_lt (by omega) (by omega),
          not_ofNat_lt (by omega) (by omega)⟩
      · rw [List.forall_mem_cons, List.forall_mem_cons, List.forall_mem_cons,
          List.forall_mem_singleton]
        exact ⟨not_ofNat_lt (by omega) (by omega), not_ofNat_lt (by omega) (by omega),
          not_ofNat_lt (by omega) (by omega), not_ofNat_lt (by omega) (by omega)⟩

/-- Bytes below 128 are replaced, all others kept: the characters above 127 stay as they are. -/
theorem Utf8.replace {f : UInt8 → List UInt8} (hlow : ∀ b < 128, Utf8 (f b))
    (hhigh : ∀ b, ¬ b < 128 → f b = [b]) {bs : List UInt8} (h : Utf8 bs) : Utf8 (bs.flatMap f) := by
  obtain ⟨cs, rfl⟩ := h
  rw [List.flatMap_assoc]
  refine utf8_flatMap fun c _ => ?_
  rcases utf8EncodeChar_cases c with ⟨b, hb, hc⟩ | hc
  · rw [hc, List.flatMap_singleton]
    exact hlow b hb
  · have hkeep : ∀ bs : List UInt8, (∀ b ∈ bs, ¬ b < 128) → bs.flatMap f = bs := by
      intro bs hbs
      induction bs with
      | nil => rfl
      | cons b bs ih =>
        rw [List.flatMap_cons, hhigh b (hbs b List.mem_cons_self),
          ih fun b' hb' => hbs b' (List.mem_cons_of_mem _ hb')]
        rfl
    rw [hkeep _ hc]
    exact ⟨[c], (List.flatMap_singleton ..).symm⟩

end Json
