/-
# `harness/history.cpp`: the history as a JSON text

`to_json` writes the completed operations, one object a line.  Strings are escaped byte by
byte; the comma behind an object is written unless it is that of the last entry of the
history, pending entries counted.  So the text ends with a comma before the bracket, and
is no JSON, exactly when the last entry is pending and some entry is not
(`parse_trailing_comma`).  In every other case it is read as `History.toJson`, the array
that the glue goes through (`toJsonText_parses`).
-/
import SimKV.Lib.Json
import SimKV.Checker.PorcupineGlue

namespace SimKV

open Json

/-! ## The text -/

/-- A digit of `%x`. -/
def hexDigit (n : Nat) : UInt8 := UInt8.ofNat (if n < 10 then 0x30 + n else 0x57 + n)

/-- `%04x`. -/
def format04x (c : UInt8) : List UInt8 :=
  [hexDigit (c.toNat / 4096 % 16), hexDigit (c.toNat / 256 % 16), hexDigit (c.toNat / 16 % 16),
    hexDigit (c.toNat % 16)]

/-- The body of the loop of `json_escape`. -/
def jsonEscapeByte (c : UInt8) : List UInt8 :=
  if c = quote then (Str.lit "\\\"").bytes
  else if c = backslash then (Str.lit "\\\\").bytes
  else if c = 0x0a then (Str.lit "\\n").bytes
  else if c = 0x0d then (Str.lit "\\r").bytes
  else if c = 0x09 then (Str.lit "\\t").bytes
  else if c < 0x20 then (Str.lit "\\u").bytes ++ format04x c
  else [c]

def jsonEscape (s : Str) : List UInt8 := quote :: (s.bytes.flatMap jsonEscapeByte ++ [quote])

/-- The fields of an entry, in the order in which they are written: the name, the text behind it,
and the value that the text is. -/
def HistEntry.fields (e : HistEntry) : List Field :=
  [⟨(Str.lit "id").bytes, decimal e.id, .num e.id 0⟩,
    ⟨(Str.lit "client_id").bytes, decimal e.clientID, .num e.clientID 0⟩,
    ⟨(Str.lit "request_id").bytes, decimal e.requestID, .num e.requestID 0⟩,
    ⟨(Str.lit "op").bytes, jsonEscape e.op, .str e.op.bytes⟩,
    ⟨(Str.lit "key").bytes, jsonEscape e.key, .str e.key.bytes⟩,
    ⟨(Str.lit "value").bytes, jsonEscape e.value, .str e.value.bytes⟩,
    ⟨(Str.lit "expected").bytes, jsonEscape e.expected, .str e.expected.bytes⟩,
    ⟨(Str.lit "start").bytes, decimal e.start, .num e.start 0⟩,
    ⟨(Str.lit "end").bytes, decimal e.finish, .num e.finish 0⟩,
    ⟨(Str.lit "ok").bytes, (Str.lit (if e.ok then "true" else "false")).bytes, .bool e.ok⟩,
    ⟨(Str.lit "response").bytes, jsonEscape e.response, .str e.response.bytes⟩]

/-- The line of an entry, up to its closing brace. -/
def HistEntry.text (e : HistEntry) : List UInt8 :=
  (Str.lit "  \x7b").bytes ++ [comma].intercalate (e.fields.map Field.member) ++ [rbrace]

/-- `History::to_json`. -/
def History.toJsonText (h : History) : List UInt8 :=
  (Str.lit "[\n").bytes ++
    (h.entries.zipIdx.flatMap fun p =>
      if p.1.pending then []
      else (p.1.json p.2).text ++ (if p.2 + 1 < h.entries.length then [comma] else []) ++ [0x0a]) ++
    (Str.lit "]\n").bytes

/-- The object that an entry is written as. -/
def HistEntry.object (e : HistEntry) : Value := .obj (e.fields.map fun f => (f.key, f.value))

/-! ## One entry -/

theorem hexDigit?_hexDigit {n : Nat} (h : n < 16) : hexDigit? (hexDigit n) = some n := by
  revert n
  decide

theorem hex4_format04x (c : UInt8) (rest : List UInt8) :
    hex4 (format04x c ++ rest) = some (c.toNat, rest) := by
  have hc : c.toNat < 256 := c.toNat_lt
  have hd (n : Nat) : hexDigit? (hexDigit (n % 16)) = some (n % 16) :=
    hexDigit?_hexDigit (Nat.mod_lt n (by decide))
  have hval : 4096 * (c.toNat / 4096 % 16) + 256 * (c.toNat / 256 % 16) +
      16 * (c.toNat / 16 % 16) + c.toNat % 16 = c.toNat := by omega
  simp only [format04x, List.cons_append, List.nil_append, hex4, hd, Option.bind_eq_bind,
    Option.bind_some, hval]

/-- What is written for a byte is read as that byte. -/
theorem string_jsonEscapeByte (c : UInt8) (rest : List UInt8) :
    string (jsonEscapeByte c ++ rest) = (string rest).map fun p => (c :: p.1, p.2) := by
  unfold jsonEscapeByte
  split
  · rename_i h
    subst h
    exact string_escaped rfl rest
  · rename_i hquote
    split
    · rename_i h
      subst h
      exact string_escaped rfl rest
    · rename_i hback
      split
      · rename_i h
        subst h
        exact string_escaped rfl rest
      · split
        · rename_i h
          subst h
          exact string_escaped rfl rest
        · split
          · rename_i h
            subst h
            exact string_escaped rfl rest
          · split
            · rename_i h
              have hc : c.toNat < 32 := UInt8.lt_iff_toNat_lt.mp h
              have hhigh : isHigh c.toNat = false := by
                rw [isHigh, decide_eq_false (by omega), Bool.false_and]
              have hlow : isLow c.toNat = false := by
                rw [isLow, decide_eq_false (by omega), Bool.false_and]
              have hbyte : utf8 c.toNat = [c] := by
                rw [utf8_ofNat (by omega), UInt8.ofNat_toNat]
              have hu := string_unicode (hex4_format04x c rest) hhigh hlow
              rw [hbyte] at hu
              exact hu
            · rename_i h
              exact string_plain ⟨hquote, hback, h⟩ rest

theorem string_jsonEscape (s rest : List UInt8) :
    string ((s.flatMap jsonEscapeByte ++ [quote]) ++ rest) = some (s, rest) := by
  induction s with
  | nil => exact string_quote rest
  | cons c s ih =>
    rw [List.flatMap_cons, List.append_assoc, List.append_assoc, string_jsonEscapeByte,
      ← List.append_assoc, ih]
    rfl

theorem scalar_jsonEscape (s : Str) : Scalar (jsonEscape s) (.str s.bytes) :=
  scalar_string (string_jsonEscape s.bytes)

/-- The names of the fields. -/
def fieldNames : List (List UInt8) :=
  ["id", "client_id", "request_id", "op", "key", "value", "expected", "start", "end", "ok",
    "response"].map fun name => (Str.lit name).bytes

theorem plain_fieldNames : ∀ name ∈ fieldNames, ∀ b ∈ name, Plain b := by
  have hall : ∀ name ∈ fieldNames, name.all (Plain ·) = true := by decide
  intro name hname b hb
  exact of_decide_eq_true (List.all_eq_true.mp (hall name hname) b hb)

theorem HistEntry.ok_fields (e : HistEntry) : ∀ f ∈ e.fields, f.Ok := by
  have hkeys : e.fields.map Field.key = fieldNames := rfl
  have hok : Scalar (Str.lit (if e.ok then "true" else "false")).bytes (.bool e.ok) := by
    cases e.ok with
    | true => exact scalar_true
    | false => exact scalar_false
  have htexts : ∀ f ∈ e.fields, Scalar f.text f.value := by
    simp only [HistEntry.fields, List.forall_mem_cons]
    exact ⟨scalar_decimal _, scalar_decimal _, scalar_decimal _, scalar_jsonEscape _,
      scalar_jsonEscape _, scalar_jsonEscape _, scalar_jsonEscape _, scalar_decimal _,
      scalar_decimal _, hok, scalar_jsonEscape _, fun f hf => nomatch hf⟩
  intro f hf
  exact ⟨plain_fieldNames f.key (hkeys ▸ List.mem_map_of_mem hf), htexts f hf⟩

/-- The line without its indentation. -/
theorem HistEntry.skip_text (e : HistEntry) (rest : List UInt8) :
    skip (e.text ++ rest) =
      lbrace :: ([comma].intercalate (e.fields.map Field.member) ++ rbrace :: rest) := by
  have htext : e.text ++ rest = 0x20 :: 0x20 :: lbrace ::
      ([comma].intercalate (e.fields.map Field.member) ++ rbrace :: rest) := by
    rw [HistEntry.text, List.append_assoc, List.append_assoc]
    rfl
  rw [htext, skip_space rfl, skip_space rfl, skip_cons rfl]

theorem HistEntry.value_text (e : HistEntry) (fuel : Nat) (rest : List UInt8) :
    Json.value (13 + fuel) (skip (e.text ++ rest)) = some (e.object, rest) := by
  rw [e.skip_text]
  exact value_object (List.cons_ne_nil _ _) e.ok_fields fuel rest

/-! ## The lines -/

/-- The lines of the entries from number `i` on: the last entry is the one that none follows. -/
def rows : Nat → List HistoryEntry → List UInt8
  | _, [] => []
  | i, e :: es =>
    (if e.pending then []
      else (e.json i).text ++ (if es = [] then [] else [comma]) ++ [0x0a]) ++ rows (i + 1) es

/-- The entries that are written, from number `i` on. -/
def written : Nat → List HistoryEntry → List HistEntry
  | _, [] => []
  | i, e :: es => if e.pending then written (i + 1) es else e.json i :: written (i + 1) es

theorem flatMap_zipIdx_eq_rows (es : List HistoryEntry) (i n : Nat) (h : i + es.length = n) :
    ((es.zipIdx i).flatMap fun p =>
      if p.1.pending then []
      else (p.1.json p.2).text ++ (if p.2 + 1 < n then [comma] else []) ++ [0x0a]) = rows i es := by
  induction es generalizing i with
  | nil => rfl
  | cons e es ih =>
    have hlast : (i + 1 < n) ↔ ¬ es = [] := by
      rw [← List.length_eq_zero_iff, ← h, List.length_cons]
      omega
    rw [List.zipIdx_cons, List.flatMap_cons, ih (i + 1) (by rw [← h, List.length_cons]; omega),
      rows]
    simp only [hlast, ite_not]

theorem toJsonText_eq (h : History) :
    h.toJsonText = lbracket :: 0x0a :: (rows 0 h.entries ++ [rbracket, 0x0a]) := by
  rw [History.toJsonText, flatMap_zipIdx_eq_rows h.entries 0 _ (Nat.zero_add _)]
  rfl

theorem toJson_eq (h : History) : h.toJson = written 0 h.entries := by
  rw [History.toJson]
  generalize 0 = i
  induction h.entries generalizing i with
  | nil => rfl
  | cons e es ih =>
    rw [List.zipIdx_cons, List.filter_cons, written]
    cases he : e.pending with
    | true => exact ih (i + 1)
    | false =>
      rw [← ih (i + 1)]
      rfl

theorem rows_eq_nil {es : List HistoryEntry} (h : ∀ e ∈ es, e.pending = true) (i : Nat) :
    rows i es = [] ∧ written i es = [] := by
  induction es generalizing i with
  | nil => exact ⟨rfl, rfl⟩
  | cons e es ih =>
    obtain ⟨hrows, hwritten⟩ := ih (fun e' he' => h e' (List.mem_cons_of_mem _ he')) (i + 1)
    rw [rows, written, h e List.mem_cons_self, hrows, hwritten]
    exact ⟨rfl, rfl⟩

section Rows

variable {es : List HistoryEntry} {i : Nat} {e : HistoryEntry}

theorem rows_pending (h : e.pending = true) : rows i (e :: es) = rows (i + 1) es := by
  rw [rows, if_pos h, List.nil_append]

theorem rows_last (h : e.pending = false) (rest : List UInt8) :
    rows i [e] ++ rest = (e.json i).text ++ 0x0a :: rest := by
  rw [rows, if_neg (by rw [h]; decide), if_pos rfl, rows, List.append_nil, List.append_nil,
    List.append_assoc]
  rfl

theorem rows_comma (h : e.pending = false) (hne : es ≠ []) (rest : List UInt8) :
    rows i (e :: es) ++ rest =
      (e.json i).text ++ comma :: 0x0a :: (rows (i + 1) es ++ rest) := by
  rw [rows, if_neg (by rw [h]; decide), if_neg hne]
  simp only [List.append_assoc, List.cons_append, List.nil_append]

theorem written_pending (h : e.pending = true) : written i (e :: es) = written (i + 1) es :=
  if_pos h

theorem written_complete (h : e.pending = false) :
    written i (e :: es) = e.json i :: written (i + 1) es :=
  if_neg (by rw [h]; decide)

/-- The entry is read, with what follows its line. -/
theorem value_json (e : HistoryEntry) (i n fuel : Nat) (rest : List UInt8) :
    Json.value (n + 13 + fuel) (skip ((e.json i).text ++ rest)) =
      some ((e.json i).object, rest) := by
  have hfuel : n + 13 + fuel = 13 + (n + fuel) := by omega
  rw [hfuel, HistEntry.value_text]

/-- A line, its comma, and the lines behind it. -/
theorem elements_rows_comma (he : e.pending = false) (hes : es ≠ []) (i fuel : Nat)
    (rest : List UInt8) :
    elements ((written i (e :: es)).length + 13 + fuel) (rows i (e :: es) ++ rest) =
      (elements ((written (i + 1) es).length + 13 + fuel) (rows (i + 1) es ++ rest)).map
        fun p => ((e.json i).object :: p.1, p.2) := by
  have hfuel : (e.json i :: written (i + 1) es).length + 13 + fuel =
      ((written (i + 1) es).length + 13 + fuel) + 1 := by
    rw [List.length_cons]
    omega
  rw [written_complete he, rows_comma he hes, hfuel, elements_comma (value_json e i _ fuel _),
    elements_space rfl]

/-- The lines are the items of an array, if the last entry is complete.  Induction on the entries:
the first is the last, or it is pending and not written, or a comma follows. -/
theorem elements_rows (hne : es ≠ []) (hlast : ∀ e ∈ es.getLast?, e.pending = false) (i fuel : Nat)
    (rest : List UInt8) :
    elements ((written i es).length + 13 + fuel) (rows i es ++ rbracket :: rest) =
      some ((written i es).map HistEntry.object, rest) := by
  induction es generalizing i with
  | nil => exact absurd rfl hne
  | cons e es ih =>
    by_cases hes : es = []
    · subst hes
      have he : e.pending = false := hlast e rfl
      have hend : skip (0x0a :: rbracket :: rest) = rbracket :: rest := by
        rw [skip_space rfl, skip_cons rfl]
      have hfuel : (e.json i :: written (i + 1) []).length + 13 + fuel = (0 + 13 + fuel) + 1 := by
        simp only [written, List.length_singleton]
        omega
      rw [written_complete he, rows_last he, hfuel, elements_last (value_json e i 0 fuel _) hend]
      rfl
    · rw [List.getLast?_cons_of_ne_nil hes] at hlast
      cases he : e.pending with
      | true =>
        rw [written_pending he, rows_pending he]
        exact ih hes hlast (i + 1)
      | false =>
        rw [elements_rows_comma he hes, ih hes hlast (i + 1), written_complete he]
        rfl

/-- The lines end with a comma, if the last entry is pending and some entry is not. -/
theorem elements_rows_pending (hsome : ∃ e ∈ es, e.pending = false)
    (hlast : ∃ e ∈ es.getLast?, e.pending = true) (i fuel : Nat) (rest : List UInt8) :
    elements ((written i es).length + 13 + fuel) (rows i es ++ rbracket :: rest) = none := by
  induction es generalizing i with
  | nil =>
    obtain ⟨e, he, -⟩ := hsome
    exact nomatch he
  | cons e es ih =>
    have hes : es ≠ [] := by
      rintro rfl
      obtain ⟨e', he', hp⟩ := hlast
      obtain ⟨e'', he'', hc⟩ := hsome
      have heq : e = e' := Option.some.inj he'
      rw [List.mem_singleton.mp he'', heq, hp] at hc
      exact nomatch hc
    rw [List.getLast?_cons_of_ne_nil hes] at hlast
    by_cases hrest : ∃ e' ∈ es, e'.pending = false
    · cases he : e.pending with
      | true =>
        rw [written_pending he, rows_pending he]
        exact ih hrest hlast (i + 1)
      | false =>
        rw [elements_rows_comma he hes, ih hrest hlast (i + 1)]
        rfl
    · -- this is the last line, and its comma is written because of the pending entries
      have hpending : ∀ e' ∈ es, e'.pending = true := fun e' he' =>
        Bool.of_not_eq_false fun hf => hrest ⟨e', he', hf⟩
      have he : e.pending = false := by
        obtain ⟨e', he', hc⟩ := hsome
        rcases List.mem_cons.mp he' with rfl | he'
        · exact hc
        · exact absurd ⟨e', he', hc⟩ hrest
      rw [elements_rows_comma he hes, (rows_eq_nil hpending (i + 1)).1, List.nil_append,
        elements_rbracket]
      rfl

/-- A line is longer than the number of steps that reading it takes beyond those of its fields. -/
theorem length_text (e : HistEntry) : 7 ≤ e.text.length := by
  have htext : e.text = (Str.lit "  \x7b\"id\":").bytes ++ e.text.drop 8 := rfl
  rw [htext, List.length_append]
  exact Nat.le_add_right_of_le (by decide)

theorem length_rows (es : List HistoryEntry) (i : Nat) :
    7 * (written i es).length ≤ (rows i es).length := by
  induction es generalizing i with
  | nil => exact Nat.le_refl _
  | cons e es ih =>
    have hrest := ih (i + 1)
    cases he : e.pending with
    | true =>
      rw [written_pending he, rows_pending he]
      exact hrest
    | false =>
      have hlen := length_text (e.json i)
      rw [written_complete he, rows, if_neg (by rw [he]; decide)]
      simp only [List.length_cons, List.length_append]
      omega

/-- Induction up to the first entry that is complete. -/
theorem first_complete {P : Nat → List HistoryEntry → Prop}
    (pending : ∀ i e es, e.pending = true → P (i + 1) es → P i (e :: es))
    (complete : ∀ i e es, e.pending = false → P i (e :: es))
    (h : ∃ e ∈ es, e.pending = false) (i : Nat) : P i es := by
  induction es generalizing i with
  | nil =>
    obtain ⟨e, he, -⟩ := h
    exact nomatch he
  | cons e es ih =>
    cases he : e.pending with
    | true =>
      obtain ⟨e', he', hc⟩ := h
      rcases List.mem_cons.mp he' with rfl | he'
      · rw [he] at hc
        exact nomatch hc
      · exact pending i e es he (ih ⟨e', he', hc⟩ (i + 1))
    | false => exact complete i e es he

theorem written_ne_nil (h : ∃ e ∈ es, e.pending = false) (i : Nat) : written i es ≠ [] := by
  refine first_complete (P := fun i es => written i es ≠ []) (fun i e es he ih => ?_)
    (fun i e es he => ?_) h i
  · rw [written_pending he]
    exact ih
  · rw [written_complete he]
    exact List.cons_ne_nil _ _

/-- The first line begins with a brace. -/
theorem skip_rows (h : ∃ e ∈ es, e.pending = false) (i : Nat) (rest : List UInt8) :
    ∃ bs, skip (rows i es ++ rest) = lbrace :: bs := by
  refine first_complete (P := fun i es => ∃ bs, skip (rows i es ++ rest) = lbrace :: bs)
    (fun i e es he ih => ?_) (fun i e es he => ?_) h i
  · rw [rows_pending he]
    exact ih
  · rw [rows, if_neg (by rw [he]; decide), List.append_assoc, List.append_assoc,
      List.append_assoc, HistEntry.skip_text]
    exact ⟨_, rfl⟩

end Rows

/-- The text of a history with a completed entry, as the reader of arrays sees it. -/
theorem parse_toJsonText {h : History} (hsome : ∃ e ∈ h.entries, e.pending = false) :
    ∃ fuel, parse h.toJsonText =
      (elements ((written 0 h.entries).length + 13 + fuel)
        (rows 0 h.entries ++ rbracket :: [0x0a])).bind fun p =>
          if skip p.2 = [] then some (.arr p.1) else none := by
  have hone : 0 < (written 0 h.entries).length :=
    List.length_pos_of_ne_nil (written_ne_nil hsome 0)
  have hlen := length_rows h.entries 0
  obtain ⟨bs, hbs⟩ := skip_rows hsome 0 (rbracket :: [0x0a])
  have hopen :
      expect rbracket (skip (0x0a :: (rows 0 h.entries ++ rbracket :: [0x0a]))) = none := by
    rw [skip_space rfl, hbs, expect_of_ne (by decide)]
  have hfuel : 2 * h.toJsonText.length + 2 = ((written 0 h.entries).length + 13 +
      (2 * h.toJsonText.length - 12 - (written 0 h.entries).length)) + 1 := by
    have : h.toJsonText.length = (rows 0 h.entries).length + 4 := by
      rw [toJsonText_eq]
      simp only [List.length_cons, List.length_append, List.length_nil]
    omega
  refine ⟨2 * h.toJsonText.length - 12 - (written 0 h.entries).length, ?_⟩
  rw [parse, hfuel, toJsonText_eq, skip_cons rfl, value_array hopen, elements_space rfl]
  cases elements _ _ with
  | none => rfl
  | some p => rfl

/-- **The comma before the bracket**: the last entry is pending and some entry is not. -/
theorem parse_trailing_comma {h : History} (hsome : ∃ e ∈ h.entries, e.pending = false)
    (hlast : ∃ e ∈ h.entries.getLast?, e.pending = true) : parse h.toJsonText = none := by
  obtain ⟨fuel, hparse⟩ := parse_toJsonText hsome
  rw [hparse, elements_rows_pending hsome hlast]
  rfl

/-- Otherwise the text is the array of the completed entries. -/
theorem parse_of_last {h : History} (hlast : ∀ e ∈ h.entries.getLast?, e.pending = true →
      ∀ e' ∈ h.entries, e'.pending = true) :
    parse h.toJsonText = some (.arr (h.toJson.map HistEntry.object)) := by
  rw [toJson_eq]
  by_cases hsome : ∃ e ∈ h.entries, e.pending = false
  · obtain ⟨fuel, hparse⟩ := parse_toJsonText hsome
    have hne : h.entries ≠ [] := by
      obtain ⟨e, he, -⟩ := hsome
      exact List.ne_nil_of_mem he
    have hcomplete : ∀ e ∈ h.entries.getLast?, e.pending = false := by
      intro e he
      refine Bool.of_not_eq_true fun hp => ?_
      obtain ⟨e', he', hc⟩ := hsome
      rw [hlast e he hp e' he'] at hc
      exact nomatch hc
    rw [hparse, elements_rows hne hcomplete]
    rfl
  · have hpending : ∀ e ∈ h.entries, e.pending = true := fun e he =>
      Bool.of_not_eq_false fun hf => hsome ⟨e, he, hf⟩
    obtain ⟨hrows, hwritten⟩ := rows_eq_nil hpending 0
    rw [toJsonText_eq, hrows, hwritten]
    rfl

/-! ## UTF-8 -/

/-- The strings of an entry are UTF-8. -/
structure HistoryEntry.Utf8Strings (e : HistoryEntry) : Prop where
  key : Utf8 e.key.bytes
  value : Utf8 e.value.bytes
  expected : Utf8 e.expected.bytes
  response : Utf8 e.response.bytes

theorem ascii_jsonEscapeByte {c : UInt8} (h : c < 128) : ascii (jsonEscapeByte c) = true := by
  have hall : ∀ n < 128, ascii (jsonEscapeByte (UInt8.ofNat n)) = true := by decide
  have hc := hall c.toNat (UInt8.lt_iff_toNat_lt.mp h)
  rwa [UInt8.ofNat_toNat] at hc

theorem jsonEscapeByte_high {c : UInt8} (h : ¬ c < 128) : jsonEscapeByte c = [c] := by
  have hne : ∀ b : UInt8, b < 128 → c ≠ b := fun b hb heq => h (heq ▸ hb)
  have hlow : ¬ c < 0x20 := fun hlt => h (UInt8.lt_trans hlt (by decide))
  rw [jsonEscapeByte, if_neg (hne _ (by decide)), if_neg (hne _ (by decide)),
    if_neg (hne _ (by decide)), if_neg (hne _ (by decide)), if_neg (hne _ (by decide)),
    if_neg hlow]

theorem utf8_jsonEscape {s : Str} (h : Utf8 s.bytes) : Utf8 (jsonEscape s) := by
  have hquote : Utf8 [quote] := utf8_ascii (by decide)
  have hbody := h.replace (fun c hc => utf8_ascii (ascii_jsonEscapeByte hc))
    fun c hc => jsonEscapeByte_high hc
  exact hquote.append (hbody.append hquote)

theorem utf8_decimal (n : Nat) : Utf8 (decimal n) := by
  refine utf8_ascii (List.all_eq_true.mpr fun b hb => ?_)
  have hd := isDigit_decimal n b hb
  simp only [isDigit, Bool.and_eq_true, decide_eq_true_eq] at hd
  exact decide_eq_true (UInt8.lt_of_le_of_lt hd.2 (by decide))

theorem utf8_text {e : HistoryEntry} (h : e.Utf8Strings) (i : Nat) : Utf8 (e.json i).text := by
  have hkind : Utf8 (jsonEscape e.kind.str) := by
    refine utf8_jsonEscape (utf8_ascii ?_)
    cases e.kind <;> decide
  have hok : Utf8 (Str.lit (if e.ok then "true" else "false")).bytes := by
    cases e.ok <;> exact utf8_ascii (by decide)
  have hnames : ∀ name ∈ fieldNames, ascii name = true := by decide
  have hkeys : (e.json i).fields.map Field.key = fieldNames := rfl
  have htexts : ∀ f ∈ (e.json i).fields, Utf8 f.text := by
    simp only [HistEntry.fields, List.forall_mem_cons]
    exact ⟨utf8_decimal _, utf8_decimal _, utf8_decimal _, hkind, utf8_jsonEscape h.key,
      utf8_jsonEscape h.value, utf8_jsonEscape h.expected, utf8_decimal _, utf8_decimal _, hok,
      utf8_jsonEscape h.response, fun f hf => nomatch hf⟩
  have hmembers : ∀ bs ∈ (e.json i).fields.map Field.member, Utf8 bs := by
    intro bs hbs
    obtain ⟨f, hf, rfl⟩ := List.mem_map.mp hbs
    have hkey : Utf8 f.key := utf8_ascii (hnames f.key (hkeys ▸ List.mem_map_of_mem hf))
    have hopen : Utf8 [quote] := utf8_ascii (by decide)
    have hclose : Utf8 [quote, colon] := utf8_ascii (by decide)
    exact hopen.append (hkey.append (hclose.append (htexts f hf)))
  have hcomma : Utf8 [comma] := utf8_ascii (by decide)
  have hbody := utf8_intercalate hcomma hmembers
  exact ((utf8_ascii (by decide)).append hbody).append (utf8_ascii (by decide))

theorem utf8_toJsonText {h : History} (hutf : ∀ e ∈ h.entries, e.Utf8Strings) :
    Utf8 h.toJsonText := by
  refine ((utf8_ascii (by decide)).append (utf8_flatMap fun p hp => ?_)).append
    (utf8_ascii (by decide))
  split
  · exact utf8_nil
  · have hcomma : Utf8 (if p.2 + 1 < h.entries.length then [comma] else []) := by
      split
      · exact utf8_ascii (by decide)
      · exact utf8_nil
    exact ((utf8_text (hutf p.1 (List.fst_mem_of_mem_zipIdx hp)) p.2).append hcomma).append
      (utf8_ascii (by decide))

/-- **The history as JSON.**  For every history of UTF-8 strings: the text is UTF-8 and a JSON array
whose items are the completed entries in order, each with its fields as they are, if and only if the
last entry is not pending, or all are. -/
theorem toJsonText_parses (h : History) (hutf : ∀ e ∈ h.entries, e.Utf8Strings) :
    (Utf8 h.toJsonText ∧ parse h.toJsonText = some (.arr (h.toJson.map HistEntry.object))) ↔
      ∀ e ∈ h.entries.getLast?, e.pending = true → ∀ e' ∈ h.entries, e'.pending = true := by
  constructor
  · rintro ⟨-, hparse⟩ e he hp e' he'
    by_contra hc
    have hnone : parse h.toJsonText = none :=
      parse_trailing_comma ⟨e', he', Bool.of_not_eq_true hc⟩ ⟨e, he, hp⟩
    rw [hnone] at hparse
    exact nomatch hparse
  · intro hlast
    exact ⟨utf8_toJsonText hutf, parse_of_last hlast⟩

/-- A Put of a key with a quote, a control character and an accent; a Get that is pending; a Cas. -/
def mixedHistory : History where
  entries := [
    ⟨1, 7, .put, ⟨[quote, 0x01, 0xc3, 0xa9]⟩, .lit "a\\b", .lit "", 5, 9, .lit "ok", true, false⟩,
    ⟨2, 7, .get, .lit "k", .lit "", .lit "", 6, 0, .lit "", false, true⟩,
    ⟨1, 8, .cas, .lit "k", .lit "x", .lit "y", 10, 12, .lit "cas_mismatch", false, false⟩]

theorem toJsonText_parses_mixed :
    mixedHistory.toJson.map HistEntry.id = [0, 2] ∧ Utf8 mixedHistory.toJsonText ∧
      parse mixedHistory.toJsonText = some (.arr (mixedHistory.toJson.map HistEntry.object)) := by
  refine ⟨by decide, (toJsonText_parses mixedHistory ?_).mpr (by decide)⟩
  have hkey : Utf8 [quote, 0x01, 0xc3, 0xa9] :=
    ⟨[Char.ofNat 0x22, Char.ofNat 0x01, Char.ofNat 0xe9], by decide⟩
  simp only [mixedHistory, List.forall_mem_cons]
  refine ⟨⟨hkey, ?_, ?_, ?_⟩, ⟨?_, ?_, ?_, ?_⟩, ⟨?_, ?_, ?_, ?_⟩, fun e he => nomatch he⟩
  all_goals exact utf8_ascii (by decide)

/-- A Put that was answered, and a Get that never was. -/
def abandonedHistory : History where
  entries := [
    ⟨1, 1, .put, .lit "k", .lit "v", .lit "", 0, 1, .lit "ok", true, false⟩,
    ⟨2, 1, .get, .lit "k", .lit "", .lit "", 2, 0, .lit "", false, true⟩]

theorem abandoned_not_json : abandonedHistory.toJson.map HistEntry.id = [0] ∧
    (∀ e ∈ abandonedHistory.entries, e.Utf8Strings) ∧ parse abandonedHistory.toJsonText = none := by
  refine ⟨by decide, ?_, parse_trailing_comma (by decide) (by decide)⟩
  simp only [abandonedHistory, List.forall_mem_cons]
  refine ⟨⟨?_, ?_, ?_, ?_⟩, ⟨?_, ?_, ?_, ?_⟩, fun e he => nomatch he⟩
  all_goals exact utf8_ascii (by decide)

end SimKV
