/-
# Lines and words

A stream is read line by line through a buffer of fixed size, and a line is read word
by word.  `chunk` is one read of the first kind: it ends behind a newline, or when the
buffer is full.  `extract` is one read of the second kind: it skips space and stops at
the next.  What they read is compared with what a line and a word are: a line that fits
is one read (`chunk_line`), a longer one is cut (`chunk_full`), and reading words one
after the other gives `words`, the parts between the spaces that are not empty.

`pull` is `chunk` on what arrives piece by piece.  The line it reads depends on the symbols
only (`pull_line`, `pull_rest`); what it leaves in the buffer depends on the pieces.  It leaves
nothing behind a newline if no piece has symbols behind one (`pull_empty`), and if it leaves
nothing, what it took were whole pieces (`pull_pieces`).
-/
import Mathlib.Data.List.Basic

namespace Lines

variable {α : Type}

/-! ## Lines -/

section Chunks

variable [DecidableEq α]

/-- At most `n` symbols, up to the first `nl` and with it; and the rest. -/
def chunk (nl : α) : Nat → List α → List α × List α
  | 0, s => ([], s)
  | _ + 1, [] => ([], [])
  | n + 1, a :: s =>
    if a = nl then ([a], s) else (a :: (chunk nl n s).1, (chunk nl n s).2)

variable {nl : α} {n : Nat}

theorem chunk_append (nl : α) (n : Nat) (s : List α) :
    (chunk nl n s).1 ++ (chunk nl n s).2 = s := by
  induction n generalizing s with
  | zero => rfl
  | succ n ih =>
    cases s with
    | nil => rfl
    | cons a s =>
      rw [chunk]
      split
      · rfl
      · exact congrArg (a :: ·) (ih s)

/-- A read from what is not at its end leaves less. -/
theorem chunk_shorter {s : List α} (hs : s ≠ []) : (chunk nl (n + 1) s).2.length < s.length := by
  cases s with
  | nil => exact absurd rfl hs
  | cons a s =>
    rw [chunk]
    split
    · exact Nat.lt_succ_self _
    · have hle := congrArg List.length (chunk_append nl n s)
      rw [List.length_append] at hle
      rw [List.length_cons]
      dsimp only
      omega

/-- A line that fits is read with its newline. -/
theorem chunk_line {line : List α} (hnl : nl ∉ line) (hlen : line.length < n) (rest : List α) :
    chunk nl n (line ++ nl :: rest) = (line ++ [nl], rest) := by
  induction line generalizing n with
  | nil =>
    cases n with
    | zero => exact absurd hlen (Nat.not_lt_zero _)
    | succ n => rw [List.nil_append, chunk, if_pos rfl, List.nil_append]
  | cons a line ih =>
    cases n with
    | zero => exact absurd hlen (Nat.not_lt_zero _)
    | succ n =>
      have ha : a ≠ nl := fun h => hnl (h ▸ List.mem_cons_self)
      rw [List.cons_append, chunk, if_neg ha,
        ih (fun h => hnl (List.mem_cons_of_mem _ h)) (Nat.lt_of_succ_lt_succ hlen),
        List.cons_append]

/-- The buffer is full before a newline comes: what follows is left for the next read. -/
theorem chunk_full {s : List α} (hnl : nl ∉ s) (rest : List α) :
    chunk nl s.length (s ++ rest) = (s, rest) := by
  induction s with
  | nil => rfl
  | cons a s ih =>
    have ha : a ≠ nl := fun h => hnl (h ▸ List.mem_cons_self)
    rw [List.length_cons, List.cons_append, chunk, if_neg ha,
      ih fun h => hnl (List.mem_cons_of_mem _ h)]

/-- The stream ends before a newline comes. -/
theorem chunk_last {s : List α} (hnl : nl ∉ s) (hlen : s.length ≤ n) : chunk nl n s = (s, []) := by
  induction s generalizing n with
  | nil => cases n <;> rfl
  | cons a s ih =>
    cases n with
    | zero => exact absurd hlen (Nat.not_succ_le_zero _)
    | succ n =>
      have ha : a ≠ nl := fun h => hnl (h ▸ List.mem_cons_self)
      rw [chunk, if_neg ha, ih (fun h => hnl (List.mem_cons_of_mem _ h))
        (Nat.le_of_succ_le_succ hlen)]

/-- What a read meets first: a newline, the end of the stream, or the end of the buffer. -/
theorem chunk_cases (nl : α) (n : Nat) (s : List α) :
    (∃ line rest, nl ∉ line ∧ line.length < n ∧ s = line ++ nl :: rest) ∨
    (nl ∉ s ∧ s.length ≤ n) ∨
    ∃ part rest, nl ∉ part ∧ part.length = n ∧ rest ≠ [] ∧ s = part ++ rest := by
  induction n generalizing s with
  | zero =>
    cases s with
    | nil => exact Or.inr (Or.inl ⟨List.not_mem_nil, Nat.le_refl _⟩)
    | cons a s =>
      exact Or.inr (Or.inr ⟨[], a :: s, List.not_mem_nil, rfl, List.cons_ne_nil _ _, rfl⟩)
  | succ n ih =>
    cases s with
    | nil => exact Or.inr (Or.inl ⟨List.not_mem_nil, Nat.zero_le _⟩)
    | cons a s =>
      by_cases ha : a = nl
      · subst ha
        exact Or.inl ⟨[], s, List.not_mem_nil, Nat.succ_pos _, rfl⟩
      · have hcons : ∀ {l : List α}, nl ∉ l → nl ∉ a :: l := fun hl h =>
          (List.mem_cons.mp h).elim (fun h => ha h.symm) hl
        rcases ih s with ⟨line, rest, hnl, hlen, rfl⟩ | ⟨hnl, hlen⟩ |
          ⟨part, rest, hnl, hlen, hne, rfl⟩
        · exact Or.inl ⟨a :: line, rest, hcons hnl, Nat.succ_lt_succ hlen, rfl⟩
        · exact Or.inr (Or.inl ⟨hcons hnl, Nat.succ_le_succ hlen⟩)
        · exact Or.inr (Or.inr ⟨a :: part, rest, hcons hnl, congrArg (· + 1) hlen, hne, rfl⟩)

/-- A read stops at the first newline. -/
theorem notMem_chunk_dropLast (nl : α) (n : Nat) (s : List α) :
    nl ∉ (chunk nl n s).1.dropLast := by
  induction n generalizing s with
  | zero => exact List.not_mem_nil
  | succ n ih =>
    cases s with
    | nil => exact List.not_mem_nil
    | cons a s =>
      rw [chunk]
      split
      · exact List.not_mem_nil
      · rename_i ha
        cases hs : (chunk nl n s).1 with
        | nil => exact List.not_mem_nil
        | cons b t =>
          have hb := ih s
          rw [hs] at hb
          exact fun h => (List.mem_cons.mp h).elim (fun h => ha h.symm) hb

/-! ### Pieces -/

/-- The read is not over: no newline yet, and room in the buffer of the caller. -/
def Open (nl : α) (n : Nat) (line : List α) : Prop := line.length < n ∧ nl ∉ line

instance (nl : α) (n : Nat) (line : List α) : Decidable (Open nl n line) :=
  inferInstanceAs (Decidable (_ ∧ _))

/-- A read that is not over has used up what there was, and goes on. -/
theorem chunk_open {s : List α} (h : Open nl n (chunk nl n s).1) (x : List α) :
    (chunk nl n s).1 = s ∧ chunk nl n (s ++ x) =
      (s ++ (chunk nl (n - s.length) x).1, (chunk nl (n - s.length) x).2) := by
  induction s generalizing n with
  | nil => exact ⟨by cases n <;> rfl, rfl⟩
  | cons a s ih =>
    cases n with
    | zero => exact absurd h.1 (Nat.not_lt_zero _)
    | succ n =>
      by_cases ha : a = nl
      · rw [chunk, if_pos ha] at h
        exact absurd (ha ▸ List.mem_singleton_self a) h.2
      · rw [chunk, if_neg ha] at h ⊢
        obtain ⟨hself, hmore⟩ := ih (n := n)
          ⟨Nat.lt_of_succ_lt_succ h.1, fun hmem => h.2 (List.mem_cons_of_mem _ hmem)⟩
        rw [List.cons_append, chunk, if_neg ha, hmore, hself, List.length_cons,
          Nat.succ_sub_succ]
        exact ⟨rfl, rfl⟩

/-- A read that is over does not look at what follows. -/
theorem chunk_closed {s : List α} (h : ¬ Open nl n (chunk nl n s).1) (x : List α) :
    chunk nl n (s ++ x) = ((chunk nl n s).1, (chunk nl n s).2 ++ x) := by
  induction s generalizing n with
  | nil =>
    cases n with
    | zero => rfl
    | succ n => exact absurd ⟨Nat.succ_pos n, List.not_mem_nil⟩ h
  | cons a s ih =>
    cases n with
    | zero => rfl
    | succ n =>
      by_cases ha : a = nl
      · rw [List.cons_append, chunk, if_pos ha, chunk, if_pos ha]
      · rw [List.cons_append, chunk, if_neg ha, chunk, if_neg ha]
        rw [chunk, if_neg ha] at h
        rw [ih fun ho => h ⟨Nat.succ_lt_succ ho.1, fun hmem =>
          (List.mem_cons.mp hmem).elim (fun h' => ha h'.symm) ho.2⟩]

/-- A read through a buffer that is filled with one piece after the other: the line, what is left
in the buffer, and the pieces that have not been asked for. -/
def pull (nl : α) : Nat → List α → List (List α) → List α × List α × List (List α)
  | n, buf, [] => ((chunk nl n buf).1, (chunk nl n buf).2, [])
  | n, buf, a :: pieces =>
    if Open nl n (chunk nl n buf).1 then
      (buf ++ (pull nl (n - buf.length) a pieces).1, (pull nl (n - buf.length) a pieces).2)
    else ((chunk nl n buf).1, (chunk nl n buf).2, a :: pieces)

theorem pull_chunk (nl : α) (n : Nat) (buf : List α) (pieces : List (List α)) :
    (pull nl n buf pieces).1 = (chunk nl n (buf ++ pieces.flatten)).1 ∧
      (pull nl n buf pieces).2.1 ++ (pull nl n buf pieces).2.2.flatten =
        (chunk nl n (buf ++ pieces.flatten)).2 := by
  induction pieces generalizing n buf with
  | nil =>
    rw [pull, List.flatten_nil, List.append_nil]
    exact ⟨rfl, List.append_nil _⟩
  | cons a pieces ih =>
    rw [pull, List.flatten_cons]
    split
    · rename_i hopen
      obtain ⟨hline, hrest⟩ := ih (n - buf.length) a
      rw [(chunk_open hopen _).2, ← hline, ← hrest]
      exact ⟨rfl, rfl⟩
    · rename_i hclosed
      rw [chunk_closed hclosed]
      exact ⟨rfl, rfl⟩

theorem pull_line (nl : α) (n : Nat) (buf : List α) (pieces : List (List α)) :
    (pull nl n buf pieces).1 = (chunk nl n (buf ++ pieces.flatten)).1 :=
  (pull_chunk nl n buf pieces).1

theorem pull_rest (nl : α) (n : Nat) (buf : List α) (pieces : List (List α)) :
    (pull nl n buf pieces).2.1 ++ (pull nl n buf pieces).2.2.flatten =
      (chunk nl n (buf ++ pieces.flatten)).2 :=
  (pull_chunk nl n buf pieces).2

/-- No piece has symbols behind a newline. -/
def Paced (nl : α) (pieces : List (List α)) : Prop := ∀ a ∈ pieces, nl ∉ a.dropLast

instance (nl : α) (pieces : List (List α)) : Decidable (Paced nl pieces) :=
  inferInstanceAs (Decidable (∀ a ∈ pieces, nl ∉ a.dropLast))

/-- A piece that is not read to its end was cut behind a newline, or the line is full. -/
theorem chunk_rest_of_mem {s : List α} (hs : nl ∉ s.dropLast) (hmem : nl ∈ (chunk nl n s).1) :
    (chunk nl n s).2 = [] := by
  have happ := chunk_append nl n s
  by_contra hne
  rw [← happ, List.dropLast_append_of_ne_nil hne] at hs
  exact hs (List.mem_append_left _ hmem)

/-- A line that ends with a newline leaves nothing in the buffer. -/
theorem pull_empty {buf : List α} {pieces : List (List α)} (h : Paced nl (buf :: pieces))
    (hmem : nl ∈ (pull nl n buf pieces).1) : (pull nl n buf pieces).2.1 = [] := by
  induction pieces generalizing n buf with
  | nil => exact chunk_rest_of_mem (h buf List.mem_cons_self) hmem
  | cons a pieces ih =>
    have htail : Paced nl (a :: pieces) := fun x hx => h x (List.mem_cons_of_mem _ hx)
    rw [pull] at hmem ⊢
    split at hmem
    · rename_i hopen
      rw [if_pos hopen]
      refine ih htail ((List.mem_append.mp hmem).resolve_left ?_)
      rw [← (chunk_open hopen []).1]
      exact hopen.2
    · rename_i hclosed
      rw [if_neg hclosed]
      exact chunk_rest_of_mem (h buf List.mem_cons_self) hmem

/-- If nothing is left in the buffer, the line is made of whole pieces. -/
theorem pull_pieces {buf : List α} {pieces : List (List α)}
    (h : (pull nl n buf pieces).2.1 = []) :
    ∃ taken, buf :: pieces = taken ++ (pull nl n buf pieces).2.2 ∧
      taken.flatten = (pull nl n buf pieces).1 := by
  induction pieces generalizing n buf with
  | nil =>
    have happ := chunk_append nl n buf
    rw [show (chunk nl n buf).2 = [] from h, List.append_nil] at happ
    exact ⟨[buf], rfl, by rw [pull, happ, List.flatten_singleton]⟩
  | cons a pieces ih =>
    rw [pull] at h ⊢
    split at h
    · rename_i hopen
      obtain ⟨taken, hsplit, hline⟩ := ih h
      rw [if_pos hopen]
      exact ⟨buf :: taken, congrArg (buf :: ·) hsplit, by rw [List.flatten_cons, hline]⟩
    · rename_i hclosed
      have happ := chunk_append nl n buf
      rw [show (chunk nl n buf).2 = [] from h, List.append_nil] at happ
      rw [if_neg hclosed]
      exact ⟨[buf], rfl, by rw [happ, List.flatten_singleton]⟩

omit [DecidableEq α] in
/-- Pieces that make up a line have no symbols behind a newline. -/
theorem paced_of_flatten {pieces : List (List α)} (h : nl ∉ pieces.flatten.dropLast) :
    Paced nl pieces := by
  intro a ha hmem
  obtain ⟨pre, post, rfl⟩ := List.append_of_mem ha
  refine h ?_
  rw [List.flatten_append, List.flatten_cons]
  by_cases hpost : post.flatten = []
  · have hne : a ≠ [] := fun h => by rw [h] at hmem; exact absurd hmem List.not_mem_nil
    rw [hpost, List.append_nil, List.dropLast_append_of_ne_nil hne]
    exact List.mem_append_right _ hmem
  · rw [List.dropLast_append_of_ne_nil (List.append_ne_nil_of_right_ne_nil _ hpost),
      List.dropLast_append_of_ne_nil hpost]
    exact List.mem_append_right _ (List.mem_append_left _ ((List.dropLast_sublist a).subset hmem))

/-! ### What the lines are -/

/-- The lines of a stream, without their newlines, and what follows the last newline. -/
def lines (nl : α) : List α → List (List α) × List α
  | [] => ([], [])
  | a :: s =>
    if a = nl then ([] :: (lines nl s).1, (lines nl s).2)
    else match (lines nl s).1 with
      | [] => ([], a :: (lines nl s).2)
      | line :: more => ((a :: line) :: more, (lines nl s).2)

theorem lines_append (nl : α) (s : List α) :
    (lines nl s).1.flatMap (· ++ [nl]) ++ (lines nl s).2 = s := by
  induction s with
  | nil => rfl
  | cons a s ih =>
    rw [lines]
    split
    · rename_i ha
      rw [ha]
      exact congrArg (nl :: ·) ih
    · split
      · rename_i hnone
        rw [hnone] at ih
        exact congrArg (a :: ·) ih
      · rename_i line more hsome
        rw [hsome] at ih
        exact congrArg (a :: ·) ih

theorem lines_line {line : List α} (hnl : nl ∉ line) (rest : List α) :
    lines nl (line ++ nl :: rest) = (line :: (lines nl rest).1, (lines nl rest).2) := by
  induction line with
  | nil => rw [List.nil_append, lines, if_pos rfl]
  | cons a line ih =>
    have ha : a ≠ nl := fun h => hnl (h ▸ List.mem_cons_self)
    rw [List.cons_append, lines, if_neg ha, ih fun h => hnl (List.mem_cons_of_mem _ h)]

theorem lines_last {s : List α} (hnl : nl ∉ s) : lines nl s = ([], s) := by
  induction s with
  | nil => rfl
  | cons a s ih =>
    have ha : a ≠ nl := fun h => hnl (h ▸ List.mem_cons_self)
    rw [lines, if_neg ha, ih fun h => hnl (List.mem_cons_of_mem _ h)]

/-- No line has a newline in it. -/
theorem notMem_lines (nl : α) (s : List α) :
    (∀ line ∈ (lines nl s).1, nl ∉ line) ∧ nl ∉ (lines nl s).2 := by
  induction s with
  | nil => exact ⟨fun line h => (nomatch h), fun h => (nomatch h)⟩
  | cons a s ih =>
    obtain ⟨hlines, hlast⟩ := ih
    rw [lines]
    split
    · refine ⟨?_, hlast⟩
      intro line hline
      rcases List.mem_cons.mp hline with rfl | hline
      · exact List.not_mem_nil
      · exact hlines line hline
    · rename_i ha
      have hcons : ∀ {l : List α}, nl ∉ l → nl ∉ a :: l := fun hl h =>
        (List.mem_cons.mp h).elim (fun h => ha h.symm) hl
      split
      · exact ⟨fun line h => (nomatch h), hcons hlast⟩
      · rename_i first more hsome
        rw [hsome] at hlines
        refine ⟨?_, hlast⟩
        intro line hline
        rcases List.mem_cons.mp hline with rfl | hline
        · exact hcons (hlines first List.mem_cons_self)
        · exact hlines line (List.mem_cons_of_mem _ hline)

end Chunks

/-! ## Words -/

/-- Skip space, and take what comes before the next; `none` if only space is left. -/
def extract (sp : α → Bool) (s : List α) : Option (List α × List α) :=
  match s.dropWhile sp with
  | [] => none
  | a :: t => some ((a :: t).takeWhile (!sp ·), (a :: t).dropWhile (!sp ·))

/-- What stands between the spaces. -/
def words (sp : α → Bool) (s : List α) : List (List α) := (s.splitOnP sp).filter (!·.isEmpty)

variable {sp : α → Bool}

@[simp] theorem words_nil : words sp [] = [] := by
  rw [words, List.splitOnP_nil]
  rfl

theorem words_append_cons {a : α} (ha : sp a = true) (s t : List α) :
    words sp (s ++ a :: t) = words sp s ++ words sp t := by
  rw [words, List.splitOnP_append_cons _ _ ha, List.filter_append]
  rfl

theorem words_cons {a : α} (ha : sp a = true) (t : List α) : words sp (a :: t) = words sp t :=
  (words_append_cons ha [] t).trans (by rw [words_nil, List.nil_append])

/-- Space at the end does not matter. -/
theorem words_append_of_space {s t : List α} (ht : ∀ a ∈ t, sp a = true) :
    words sp (s ++ t) = words sp s := by
  induction t generalizing s with
  | nil => rw [List.append_nil]
  | cons a t ih =>
    have hnil := ih (s := []) fun b hb => ht b (List.mem_cons_of_mem _ hb)
    rw [List.nil_append, words_nil] at hnil
    rw [words_append_cons (ht a List.mem_cons_self), hnil, List.append_nil]

theorem words_dropWhile (s : List α) : words sp (s.dropWhile sp) = words sp s := by
  induction s with
  | nil => rfl
  | cons a s ih =>
    rw [List.dropWhile_cons]
    split
    · rename_i ha
      rw [ih, words_cons ha]
    · rfl

/-- A word and what follows it, which is nothing or begins with space. -/
theorem words_word {w t : List α} (hne : w ≠ []) (hw : ∀ a ∈ w, sp a = false)
    (ht : ∀ a ∈ t.head?, sp a = true) : words sp (w ++ t) = w :: words sp t := by
  have hself : words sp w = [w] := by
    rw [words, List.splitOnP_eq_singleton hw, List.filter_cons_of_pos (by simpa using hne)]
    rfl
  cases t with
  | nil => rw [List.append_nil, words_nil, hself]
  | cons a t =>
    have ha : sp a = true := ht a rfl
    rw [words_append_cons ha, words_cons ha, hself, List.singleton_append]

/-- **Extracting a word** takes the first of the words, and leaves the others. -/
theorem words_eq (s : List α) :
    words sp s = match extract sp s with
      | none => []
      | some (w, t) => w :: words sp t := by
  rw [← words_dropWhile s, extract]
  cases hs : s.dropWhile sp with
  | nil => exact words_nil
  | cons a t =>
    have ha : (!sp a) = true := by
      have := List.head?_dropWhile_not sp s
      rw [hs] at this
      simpa using this
    have hsplit := List.takeWhile_append_dropWhile (p := (!sp ·)) (l := a :: t)
    conv_lhs => rw [← hsplit]
    refine words_word ?_ ?_ ?_
    · rw [List.takeWhile_cons, if_pos ha]
      exact List.cons_ne_nil _ _
    · intro b hb
      simpa using List.all_eq_true.mp List.all_takeWhile b hb
    · intro b hb
      have := List.head?_dropWhile_not (!sp ·) (a :: t)
      rw [Option.mem_def.mp hb] at this
      simpa using this

end Lines
