/-
# `storage/file_durable_store.{hpp,cpp}`: the store on a file

The simulator runs the nodes on `DurableStore`; the server runs them on
`FileDurableStore`, which mirrors a file in memory, writes the unflushed tail with
`pwrite` and cuts the file with `ftruncate`.

`Os` is what the store needs from the operating system: each system call with its
return value and the file it leaves.  Every branch of the source on a return value
is kept, so the operations may throw; `Os.posix` is a system on which every call
succeeds with its POSIX meaning, and there none of them does.

What is proved is that on such a system the file store cannot be told from the
simulated one.  `Refines` relates the two states, every call of the interface keeps
it (`Refines.call`), and a process that dies and opens the file again finds what
`DurableStore::crash` leaves (`Refines.reopen`).  The two classes do not test the
same conditions: `truncate_to` compares with `<=` in one and with `<` in the other,
and `flush` returns early in one.  Both differences vanish because the flushed
prefix never exceeds the bytes, which is part of the relation.
-/
import SimKV.Storage.DurableStore
import Mathlib.Data.UInt

namespace SimKV

/-! ## The file and the system calls -/

/-- The bytes of a regular file. -/
abbrev FileContent := List UInt8

namespace FileContent

/-- The first `n` bytes; a file that is shorter is extended with zeros. -/
def extendTo (n : Nat) (f : FileContent) : FileContent :=
  (f ++ List.replicate (n - f.length) 0).take n

/-- The file with `bytes` written at `offset`. -/
def overwrite (bytes : List UInt8) (offset : Nat) (f : FileContent) : FileContent :=
  f.extendTo offset ++ (bytes ++ f.drop (offset + bytes.length))

theorem extendTo_of_le {n : Nat} {f : FileContent} (h : n ≤ f.length) :
    f.extendTo n = f.take n := by
  rw [extendTo, Nat.sub_eq_zero_of_le h, List.replicate_zero, List.append_nil]

/-- Writing at the end of a file appends. -/
theorem overwrite_length (bytes : List UInt8) (f : FileContent) :
    f.overwrite bytes f.length = f ++ bytes := by
  rw [overwrite, extendTo_of_le (Nat.le_refl _), List.take_length,
    List.drop_eq_nil_of_le (Nat.le_add_right _ _), List.append_nil]

end FileContent

/-- The system calls of the store: what each returns, and what it leaves in the file. -/
structure Os where
  /-- `open(path, O_RDWR | O_CREAT, 0644)`; a file that does not exist is empty. -/
  openFile : FileContent → Int
  /-- The return value and `st_size`. -/
  fstat : FileContent → Int × Nat
  /-- `pread(fd, buf, count, offset)`: the return value and the bytes in the buffer. -/
  pread : Nat → Nat → FileContent → Int × List UInt8
  /-- `pwrite(fd, buf, count, offset)`. -/
  pwrite : List UInt8 → Nat → FileContent → Int × FileContent
  fsync : FileContent → Int
  ftruncate : Nat → FileContent → Int × FileContent

/-- Every call succeeds and means what POSIX says. -/
def Os.posix : Os where
  openFile _ := 3
  fstat f := (0, f.length)
  pread count offset f := (((f.drop offset).take count).length, (f.drop offset).take count)
  pwrite bytes offset f := (bytes.length, f.overwrite bytes offset)
  fsync _ := 0
  ftruncate length f := (0, f.extendTo length)

/-! ## The store -/

structure FileDurableStore where
  /-- The file behind `fd_`. -/
  file : FileContent
  /-- In-memory mirror of the file and of what is not written yet. -/
  buffer : List UInt8
  /-- How many bytes have been synced. -/
  flushedEnd : Nat
deriving DecidableEq, Repr

namespace FileDurableStore

/-- The constructor, on a path that holds `file`. -/
def openAt (os : Os) (path : String) (file : FileContent) : Except String FileDurableStore :=
  if os.openFile file < 0 then .error ("FileDurableStore: cannot open " ++ path)
  else
    let st := os.fstat file
    if st.1 < 0 then .error "FileDurableStore: fstat failed"
    else
      let fileSize := st.2
      if fileSize > 0 then
        let r := os.pread fileSize 0 file
        if r.1 < 0 ∨ r.1.toNat ≠ fileSize then .error "FileDurableStore: pread failed"
        else .ok ⟨file, r.2, fileSize⟩
      else .ok ⟨file, [], fileSize⟩

def append (bytes : List UInt8) (s : FileDurableStore) : FileDurableStore :=
  { s with buffer := s.buffer ++ bytes }

def flush (os : Os) (s : FileDurableStore) : Except String FileDurableStore :=
  if s.buffer.length ≤ s.flushedEnd then .ok s
  else
    let toWrite := s.buffer.length - s.flushedEnd
    let r := os.pwrite (s.buffer.drop s.flushedEnd) s.flushedEnd s.file
    if r.1 < 0 ∨ r.1.toNat ≠ toWrite then .error "FileDurableStore: pwrite failed"
    else if os.fsync r.2 < 0 then .error "FileDurableStore: fdatasync failed"
    else .ok { s with file := r.2, flushedEnd := s.buffer.length }

def truncateTo (os : Os) (offset : Nat) (s : FileDurableStore) : Except String FileDurableStore :=
  if offset > s.buffer.length then .ok s
  else
    let s := { s with buffer := s.buffer.take offset }
    if offset < s.flushedEnd then
      let r := os.ftruncate offset s.file
      if r.1 < 0 then .error "FileDurableStore: ftruncate failed"
      else if os.fsync r.2 < 0 then .error "FileDurableStore: fdatasync failed"
      else .ok { s with file := r.2, flushedEnd := offset }
    else .ok s

def readDurable (s : FileDurableStore) : List UInt8 := s.buffer.take s.flushedEnd

def readAll (s : FileDurableStore) : List UInt8 := s.buffer

def durableSize (s : FileDurableStore) : Nat := s.flushedEnd

def totalSize (s : FileDurableStore) : Nat := s.buffer.length

def call (os : Os) (s : FileDurableStore) : StoreCall UInt8 → Except String FileDurableStore
  | .append bytes => .ok (s.append bytes)
  | .flush => s.flush os
  | .truncateTo offset => s.truncateTo os offset

/-- A sequence of calls, up to the first that throws. -/
def calls (os : Os) (s : FileDurableStore) : List (StoreCall UInt8) → Except String FileDurableStore
  | [] => .ok s
  | c :: cs =>
    match s.call os c with
    | .ok s' => s'.calls os cs
    | .error e => .error e

end FileDurableStore

/-! ## What can be observed of a store -/

/-- The observers of `IDurableStore`. -/
structure StoreView where
  readDurable : List UInt8
  readAll : List UInt8
  durableSize : Nat
  totalSize : Nat
deriving DecidableEq, Repr

def DurableStore.view (s : DurableStore UInt8) : StoreView :=
  ⟨s.readDurable, s.readAll, s.durableSize, s.totalSize⟩

def FileDurableStore.view (s : FileDurableStore) : StoreView :=
  ⟨s.readDurable, s.readAll, s.durableSize, s.totalSize⟩

/-! ## The refinement -/

namespace FileDurableStore

/-- The file store `f` does the work of the simulated store `d`: same bytes, same flushed prefix,
and the file holds exactly that prefix. -/
structure Refines (f : FileDurableStore) (d : DurableStore UInt8) : Prop where
  buffer : f.buffer = d.data
  flushedEnd : f.flushedEnd = d.flushedEnd
  bound : d.flushedEnd ≤ d.data.length
  file : f.file = d.readDurable

section Refinement

variable {f : FileDurableStore} {d : DurableStore UInt8}

theorem Refines.view (h : Refines f d) : f.view = d.view := by
  simp only [FileDurableStore.view, DurableStore.view, readDurable, readAll, durableSize, totalSize,
    DurableStore.readDurable, DurableStore.readAll, DurableStore.durableSize,
    DurableStore.totalSize, h.buffer, h.flushedEnd]

/-- The file is as long as the flushed prefix. -/
theorem Refines.file_length (h : Refines f d) : f.file.length = d.flushedEnd := by
  rw [h.file, DurableStore.readDurable, List.length_take, Nat.min_eq_left h.bound]

/-- `flush` appends the tail to the file. -/
theorem Refines.flush (h : Refines f d) : ∃ f', f.flush .posix = .ok f' ∧ Refines f' d.flush := by
  unfold FileDurableStore.flush
  rw [h.buffer, h.flushedEnd]
  split
  · -- nothing to write: the prefix is everything already
    rename_i hle
    have hall : d.flush = d := by
      rw [DurableStore.flush, Nat.le_antisymm hle h.bound]
    exact ⟨f, rfl, by rw [hall]; exact h⟩
  · have hfile : f.file.overwrite (d.data.drop d.flushedEnd) d.flushedEnd = d.data := by
      rw [← h.file_length, FileContent.overwrite_length, h.file_length, h.file,
        DurableStore.readDurable, List.take_append_drop]
    simp only [Os.posix, List.length_drop, Int.natCast_nonneg, not_lt.mpr, Int.toNat_natCast,
      ne_eq, not_true_eq_false, or_self, if_false, lt_self_iff_false, hfile]
    exact ⟨_, rfl, rfl, rfl, Nat.le_refl _, (List.take_length).symm⟩

/-- `truncate_to` past the end does nothing, into the tail only drops bytes that are not in the
file, and into the flushed prefix cuts the file. -/
theorem Refines.truncateTo (h : Refines f d) (offset : Nat) :
    ∃ f', f.truncateTo .posix offset = .ok f' ∧ Refines f' (d.truncateTo offset) := by
  have hb := h.bound
  unfold FileDurableStore.truncateTo DurableStore.truncateTo
  rw [h.buffer]
  split
  · rename_i hgt
    rw [if_neg (by omega), if_neg (by omega)]
    exact ⟨f, rfl, h⟩
  · rename_i hle
    rw [if_pos (by omega : offset ≤ d.data.length)]
    simp only [h.flushedEnd]
    split
    · rename_i hlt
      have hcut : f.file.extendTo offset = d.data.take offset := by
        rw [FileContent.extendTo_of_le (by rw [h.file_length]; omega), h.file,
          DurableStore.readDurable, List.take_take, Nat.min_eq_left (by omega)]
      simp only [Os.posix, lt_self_iff_false, if_false, hcut,
        if_pos (by omega : offset ≤ d.flushedEnd)]
      refine ⟨_, rfl, rfl, rfl, ?_, ?_⟩
      · simp only [List.length_take]; omega
      · simp only [DurableStore.readDurable, List.take_take, Nat.min_self]
    · rename_i hge
      have hend : (if offset ≤ d.flushedEnd then offset else d.flushedEnd) = d.flushedEnd := by
        split <;> omega
      rw [hend]
      refine ⟨_, rfl, rfl, rfl, ?_, ?_⟩
      · simp only [List.length_take]; omega
      · simp only [DurableStore.readDurable, List.take_take,
          Nat.min_eq_left (by omega : d.flushedEnd ≤ offset)]
        exact h.file

/-- **Every call keeps the two stores in step**, and none throws. -/
theorem Refines.call (h : Refines f d) (c : StoreCall UInt8) :
    ∃ f', f.call .posix c = .ok f' ∧ Refines f' (d.call c) := by
  cases c with
  | append bytes =>
    refine ⟨f.append bytes, rfl, ?_, h.flushedEnd, ?_, ?_⟩
    · simp only [FileDurableStore.append, DurableStore.call, DurableStore.append, h.buffer]
    · exact h.bound.trans (by simp [DurableStore.call, DurableStore.append])
    · rw [FileDurableStore.append, h.file]
      simp only [DurableStore.call, DurableStore.append, DurableStore.readDurable]
      rw [List.take_append_of_le_length h.bound]
  | flush => exact h.flush
  | truncateTo offset => exact h.truncateTo offset

/-- A sequence of calls keeps them in step. -/
theorem Refines.calls (h : Refines f d) (cs : List (StoreCall UInt8)) :
    ∃ f', f.calls .posix cs = .ok f' ∧ Refines f' (d.calls cs) := by
  induction cs generalizing f d with
  | nil => exact ⟨f, rfl, h⟩
  | cons c cs ih =>
    obtain ⟨f₁, hf₁, h₁⟩ := h.call c
    obtain ⟨f', hf', h'⟩ := ih h₁
    exact ⟨f', by rw [FileDurableStore.calls, hf₁]; exact hf', h'⟩

/-- Opening a file of these bytes. -/
theorem openAt_posix (path : String) (file : FileContent) :
    openAt .posix path file = .ok ⟨file, file, file.length⟩ := by
  unfold openAt
  simp only [Os.posix, List.drop_zero, List.take_length]
  cases file with
  | nil => rfl
  | cons b bs =>
    simp only [Int.reduceLT, if_false, List.length_cons, gt_iff_lt, Nat.succ_pos, if_true,
      Int.toNat_natCast, ne_eq, not_true_eq_false, or_false, lt_self_iff_false]
    rw [if_neg (by omega)]

/-- **Reopening the file is a crash**: it holds the flushed prefix and nothing else. -/
theorem Refines.reopen (h : Refines f d) (path : String) :
    ∃ g, openAt .posix path f.file = .ok g ∧ Refines g d.crash := by
  refine ⟨_, openAt_posix path f.file, h.file, h.file_length, ?_, ?_⟩
  · simp only [DurableStore.crash, List.length_take, Nat.min_eq_left h.bound, Nat.le_refl]
  · simp only [DurableStore.crash, DurableStore.readDurable, List.take_take, Nat.min_self]
    exact h.file

end Refinement

/-- **The file store refines the simulated one.**  On an empty file, whatever is called, no call
throws, the two stores cannot be told apart, the file holds what `read_durable` returns, and
opening it again gives what a crash of the simulated store gives. -/
theorem refines_durableStore (path : String) (cs : List (StoreCall UInt8)) :
    ∃ f₀ f g, openAt .posix path [] = .ok f₀ ∧ f₀.calls .posix cs = .ok f ∧
      f.view = (DurableStore.empty.calls cs).view ∧ f.file = f.readDurable ∧
      openAt .posix path f.file = .ok g ∧ g.view = (DurableStore.empty.calls cs).crash.view := by
  have h₀ : Refines ⟨[], [], 0⟩ (DurableStore.empty : DurableStore UInt8) :=
    ⟨rfl, rfl, Nat.le_refl _, rfl⟩
  obtain ⟨f, hf, h⟩ := h₀.calls cs
  obtain ⟨g, hg, hr⟩ := h.reopen path
  have hfile : f.file = f.readDurable := by
    rw [h.file, readDurable, h.buffer, h.flushedEnd, DurableStore.readDurable]
  exact ⟨_, f, g, openAt_posix path [], hf, h.view, hfile, hg, hr.view⟩

end FileDurableStore

end SimKV
