/-
# The log a node has in mind

After compaction a `RaftLog` keeps only the entries past `baseIndex`.  `LogRep l L`
says that `l` is the list `L` of all entries ever, from index 1 on, seen through
that window: the entries up to the base are forgotten except for the term of the
last of them.  Each function of `RaftLog` and of the handlers that looks at the log
or changes it is then a plain list function of `L`, and the lemmas here say which.

`Node.appendLoop` is the interesting one: offered a stretch of another list `K`
that it shares a prefix with, it leaves `L` as it is if `L` already has the
stretch, and cuts `L` back to `K` otherwise (`LogRep.appendLoop`).
-/
import SimKV.Raft.Node
import SimKV.Lib.TermLog

namespace SimKV

open TermLog

/-! ## Lists of entries -/

/-- The term at absolute index `i`; 0 before the first entry. -/
def stampAt (L : List LogEntry) (i : Nat) : Nat :=
  if i = 0 then 0 else (L[i - 1]?.map LogEntry.term).getD 0

/-- Entries carry their own absolute index. -/
def Indexed (L : List LogEntry) : Prop := ∀ k e, L[k]? = some e → e.index = k + 1

theorem stampAt_zero (L : List LogEntry) : stampAt L 0 = 0 := rfl

theorem stampAt_succ {L : List LogEntry} {k : Nat} {e : LogEntry} (h : L[k]? = some e) :
    stampAt L (k + 1) = e.term := by
  rw [stampAt, if_neg (Nat.succ_ne_zero k), Nat.add_sub_cancel, h]
  rfl

/-- An index in range has an entry, and its term is the stamp. -/
theorem exists_stampAt {L : List LogEntry} {i : Nat} (h0 : 0 < i) (h : i ≤ L.length) :
    ∃ e, L[i - 1]? = some e ∧ stampAt L i = e.term := by
  have hlt : i - 1 < L.length := by omega
  refine ⟨L.get ⟨i - 1, hlt⟩, List.getElem?_eq_getElem hlt, ?_⟩
  have := stampAt_succ (k := i - 1) (List.getElem?_eq_getElem hlt)
  rwa [Nat.sub_add_cancel h0] at this

theorem stampAt_isPre {L K : List LogEntry} (h : L <+: K) {i : Nat} (hi : i ≤ L.length) :
    stampAt K i = stampAt L i := by
  unfold stampAt
  split
  · rfl
  · rw [getElem?_isPre_eq h (by omega)]

theorem stampAt_take {L : List LogEntry} {i k : Nat} (h : i ≤ k) :
    stampAt (L.take k) i = stampAt L i := by
  unfold stampAt
  split
  · rfl
  · rw [List.getElem?_take_of_lt (by omega)]

theorem stampAt_length (L : List LogEntry) : stampAt L L.length = lastTm LogEntry.term L := by
  unfold stampAt lastTm
  split
  · rename_i h
    rw [List.length_eq_zero_iff.mp h]
    rfl
  · rw [List.getLast?_eq_getElem?]

theorem take_succ_eq {L : List LogEntry} {k : Nat} {e : LogEntry} (h : L[k]? = some e) :
    L.take (k + 1) = L.take k ++ [e] := by
  rw [List.take_add_one, h]
  rfl

/-! ## Representation -/

theorem RaftLog.lastIndex_truncateFrom {l : RaftLog} {i : Nat} (hb : l.baseIndex < i)
    (hi : i ≤ l.lastIndex) : (l.truncateFrom i).lastIndex + 1 = i := by
  have hlen : l.lastIndex = l.baseIndex + l.entries.length := rfl
  rw [RaftLog.truncateFrom, if_neg (by omega), if_neg (by omega)]
  change l.baseIndex + (l.entries.take (i - l.baseIndex - 1)).length + 1 = i
  rw [List.length_take]
  omega

/-- `l` is the list `L` seen past its base. -/
structure LogRep (l : RaftLog) (L : List LogEntry) : Prop where
  base_le : l.baseIndex ≤ L.length
  entries : l.entries = L.drop l.baseIndex
  baseTerm : l.baseTerm = stampAt L l.baseIndex

namespace LogRep

variable {l : RaftLog} {L K : List LogEntry} {i t : Nat} {e : LogEntry}

theorem empty : LogRep RaftLog.empty [] := ⟨Nat.le_refl _, rfl, rfl⟩

theorem lastIndex (h : LogRep l L) : l.lastIndex = L.length := by
  rw [RaftLog.lastIndex, h.entries, List.length_drop]
  have := h.base_le
  omega

theorem getElem? (h : LogRep l L) (k : Nat) : l.entries[k]? = L[l.baseIndex + k]? := by
  rw [h.entries, List.getElem?_drop]

theorem lastTerm (h : LogRep l L) : l.lastTerm = lastTm LogEntry.term L := by
  have hb := h.base_le
  unfold RaftLog.lastTerm
  rw [h.entries, List.getLast?_drop]
  split
  · rename_i h0
    split at h0
    · -- nothing past the base: its term is the last one
      have hlen : l.baseIndex = L.length := by omega
      rw [h.baseTerm, hlen, stampAt_length]
    · rw [List.getLast?_eq_none_iff] at h0
      rw [h.baseTerm, h0]
      unfold stampAt
      split <;> rfl
  · rename_i e h0
    split at h0
    · exact absurd h0 (by simp)
    · rw [lastTm, h0]
      rfl

theorem entryAt (h : LogRep l L) : l.entryAt i = some e ↔ l.baseIndex < i ∧ L[i - 1]? = some e := by
  rw [RaftLog.entryAt_eq_some, h.getElem?]
  constructor
  · rintro ⟨hb, he⟩
    exact ⟨hb, by rwa [show l.baseIndex + (i - l.baseIndex - 1) = i - 1 by omega] at he⟩
  · rintro ⟨hb, he⟩
    exact ⟨hb, by rwa [show l.baseIndex + (i - l.baseIndex - 1) = i - 1 by omega]⟩

theorem entryAt_eq (h : LogRep l L) (i : Nat) :
    l.entryAt i = if i ≤ l.baseIndex then none else L[i - 1]? := by
  refine Option.ext fun e => ?_
  rw [h.entryAt]
  split
  · simp only [reduceCtorEq, iff_false]
    omega
  · exact ⟨And.right, fun he => ⟨by omega, he⟩⟩

theorem termAt (h : LogRep l L) (hb : l.baseIndex ≤ i) (hi : i ≤ L.length) :
    l.termAt i = some (stampAt L i) := by
  unfold RaftLog.termAt
  split
  · rename_i heq
    rw [h.baseTerm, heq]
  · obtain ⟨e, he, hs⟩ := exists_stampAt (L := L) (i := i) (by omega) hi
    rw [h.entryAt.mpr ⟨by omega, he⟩, hs]
    rfl

theorem contains_iff (h : LogRep l L) (h0 : i ≠ 0) :
    l.contains i t = true ↔ l.baseIndex ≤ i ∧ i ≤ L.length ∧ stampAt L i = t := by
  have hb := h.base_le
  have hlast := h.lastIndex
  unfold RaftLog.contains
  rw [if_neg h0]
  split
  · rename_i heq
    rw [beq_iff_eq, h.baseTerm, ← heq]
    exact ⟨fun ht => ⟨Nat.le_refl _, by omega, ht.symm⟩, fun ht => ht.2.2.symm⟩
  · rename_i hne
    split
    · simp only [Bool.false_eq_true, false_iff]
      omega
    · split
      · simp only [Bool.false_eq_true, false_iff]
        omega
      · obtain ⟨e, he, hs⟩ := exists_stampAt (L := L) (i := i) (by omega) (by omega)
        rw [h.getElem?, show l.baseIndex + (i - l.baseIndex - 1) = i - 1 by omega, he, hs]
        simp only [Option.map_some, beq_iff_eq, Option.some.injEq]
        exact ⟨fun ht => ⟨by omega, by omega, ht⟩, fun ht => ht.2.2⟩

theorem slice (h : LogRep l L) {lo hi : Nat} (hlo : l.baseIndex ≤ lo) (hhi : hi ≤ L.length) :
    l.slice lo hi = (L.take hi).drop lo := by
  have hlast := h.lastIndex
  unfold RaftLog.slice
  split
  · rw [List.drop_eq_nil_of_le (by rw [List.length_take]; omega)]
  · have hmax : max (lo + 1) (l.baseIndex + 1) = lo + 1 := by omega
    have hmin : min hi l.lastIndex = hi := by omega
    simp only [hmax, hmin]
    split
    · omega
    · rw [h.entries, ← List.drop_take, List.drop_drop,
        show l.baseIndex + (lo + 1 - l.baseIndex - 1) = lo by omega]

/-- The entries `replicate_to` sends: from `prev` on, at most `max_entries_per_ae`. -/
theorem window {M : Medium} {s : Node M} (h : LogRep s.log L) {prev : Nat}
    (hb : s.log.baseIndex ≤ prev) :
    s.window prev = (L.take (min (prev + s.cfg.maxEntriesPerAe) L.length)).drop prev := by
  rw [Node.window, h.lastIndex]
  exact h.slice hb (Nat.min_le_right _ _)

/-! ## The last index of a term -/

theorem find?_last {p : LogEntry → Bool} {es : List LogEntry} {e : LogEntry}
    (h : es.reverse.find? p = some e) :
    ∃ k : Nat, es[k]? = some e ∧ p e = true ∧
      ∀ (k' : Nat) y, k < k' → es[k']? = some y → p y = false := by
  obtain ⟨hp, as, bs, hes, hno⟩ := List.find?_eq_some_iff_append.mp h
  have hes' : es = bs.reverse ++ e :: as.reverse := by
    have := congrArg List.reverse hes
    simpa using this
  refine ⟨bs.length, by rw [hes']; simp, hp, fun k' y hk hy => ?_⟩
  rw [hes', List.getElem?_append_right (by simp; omega)] at hy
  obtain ⟨i, hi⟩ : ∃ i, k' - bs.reverse.length = i + 1 :=
    ⟨k' - bs.length - 1, by rw [List.length_reverse]; omega⟩
  rw [hi, List.getElem?_cons_succ] at hy
  have hmem : y ∈ as := by simpa using List.mem_of_getElem? hy
  simpa using hno y hmem

/-- `last_index_for_term` is 0 or the last index with that term. -/
theorem lastIndexForTerm (h : LogRep l L) (hL : Indexed L) (t : Nat) :
    l.lastIndexForTerm t = 0 ∨ ∃ j x, l.lastIndexForTerm t = j + 1 ∧ L[j]? = some x ∧ x.term = t ∧
      ∀ k y, j < k → L[k]? = some y → y.term ≠ t := by
  -- an entry past the base is one of `l.entries`
  have hin : ∀ {k y}, l.baseIndex ≤ k → L[k]? = some y → l.entries[k - l.baseIndex]? = some y := by
    intro k y hk hy
    rw [h.getElem?, Nat.add_sub_cancel' hk]
    exact hy
  unfold RaftLog.lastIndexForTerm
  split
  · rename_i e he
    obtain ⟨k, hk, hp, hno⟩ := find?_last he
    rw [h.getElem?] at hk
    refine Or.inr ⟨l.baseIndex + k, e, hL _ e hk, hk, by simpa using hp, fun k' y hk' hy => ?_⟩
    simpa using hno (k' - l.baseIndex) y (by omega) (hin (by omega) hy)
  · rename_i hnone
    have hno : ∀ k y, l.baseIndex ≤ k → L[k]? = some y → y.term ≠ t := by
      intro k y hk hy
      have := List.find?_eq_none.mp hnone y
        (List.mem_reverse.mpr (List.mem_of_getElem? (hin hk hy)))
      simpa using this
    split
    · rename_i hb
      obtain ⟨x, hx, hs⟩ := exists_stampAt (L := L) hb.1 h.base_le
      exact Or.inr ⟨l.baseIndex - 1, x, by omega, hx, by rw [← hs, ← h.baseTerm]; exact hb.2,
        fun k y hk hy => hno k y (by omega) hy⟩
    · exact Or.inl rfl

/-- It is no less than any index past the base with that term. -/
theorem le_lastIndexForTerm (h : LogRep l L) (hL : Indexed L) {k : Nat} (hb : l.baseIndex ≤ k)
    (hk : L[k]? = some e) : k + 1 ≤ l.lastIndexForTerm e.term := by
  have hmem : e ∈ l.entries.reverse := by
    rw [List.mem_reverse, h.entries]
    refine List.mem_of_getElem? (i := k - l.baseIndex) ?_
    rw [List.getElem?_drop, Nat.add_sub_cancel' hb]
    exact hk
  rcases h.lastIndexForTerm hL e.term with h0 | ⟨j, x, hj, hx, -, hlast⟩
  · unfold RaftLog.lastIndexForTerm at h0
    split at h0
    · rename_i d hd
      obtain ⟨i, hi, -⟩ := find?_last hd
      rw [h.getElem?] at hi
      rw [hL _ d hi] at h0
      exact absurd h0 (Nat.succ_ne_zero _)
    · rename_i hnone
      exact absurd (List.find?_eq_none.mp hnone e hmem) (by simp)
  · rw [hj]
    by_contra hlt
    exact hlast k e (by omega) hk rfl

/-- **The conflict fields of a rejection**: the log is too short, or has another term at `prev`,
or `prev` is compacted. -/
theorem conflict (h : LogRep l L) (hL : Indexed L) {prev pt : Nat}
    (hno : l.contains prev pt = false) :
    (L.length < prev ∧ Node.conflict l prev = (L.length + 1, 0)) ∨
    (∃ d ci, L[prev - 1]? = some d ∧ d.term ≠ pt ∧ 0 < prev ∧ prev ≤ ci ∧
      Node.conflict l prev = (ci, d.term)) ∨
    (0 < prev ∧ prev ≤ l.baseIndex ∧ (prev = l.baseIndex → stampAt L prev ≠ pt) ∧
      Node.conflict l prev = (l.baseIndex + 1, 0)) := by
  have hlast := h.lastIndex
  have h0 : prev ≠ 0 := by
    rintro rfl
    simp [RaftLog.contains] at hno
  have hns : l.baseIndex ≤ prev → prev ≤ L.length → stampAt L prev ≠ pt := by
    intro hb hle hs
    rw [(h.contains_iff h0).mpr ⟨hb, hle, hs⟩] at hno
    exact absurd hno (by decide)
  unfold Node.conflict
  split
  · exact Or.inl ⟨by omega, by rw [hlast]⟩
  · split
    · obtain ⟨d, hd, hs⟩ := exists_stampAt (L := L) (i := prev) (by omega) (by omega)
      have hle := h.le_lastIndexForTerm hL (k := prev - 1) (by omega) hd
      have hat : l.entryAt prev = some d := h.entryAt.mpr ⟨by omega, hd⟩
      refine Or.inr (Or.inl ⟨d, l.lastIndexForTerm d.term, hd, ?_, by omega, by omega, ?_⟩)
      · rw [← hs]
        exact hns (by omega) (by omega)
      · rw [hat]
        simp only [Option.map_some, Option.getD_some]
        rw [if_neg (by omega)]
    · refine Or.inr (Or.inr ⟨by omega, by omega, fun hb => ?_, rfl⟩)
      have := h.base_le
      exact hns (by omega) (by omega)

/-! ## Changing the log -/

theorem append (h : LogRep l L) (e : LogEntry) : LogRep (l.append e) (L ++ [e]) where
  base_le := by
    rw [List.length_append]
    exact Nat.le_trans h.base_le (Nat.le_add_right _ _)
  entries := by
    change l.entries ++ [e] = (L ++ [e]).drop l.baseIndex
    rw [h.entries, List.drop_append_of_le_length h.base_le]
  baseTerm := by
    change l.baseTerm = stampAt (L ++ [e]) l.baseIndex
    rw [h.baseTerm, stampAt_isPre (List.prefix_append _ _) h.base_le]

/-- Cut back to the entries before index `i`. -/
theorem truncateFrom (h : LogRep l L) (hb : l.baseIndex < i) (hi : i ≤ L.length) :
    LogRep (l.truncateFrom i) (L.take (i - 1)) := by
  have hlast := h.lastIndex
  unfold RaftLog.truncateFrom
  rw [if_neg (by omega), if_neg (by omega)]
  refine ⟨?_, ?_, ?_⟩
  · change l.baseIndex ≤ _
    rw [List.length_take]
    omega
  · change l.entries.take (i - l.baseIndex - 1) = (L.take (i - 1)).drop l.baseIndex
    rw [h.entries, List.drop_take, show i - 1 - l.baseIndex = i - l.baseIndex - 1 by omega]
  · change l.baseTerm = _
    rw [h.baseTerm]
    exact (stampAt_take (by omega)).symm

/-- Compaction up to an index that the log has. -/
theorem setSnapshot (h : LogRep l L) (hb : l.baseIndex < i) (hi : i ≤ L.length) :
    LogRep (l.setSnapshot i (stampAt L i)) L := by
  have hlast := h.lastIndex
  unfold RaftLog.setSnapshot
  rw [if_neg (by omega)]
  refine ⟨hi, ?_, rfl⟩
  change (if i ≥ l.lastIndex then [] else l.entries.drop (i - l.baseIndex)) = L.drop i
  split
  · rw [List.drop_eq_nil_of_le (by omega)]
  · rw [h.entries, List.drop_drop, show l.baseIndex + (i - l.baseIndex) = i by omega]

/-- A snapshot that reaches past the log replaces all of it. -/
theorem setSnapshot_replace (h : LogRep l L) (hb : l.baseIndex < K.length)
    (hlen : L.length ≤ K.length) :
    LogRep (l.setSnapshot K.length (stampAt K K.length)) K := by
  have hlast := h.lastIndex
  unfold RaftLog.setSnapshot
  rw [if_neg (by omega)]
  refine ⟨Nat.le_refl _, ?_, rfl⟩
  change (if K.length ≥ l.lastIndex then [] else l.entries.drop (K.length - l.baseIndex)) = _
  rw [if_pos (by omega), List.drop_length]

/-! ## Taking in entries -/

/-- What becomes of `L` when it is offered the first `m` entries of `K`. -/
def spliced (L K : List LogEntry) (m : Nat) : List LogEntry :=
  if K.take m <+: L then L else K.take m

/-- Log matching between the two lists: the same term at one index means the same entries up to
there. -/
def Matching (L K : List LogEntry) : Prop :=
  ∀ k e e', L[k]? = some e → K[k]? = some e' → e.term = e'.term → L.take (k + 1) = K.take (k + 1)

theorem matching_take (K : List LogEntry) (j : Nat) : Matching (K.take j) K := by
  intro k e e' he _ _
  have hlt := (List.getElem?_eq_some_iff.mp he).1
  rw [List.length_take] at hlt
  rw [List.take_take, Nat.min_eq_left (by omega)]

/-- Whatever is appended, the base stays. -/
theorem appendLoop_base (es : List LogEntry) (l : RaftLog) :
    (Node.appendLoop es l).baseIndex = l.baseIndex ∧
      (Node.appendLoop es l).baseTerm = l.baseTerm := by
  induction es generalizing l with
  | nil => exact ⟨rfl, rfl⟩
  | cons e es ih =>
    have htrunc : (l.truncateFrom e.index).baseIndex = l.baseIndex ∧
        (l.truncateFrom e.index).baseTerm = l.baseTerm := by
      unfold RaftLog.truncateFrom
      split
      · exact ⟨rfl, rfl⟩
      · split <;> exact ⟨rfl, rfl⟩
    unfold Node.appendLoop
    split
    · split
      · exact ih l
      · split
        · exact ⟨(ih _).1.trans htrunc.1, (ih _).2.trans htrunc.2⟩
        · exact ih l
    · exact ih _

/-- **The append loop**, offered the entries of `K` from `p` to `m`, where `L` has the first `p`
entries of `K` and whatever was compacted is in `K` too. -/
theorem appendLoop (hK : Indexed K) {m : Nat} (hm : m ≤ K.length) (es : List LogEntry) :
    ∀ {p : Nat} {l : RaftLog} {L : List LogEntry}, LogRep l L → es = (K.take m).drop p → p ≤ m →
      L.take p = K.take p → L.take l.baseIndex <+: K → Matching L K →
      LogRep (Node.appendLoop es l) (spliced L K m) := by
  induction es with
  | nil =>
    intro p l L h hes hp hpre hbase hmatch
    have hpm : p = m := by
      have h1 := List.drop_eq_nil_iff.mp hes.symm
      rw [List.length_take] at h1
      omega
    subst hpm
    rw [spliced, if_pos (by rw [← hpre]; exact List.take_prefix p L)]
    exact h
  | cons e es ih =>
    intro p l L h hes hp hpre hbase hmatch
    have hpm : p < m := by
      by_contra hge
      rw [List.drop_eq_nil_of_le (by rw [List.length_take]; omega)] at hes
      exact absurd hes (by simp)
    -- the entry at hand and the rest of the window
    have he : K[p]? = some e := by
      have h1 : ((K.take m).drop p)[0]? = some e := by rw [← hes]; rfl
      rwa [List.getElem?_drop, Nat.add_zero, List.getElem?_take_of_lt hpm] at h1
    have hes' : es = (K.take m).drop (p + 1) := by
      rw [← List.drop_drop, ← hes]
      rfl
    have hidx : e.index = p + 1 := hK p e he
    have hlast := h.lastIndex
    have hKsucc := take_succ_eq he
    -- once `L` agrees with `K` one entry further, or is cut back there, the loop goes on
    have go : L.take (p + 1) = K.take (p + 1) → LogRep (Node.appendLoop es l) (spliced L K m) :=
      fun hpre' => ih h hes' hpm hpre' hbase hmatch
    have cut : ∀ l', LogRep l' (K.take (p + 1)) → ¬ K.take m <+: L →
        LogRep (Node.appendLoop es l') (spliced L K m) := by
      intro l' h' hno
      have h1 := ih h' hes' hpm (by rw [List.take_take, Nat.min_self])
        ((List.take_prefix _ _).trans (List.take_prefix _ _)) (matching_take K (p + 1))
      have h2 : spliced (K.take (p + 1)) K m = K.take m := by
        unfold spliced
        split
        · rename_i hp'
          have h3 := hp'.length_le
          rw [List.length_take, List.length_take] at h3
          rw [show p + 1 = m by omega]
        · rfl
      rw [spliced, if_neg hno]
      rwa [h2] at h1
    rw [Node.appendLoop, hidx]
    split
    · rename_i hle
      split
      · -- compacted: `L` has what `K` has there
        rename_i hcomp
        apply go
        have h1 : L.take (p + 1) <+: K :=
          (take_isPre_take L hcomp).trans hbase
        have h2 := take_eq_of_isPre h1 (i := p + 1) (by rw [List.length_take]; omega)
        rw [h2, List.take_take, Nat.min_self]
      · rename_i hncomp
        obtain ⟨d, hd⟩ : ∃ d, L[p]? = some d :=
          ⟨_, List.getElem?_eq_getElem (show p < L.length by omega)⟩
        have hat : l.entryAt (p + 1) = some d := h.entryAt.mpr ⟨by omega, hd⟩
        rw [hat]
        split
        · -- a conflict: cut here and take the entry
          rename_i hne
          have hdne : d.term ≠ e.term := by simpa using hne
          have h1 := (h.truncateFrom (i := p + 1) (by omega) (by omega)).append e
          rw [Nat.add_sub_cancel, hpre, ← hKsucc] at h1
          refine cut _ h1 fun hpre' => ?_
          have h2 : L[p]? = some e := getElem?_of_isPre hpre' (by
            rw [List.getElem?_take_of_lt hpm]; exact he)
          rw [hd] at h2
          exact hdne (by rw [Option.some.inj h2])
        · rename_i heq
          have hdeq : d.term = e.term := by simpa using heq
          exact go (hmatch p d e hd he hdeq)
    · -- past the end: the log is exactly the shared part
      rename_i hgt
      have hlen : L.length = p := by
        have h1 := congrArg List.length hpre
        rw [List.length_take, List.length_take] at h1
        omega
      have hL : L = K.take p := by rw [← hpre, ← hlen, List.take_length]
      have h1 := h.append e
      rw [hL, ← hKsucc] at h1
      refine cut _ h1 fun hpre' => ?_
      have h2 := hpre'.length_le
      rw [List.length_take] at h2
      omega

end LogRep

/-! ## Entries of a log -/

namespace RaftLog

variable {l : RaftLog} {e : LogEntry}

theorem mem_of_mem_truncateFrom {i : Nat} (h : e ∈ (l.truncateFrom i).entries) :
    e ∈ l.entries := by
  unfold truncateFrom at h
  split at h
  · exact h
  · split at h
    · exact h
    · exact List.mem_of_mem_take h

theorem mem_of_mem_setSnapshot {i t : Nat} (h : e ∈ (l.setSnapshot i t).entries) :
    e ∈ l.entries := by
  unfold setSnapshot at h
  split at h
  · exact h
  · simp only at h
    split at h
    · exact absurd h List.not_mem_nil
    · exact List.mem_of_mem_drop h

theorem mem_of_mem_slice {lo hi : Nat} (h : e ∈ l.slice lo hi) : e ∈ l.entries := by
  unfold slice at h
  split at h
  · exact absurd h List.not_mem_nil
  · simp only at h
    split at h
    · exact absurd h List.not_mem_nil
    · exact List.mem_of_mem_take (List.mem_of_mem_drop h)

theorem mem_of_entryAt {i : Nat} (h : l.entryAt i = some e) : e ∈ l.entries :=
  List.mem_of_getElem? (entryAt_eq_some.mp h).2

end RaftLog

/-- The loop over the entries of an `AppendEntries` brings in nothing else. -/
theorem Node.mem_appendLoop {es : List LogEntry} {l : RaftLog} {x : LogEntry}
    (h : x ∈ (appendLoop es l).entries) : x ∈ es ∨ x ∈ l.entries := by
  induction es generalizing l with
  | nil => exact Or.inr h
  | cons e es ih =>
    have hsnoc : ∀ l' : RaftLog, (∀ y ∈ l'.entries, y ∈ l.entries) →
        x ∈ (appendLoop es (l'.append e)).entries → x ∈ e :: es ∨ x ∈ l.entries := by
      intro l' hl' hx
      rcases ih hx with hx | hx
      · exact Or.inl (List.mem_cons_of_mem e hx)
      · rcases List.mem_append.mp hx with hx | hx
        · exact Or.inr (hl' x hx)
        · exact Or.inl (List.mem_cons.mpr (Or.inl (List.mem_singleton.mp hx)))
    unfold appendLoop at h
    split at h
    · split at h
      · exact (ih h).imp_left (List.mem_cons_of_mem e)
      · split at h
        · exact hsnoc _ (fun y hy => RaftLog.mem_of_mem_truncateFrom hy) h
        · exact (ih h).imp_left (List.mem_cons_of_mem e)
    · exact hsnoc l (fun y hy => hy) h

end SimKV
