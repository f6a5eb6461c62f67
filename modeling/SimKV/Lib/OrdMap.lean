/-
# Ordered maps as sorted association lists

A map is the list of its bindings in increasing key order; the order is part of
the type, so a map has at most one binding for a key and equal maps are equal
lists.  Iterating over a map is iterating over `toList`.

Everything is read off three facts about membership: `mem_insert`, `mem_erase`
and `find?_eq_some_iff`.
-/
import Mathlib.Order.Basic
import Mathlib.Order.Defs.LinearOrder
import Mathlib.Data.List.Sort
import Mathlib.Data.List.Pairwise
import Mathlib.Data.Finset.Card
import Mathlib.Data.List.Nodup

/-- A finite map, as its bindings in increasing key order. -/
@[ext]
structure OrdMap (κ ν : Type) [LinearOrder κ] where
  toList : List (κ × ν)
  sorted : toList.Pairwise (fun a b => a.1 < b.1)

namespace OrdMap

variable {κ ν : Type} [LinearOrder κ]

instance [DecidableEq ν] : DecidableEq (OrdMap κ ν) := fun a b =>
  decidable_of_iff (a.toList = b.toList) OrdMap.ext_iff.symm

/-! ## Insertion and removal on the underlying lists -/

/-- The sorted list `l` with key `k` bound to `v`. -/
def insertList (k : κ) (v : ν) : List (κ × ν) → List (κ × ν)
  | [] => [(k, v)]
  | p :: l =>
    if k < p.1 then (k, v) :: p :: l
    else if k = p.1 then (k, v) :: l
    else p :: insertList k v l

theorem mem_insertList_imp {k : κ} {v : ν} {q : κ × ν} :
    ∀ {l : List (κ × ν)}, q ∈ insertList k v l → q = (k, v) ∨ q ∈ l
  | [], h => by simpa [insertList] using h
  | p :: l, h => by
    unfold insertList at h
    split at h
    · simpa using h
    · split at h
      · rcases List.mem_cons.mp h with h | h
        · exact Or.inl h
        · exact Or.inr (List.mem_cons_of_mem _ h)
      · rcases List.mem_cons.mp h with h | h
        · exact Or.inr (by rw [h]; exact List.mem_cons_self)
        · rcases mem_insertList_imp h with h | h
          · exact Or.inl h
          · exact Or.inr (List.mem_cons_of_mem _ h)

theorem sorted_insertList {k : κ} {v : ν} :
    ∀ {l : List (κ × ν)}, l.Pairwise (fun a b => a.1 < b.1) →
      (insertList k v l).Pairwise (fun a b => a.1 < b.1)
  | [], _ => by simp [insertList]
  | p :: l, h => by
    obtain ⟨hp, hl⟩ := List.pairwise_cons.mp h
    unfold insertList
    split
    · rename_i hlt
      refine List.pairwise_cons.mpr ⟨fun q hq => ?_, h⟩
      rcases List.mem_cons.mp hq with rfl | hq
      · exact hlt
      · exact lt_trans hlt (hp q hq)
    · split
      · rename_i _ heq
        exact List.pairwise_cons.mpr ⟨fun q hq => by rw [heq]; exact hp q hq, hl⟩
      · rename_i hnlt hne
        refine List.pairwise_cons.mpr ⟨fun q hq => ?_, sorted_insertList hl⟩
        rcases mem_insertList_imp hq with rfl | hq
        · exact lt_of_le_of_ne (not_lt.mp hnlt) (fun h => hne h.symm)
        · exact hp q hq

theorem mem_insertList {k : κ} {v : ν} {q : κ × ν} :
    ∀ {l : List (κ × ν)}, l.Pairwise (fun a b => a.1 < b.1) →
      (q ∈ insertList k v l ↔ q = (k, v) ∨ (q.1 ≠ k ∧ q ∈ l))
  | [], _ => by simp [insertList]
  | p :: l, h => by
    obtain ⟨hp, hl⟩ := List.pairwise_cons.mp h
    unfold insertList
    split
    · rename_i hlt
      have hne : ∀ q ∈ p :: l, q.1 ≠ k := by
        intro q hq
        rcases List.mem_cons.mp hq with rfl | hq
        · exact ne_of_gt hlt
        · exact ne_of_gt (lt_trans hlt (hp q hq))
      rw [List.mem_cons]
      exact ⟨fun hq => hq.imp_right fun hq => ⟨hne q hq, hq⟩, fun hq => hq.imp_right And.right⟩
    · split
      · rename_i _ heq
        have hne : ∀ q ∈ l, q.1 ≠ k := fun q hq => by rw [heq]; exact ne_of_gt (hp q hq)
        rw [List.mem_cons, List.mem_cons]
        constructor
        · exact fun hq => hq.imp_right fun hq => ⟨hne q hq, Or.inr hq⟩
        · rintro (hq | ⟨hk, rfl | hq⟩)
          · exact Or.inl hq
          · exact absurd heq.symm hk
          · exact Or.inr hq
      · rename_i hnlt hne
        rw [List.mem_cons, List.mem_cons, mem_insertList hl]
        constructor
        · rintro (rfl | hq | ⟨hk, hq⟩)
          · exact Or.inr ⟨fun h => hne h.symm, Or.inl rfl⟩
          · exact Or.inl hq
          · exact Or.inr ⟨hk, Or.inr hq⟩
        · rintro (hq | ⟨hk, rfl | hq⟩)
          · exact Or.inr (Or.inl hq)
          · exact Or.inl rfl
          · exact Or.inr (Or.inr ⟨hk, hq⟩)

/-! ## The operations -/

/-- The empty map. -/
def empty : OrdMap κ ν := ⟨[], List.Pairwise.nil⟩

/-- The map with `k` bound to `v`, whatever `k` was bound to before. -/
def insert (m : OrdMap κ ν) (k : κ) (v : ν) : OrdMap κ ν :=
  ⟨insertList k v m.toList, sorted_insertList m.sorted⟩

/-- The map without a binding for `k`. -/
def erase (m : OrdMap κ ν) (k : κ) : OrdMap κ ν :=
  ⟨m.toList.filter (fun p => decide (p.1 ≠ k)), m.sorted.filter _⟩

/-- What `k` is bound to. -/
def find? (m : OrdMap κ ν) (k : κ) : Option ν :=
  (m.toList.find? (fun p => decide (p.1 = k))).map Prod.snd

/-- What `k` is bound to, or `d`. -/
def getD (m : OrdMap κ ν) (k : κ) (d : ν) : ν := (m.find? k).getD d

/-- The map with `k` bound to `d` unless it is bound already. -/
def touch (m : OrdMap κ ν) (k : κ) (d : ν) : OrdMap κ ν :=
  if (m.find? k).isSome then m else m.insert k d

def size (m : OrdMap κ ν) : Nat := m.toList.length

/-- The map of a list of bindings, a later one winning over an earlier one. -/
def ofList (l : List (κ × ν)) : OrdMap κ ν := l.foldl (fun m p => m.insert p.1 p.2) empty

/-! ## Membership -/

theorem mem_insert {m : OrdMap κ ν} {k : κ} {v : ν} {q : κ × ν} :
    q ∈ (m.insert k v).toList ↔ q = (k, v) ∨ (q.1 ≠ k ∧ q ∈ m.toList) :=
  mem_insertList m.sorted

theorem mem_erase {m : OrdMap κ ν} {k : κ} {q : κ × ν} :
    q ∈ (m.erase k).toList ↔ q.1 ≠ k ∧ q ∈ m.toList := by
  simp [erase, and_comm]

theorem nodup (m : OrdMap κ ν) : m.toList.Nodup :=
  m.sorted.imp fun h => by rintro rfl; exact lt_irrefl _ h

/-- A key has one binding. -/
theorem eq_of_mem {m : OrdMap κ ν} {k : κ} {v v' : ν} (h : (k, v) ∈ m.toList)
    (h' : (k, v') ∈ m.toList) : v = v' := by
  by_contra hne
  have hne' : ((k, v) : κ × ν) ≠ (k, v') := fun h => hne (Prod.mk.inj h).2
  have hpw : m.toList.Pairwise (fun a b => a.1 ≠ b.1) := m.sorted.imp fun h => ne_of_lt h
  have : Std.Symm (fun a b : κ × ν => a.1 ≠ b.1) := ⟨fun _ _ h => h.symm⟩
  exact hpw.forall h h' hne' rfl

theorem find?_eq_some_iff {m : OrdMap κ ν} {k : κ} {v : ν} :
    m.find? k = some v ↔ (k, v) ∈ m.toList := by
  unfold find?
  constructor
  · intro h
    obtain ⟨⟨k', v'⟩, hp, rfl⟩ := Option.map_eq_some_iff.mp h
    have hk : k' = k := by simpa using List.find?_some hp
    subst hk
    exact List.mem_of_find?_eq_some hp
  · intro h
    cases hf : m.toList.find? (fun p => decide (p.1 = k)) with
    | none =>
      have := List.find?_eq_none.mp hf (k, v) h
      simp at this
    | some p =>
      obtain ⟨k', v'⟩ := p
      have hk : k' = k := by simpa using List.find?_some hf
      subst hk
      rw [Option.map_some, eq_of_mem (List.mem_of_find?_eq_some hf) h]

theorem find?_eq_none_iff {m : OrdMap κ ν} {k : κ} :
    m.find? k = none ↔ ∀ v, (k, v) ∉ m.toList := by
  rw [Option.eq_none_iff_forall_not_mem]
  exact forall_congr' fun v => not_congr find?_eq_some_iff

/-- Maps with the same bindings are equal. -/
theorem ext_mem {m m' : OrdMap κ ν} (h : ∀ q, q ∈ m.toList ↔ q ∈ m'.toList) : m = m' := by
  refine OrdMap.ext (List.Perm.eq_of_pairwise ?_ m.sorted m'.sorted
    ((List.perm_ext_iff_of_nodup m.nodup m'.nodup).mpr h))
  intro a b _ _ hab hba
  exact absurd (lt_trans hab hba) (lt_irrefl _)

@[simp] theorem find?_insert_self (m : OrdMap κ ν) (k : κ) (v : ν) :
    (m.insert k v).find? k = some v :=
  find?_eq_some_iff.mpr (mem_insert.mpr (Or.inl rfl))

theorem find?_insert_of_ne (m : OrdMap κ ν) {k j : κ} (v : ν) (h : j ≠ k) :
    (m.insert k v).find? j = m.find? j := by
  refine Option.ext fun x => ?_
  rw [find?_eq_some_iff, find?_eq_some_iff, mem_insert]
  constructor
  · rintro (hq | ⟨-, hq⟩)
    · exact absurd (Prod.mk.inj hq).1 h
    · exact hq
  · exact fun hq => Or.inr ⟨h, hq⟩

@[simp] theorem find?_erase_self (m : OrdMap κ ν) (k : κ) : (m.erase k).find? k = none :=
  find?_eq_none_iff.mpr fun _ hq => (mem_erase.mp hq).1 rfl

theorem find?_erase_of_ne (m : OrdMap κ ν) {k j : κ} (h : j ≠ k) :
    (m.erase k).find? j = m.find? j := by
  refine Option.ext fun x => ?_
  rw [find?_eq_some_iff, find?_eq_some_iff, mem_erase]
  exact ⟨And.right, fun hq => ⟨h, hq⟩⟩

@[simp] theorem getD_insert_self (m : OrdMap κ ν) (k : κ) (v d : ν) :
    (m.insert k v).getD k d = v := by
  simp [getD]

theorem getD_insert_of_ne (m : OrdMap κ ν) {k j : κ} (v d : ν) (h : j ≠ k) :
    (m.insert k v).getD j d = m.getD j d := by
  simp [getD, find?_insert_of_ne m v h]

/-- Touching a key changes no answer that defaults to the same value. -/
@[simp] theorem getD_touch (m : OrdMap κ ν) (k j : κ) (d : ν) :
    (m.touch k d).getD j d = m.getD j d := by
  unfold touch
  split
  · rfl
  · rename_i hno
    by_cases h : j = k
    · subst h
      have h0 : m.find? j = none := by simpa using hno
      simp [getD, h0]
    · exact getD_insert_of_ne m d d h

theorem touch_eq_self {m : OrdMap κ ν} {k : κ} {d : ν} (h : (m.find? k).isSome) :
    m.touch k d = m := by
  rw [touch, if_pos h]

/-! ## Statements about every binding -/

/-- Every binding satisfies `P`. -/
def All (m : OrdMap κ ν) (P : κ → ν → Prop) : Prop := ∀ k v, m.find? k = some v → P k v

variable {m : OrdMap κ ν} {P Q : κ → ν → Prop}

theorem All.imp (h : m.All P) (hPQ : ∀ k v, P k v → Q k v) : m.All Q :=
  fun k v hk => hPQ k v (h k v hk)

theorem All.insert (h : m.All P) {k : κ} {v : ν} (hk : P k v) : (m.insert k v).All P := by
  intro j w hj
  by_cases hjk : j = k
  · subst hjk
    rw [find?_insert_self] at hj
    exact Option.some.inj hj ▸ hk
  · rw [find?_insert_of_ne m v hjk] at hj
    exact h j w hj

theorem All.erase (h : m.All P) (k : κ) : (m.erase k).All fun j v => j ≠ k ∧ P j v := by
  intro j w hj
  by_cases hjk : j = k
  · rw [hjk, find?_erase_self] at hj
    exact nomatch hj
  · rw [find?_erase_of_ne m hjk] at hj
    exact ⟨hjk, h j w hj⟩

theorem All.getD (h : m.All P) {k : κ} (hk : (m.find? k).isSome = true) (d : ν) :
    P k (m.getD k d) := by
  obtain ⟨v, hv⟩ := Option.isSome_iff_exists.mp hk
  rw [OrdMap.getD, hv]
  exact h k v hv

theorem isSome_insert (m : OrdMap κ ν) {k j : κ} (v : ν) (h : (m.find? j).isSome = true) :
    ((m.insert k v).find? j).isSome = true := by
  by_cases hjk : j = k
  · rw [hjk, find?_insert_self]
    rfl
  · rw [find?_insert_of_ne m v hjk]
    exact h

/-- A statement that holds of the default is one about every key or about every binding. -/
theorem forall_mem_toList_iff {R : ν → Prop} {d : ν} (hd : R d) :
    (∀ p ∈ m.toList, R p.2) ↔ ∀ k, R (m.getD k d) := by
  constructor
  · intro h k
    unfold OrdMap.getD
    cases hk : m.find? k with
    | none => exact hd
    | some v => exact h (k, v) (find?_eq_some_iff.mp hk)
  · rintro h ⟨k, v⟩ hp
    have hk := h k
    unfold OrdMap.getD at hk
    rw [find?_eq_some_iff.mpr hp] at hk
    exact hk

/-- What a key is bound to when values are collected under keys, one after another. -/
theorem getD_collect {α β : Type} [DecidableEq κ] (skip : α → Bool) (key : α → κ) (f : α → β)
    (k : κ) (es : List α) (m : OrdMap κ (List β)) :
    (es.foldl (fun m e => if skip e then m else
        m.insert (key e) (m.getD (key e) [] ++ [f e])) m).getD k [] =
      m.getD k [] ++ ((es.filter fun e => !skip e).filter fun e => key e = k).map f := by
  induction es generalizing m with
  | nil => simp
  | cons e es ih =>
    rw [List.foldl_cons, ih]
    by_cases hs : skip e
    · simp [hs]
    · by_cases hk : key e = k
      · subst hk
        simp [hs]
      · simp [hs, getD_insert_of_ne _ _ _ (Ne.symm hk), hk]

/-! ## Lists of bindings, sizes and counts -/

/-- Reading a map back from its own bindings. -/
theorem ofList_toList (m : OrdMap κ ν) : ofList m.toList = m := by
  have key : ∀ (l : List (κ × ν)) (acc : OrdMap κ ν), l.Pairwise (fun a b => a.1 < b.1) →
      ∀ q, q ∈ (l.foldl (fun m p => m.insert p.1 p.2) acc).toList ↔
        q ∈ l ∨ ((∀ p ∈ l, q.1 ≠ p.1) ∧ q ∈ acc.toList) := by
    intro l
    induction l with
    | nil => intro acc _ q; simp
    | cons p l ih =>
      intro acc hl q
      obtain ⟨hp, hl⟩ := List.pairwise_cons.mp hl
      rw [List.foldl_cons, ih _ hl, mem_insert, List.mem_cons]
      have hpne : ∀ r ∈ l, p.1 ≠ r.1 := fun r hr => ne_of_lt (hp r hr)
      constructor
      · rintro (hq | ⟨hne, rfl | ⟨hqp, hq⟩⟩)
        · exact Or.inl (Or.inr hq)
        · exact Or.inl (Or.inl rfl)
        · refine Or.inr ⟨fun r hr => ?_, hq⟩
          rcases List.mem_cons.mp hr with rfl | hr
          · exact hqp
          · exact hne r hr
      · rintro ((rfl | hq) | ⟨hne, hq⟩)
        · exact Or.inr ⟨hpne, Or.inl rfl⟩
        · exact Or.inl hq
        · exact Or.inr ⟨fun r hr => hne r (List.mem_cons_of_mem _ hr),
            Or.inr ⟨hne p List.mem_cons_self, hq⟩⟩
  refine ext_mem fun q => ?_
  rw [ofList, key _ _ m.sorted]
  simp [empty]

/-- One binding taken out, and the rest. -/
theorem cons_erase_subperm {m : OrdMap κ ν} {k : κ} {v : ν} (h : m.find? k = some v) {α : Type}
    (f : κ × ν → α) : (f (k, v) :: (m.erase k).toList.map f).Subperm (m.toList.map f) := by
  have hnodup : ((k, v) :: (m.erase k).toList).Nodup :=
    List.nodup_cons.mpr ⟨fun hmem => (mem_erase.mp hmem).1 rfl, (m.erase k).nodup⟩
  have hsub : (k, v) :: (m.erase k).toList ⊆ m.toList := by
    intro q hq
    rcases List.mem_cons.mp hq with rfl | hq
    · exact find?_eq_some_iff.mp h
    · exact (mem_erase.mp hq).2
  obtain ⟨l, hperm, hl⟩ := hnodup.subperm hsub
  exact ⟨l.map f, hperm.map f, hl.map f⟩

/-- Binding a key adds at most that binding. -/
theorem insert_subperm (m : OrdMap κ ν) (k : κ) (v : ν) {α : Type} (f : κ × ν → α) :
    ((m.insert k v).toList.map f).Subperm (f (k, v) :: m.toList.map f) := by
  have hsub : (m.insert k v).toList ⊆ (k, v) :: m.toList := by
    intro q hq
    rcases mem_insert.mp hq with h | h
    · exact List.mem_cons.mpr (Or.inl h)
    · exact List.mem_cons_of_mem _ h.2
  obtain ⟨l, hperm, hl⟩ := (m.insert k v).nodup.subperm hsub
  exact ⟨l.map f, hperm.map f, hl.map f⟩

/-- The keys bound to a value that satisfies `P`. -/
def keysWhere (m : OrdMap κ ν) (P : ν → Bool) : Finset κ :=
  ((m.toList.filter (fun p => P p.2)).map Prod.fst).toFinset

theorem mem_keysWhere {m : OrdMap κ ν} {P : ν → Bool} {k : κ} :
    k ∈ m.keysWhere P ↔ ∃ v, m.find? k = some v ∧ P v = true := by
  simp only [keysWhere, List.mem_toFinset, List.mem_map, List.mem_filter, Prod.exists,
    exists_and_right, exists_eq_right, find?_eq_some_iff]

/-- Counting bindings counts keys. -/
theorem card_keysWhere (m : OrdMap κ ν) (P : ν → Bool) :
    (m.keysWhere P).card = (m.toList.filter (fun p => P p.2)).length := by
  rw [keysWhere, List.toFinset_card_of_nodup, List.length_map]
  have hpw : ((m.toList.filter (fun p => P p.2)).map Prod.fst).Pairwise (· < ·) :=
    List.pairwise_map.mpr (m.sorted.filter _)
  exact hpw.imp fun h => ne_of_lt h

end OrdMap
