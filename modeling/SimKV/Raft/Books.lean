/-
# What a leader writes down about its peers

A leader keeps `match_index_` and `next_index_` for itself and its peers.  Both maps
are indexed with `operator[]`, so a reply from any node gets an entry, a late one
from a server that has been removed included: its `next_index_` starts at 0, and
0 - 1 on `uint64_t` is the largest index there is.  From then on the removed server
counts towards every commit (`removed_server_counts`).

As long as the replies a leader acts on come from its peers and name indices of its
log, the maps speak of members only, within the bounds of the log, and nothing
wraps (`Books`, `books_in_order`).  For the bounds, entries have to carry their own
index: the end of a window that was sent becomes `next_index_`.
-/
import SimKV.Raft.Formats
import SimKV.Raft.LogRep

namespace SimKV

variable {M : Medium}

/-! ## Entries that carry their own index -/

/-- The entries are numbered from `i + 1` on. -/
def Consecutive (i : Nat) (es : List LogEntry) : Prop :=
  ∀ k e, es[k]? = some e → e.index = i + k + 1

namespace Consecutive

variable {i : Nat} {es : List LogEntry} {e : LogEntry}

theorem nil (i : Nat) : Consecutive i [] := fun _ _ h => nomatch h

theorem take (h : Consecutive i es) (n : Nat) : Consecutive i (es.take n) := fun k e hk =>
  h k e (TermLog.getElem?_of_isPre (List.take_prefix n es) hk)

theorem drop (h : Consecutive i es) (n : Nat) : Consecutive (i + n) (es.drop n) := fun k e hk => by
  rw [List.getElem?_drop] at hk
  rw [h (n + k) e hk]
  omega

theorem snoc (h : Consecutive i es) (he : e.index = i + es.length + 1) :
    Consecutive i (es ++ [e]) := by
  intro k x hk
  rcases Nat.lt_or_ge k es.length with hlt | hge
  · rw [List.getElem?_append_left hlt] at hk
    exact h k x hk
  · rw [List.getElem?_append_right hge] at hk
    rw [List.getElem?_singleton] at hk
    obtain ⟨hk0, hk⟩ := Option.ite_none_right_eq_some.mp hk
    cases hk
    omega

theorem head (h : Consecutive i (e :: es)) : e.index = i + 1 := h 0 e rfl

theorem tail (h : Consecutive i (e :: es)) : Consecutive (i + 1) es := fun k x hk => by
  rw [h (k + 1) x hk]
  omega

theorem index_le (h : Consecutive i es) (he : e ∈ es) : i < e.index ∧ e.index ≤ i + es.length := by
  obtain ⟨k, hk⟩ := List.mem_iff_getElem?.mp he
  have hlt := (List.getElem?_eq_some_iff.mp hk).1
  rw [h k e hk]
  omega

end Consecutive

namespace RaftLog

variable {l : RaftLog}

/-- The entries of the log carry their own index. -/
def Numbered (l : RaftLog) : Prop := Consecutive l.baseIndex l.entries

theorem Numbered.append (h : l.Numbered) {e : LogEntry} (he : e.index = l.lastIndex + 1) :
    (l.append e).Numbered := Consecutive.snoc h he

theorem Numbered.truncateFrom (h : l.Numbered) (i : Nat) : (l.truncateFrom i).Numbered := by
  unfold RaftLog.truncateFrom
  split
  · exact h
  · split
    · exact h
    · exact Consecutive.take h _

theorem Numbered.setSnapshot (h : l.Numbered) (i t : Nat) : (l.setSnapshot i t).Numbered := by
  unfold RaftLog.setSnapshot
  split
  · exact h
  · rename_i hb
    change Consecutive i (if i ≥ l.lastIndex then [] else l.entries.drop (i - l.baseIndex))
    split
    · exact Consecutive.nil i
    · have := Consecutive.drop h (i - l.baseIndex)
      rwa [show l.baseIndex + (i - l.baseIndex) = i by omega] at this

theorem Numbered.slice (h : l.Numbered) {lo : Nat} (hlo : l.baseIndex ≤ lo) (hi : Nat) :
    Consecutive lo (l.slice lo hi) := by
  unfold RaftLog.slice
  split
  · exact Consecutive.nil lo
  · simp only
    split
    · exact Consecutive.nil lo
    · have := Consecutive.drop (Consecutive.take h (min hi l.lastIndex - l.baseIndex))
        (max (lo + 1) (l.baseIndex + 1) - l.baseIndex - 1)
      rwa [show l.baseIndex + (max (lo + 1) (l.baseIndex + 1) - l.baseIndex - 1) = lo by omega]
        at this

theorem Numbered.index_le (h : l.Numbered) {e : LogEntry} (he : e ∈ l.entries) :
    0 < e.index ∧ e.index ≤ l.lastIndex := by
  have := Consecutive.index_le h he
  exact ⟨by omega, this.2⟩

theorem Numbered.lastIndexForTerm_le (h : l.Numbered) (t : Nat) :
    l.lastIndexForTerm t ≤ l.lastIndex := by
  unfold lastIndexForTerm
  split
  · rename_i e he
    exact (h.index_le (List.mem_reverse.mp (List.mem_of_find?_eq_some he))).2
  · split
    · exact Nat.le_add_right _ _
    · exact Nat.zero_le _

theorem contains_le {i t : Nat} (h : l.contains i t = true) : i ≤ l.lastIndex := by
  unfold contains at h
  split at h
  · omega
  · split at h
    · unfold lastIndex
      omega
    · split at h
      · exact nomatch h
      · split at h
        · exact nomatch h
        · omega

/-- Entries offered without a gap leave none. -/
theorem Numbered.appendLoop (es : List LogEntry) {i : Nat} (h : l.Numbered)
    (hes : Consecutive i es) (hi : i ≤ l.lastIndex) : (Node.appendLoop es l).Numbered := by
  induction es generalizing l i with
  | nil => exact h
  | cons e es ih =>
    have hidx := hes.head
    unfold Node.appendLoop
    split
    · rename_i hle
      split
      · exact ih h hes.tail (by omega)
      · split
        · rename_i hb _
          have hlast := lastIndex_truncateFrom (l := l) (i := e.index) (by omega) hle
          refine ih ((h.truncateFrom _).append hlast.symm) hes.tail ?_
          rw [lastIndex_append]
          omega
        · exact ih h hes.tail (by omega)
    · refine ih (h.append (by omega)) hes.tail ?_
      rw [lastIndex_append]
      omega

end RaftLog

/-! ## The books of a leader -/

/-- The log carries its indices, from the snapshot on. -/
structure Node.InOrder (s : Node M) : Prop where
  log : s.log.Numbered
  base : s.log.baseIndex ≤ s.snapLastIndex

/-- Both maps speak of the leader and its peers only, and of indices of the log only; every peer
has a `next_index_`. -/
structure Node.Books (s : Node M) : Prop where
  matched : s.matchIndex.All fun k v => (k = s.id ∨ k ∈ s.peers) ∧ v ≤ s.log.lastIndex
  next : s.nextIndex.All fun k v => (k = s.id ∨ k ∈ s.peers) ∧ 1 ≤ v ∧ v ≤ s.log.lastIndex + 1
  known : ∀ p ∈ s.peers, (s.nextIndex.find? p).isSome = true

namespace Node.Books

variable {s s' : Node M}

theorem of_eq (h : s.Books) (hid : s'.id = s.id) (hp : s'.peers = s.peers)
    (hm : s'.matchIndex = s.matchIndex) (hn : s'.nextIndex = s.nextIndex)
    (hl : s'.log.lastIndex = s.log.lastIndex) : s'.Books where
  matched := by rw [hid, hp, hm, hl]; exact h.matched
  next := by rw [hid, hp, hn, hl]; exact h.next
  known := by rw [hp, hn]; exact h.known

theorem all_fillIndex (ps : List NodeId) (v : Nat) :
    (fillIndex ps v).All fun k w => k ∈ ps ∧ w = v := by
  intro k w hk
  rw [find?_fillIndex] at hk
  obtain ⟨hk, hw⟩ := Option.ite_none_right_eq_some.mp hk
  exact ⟨hk, (Option.some.inj hw).symm⟩

/-- The books of a new leader. -/
theorem fresh (s : Node M) (hm : s.matchIndex = (fillIndex s.peers 0).insert s.id s.log.lastIndex)
    (hn : s.nextIndex = (fillIndex s.peers (s.log.lastIndex + 1)).insert s.id
      (s.log.lastIndex + 1)) : s.Books where
  matched := by
    rw [hm]
    refine OrdMap.All.insert ((all_fillIndex _ _).imp fun k v hk => ?_) ⟨Or.inl rfl, Nat.le_refl _⟩
    exact ⟨Or.inr hk.1, hk.2 ▸ Nat.zero_le _⟩
  next := by
    rw [hn]
    refine OrdMap.All.insert ((all_fillIndex _ _).imp fun k v hk => ?_)
      ⟨Or.inl rfl, Nat.le_add_left 1 _, Nat.le_refl _⟩
    rw [hk.2]
    exact ⟨Or.inr hk.1, Nat.le_add_left 1 _, Nat.le_refl _⟩
  known p hp := by
    rw [hn]
    refine OrdMap.isSome_insert _ _ ?_
    rw [find?_fillIndex, if_pos hp]
    rfl

theorem setNext (h : s.Books) {p : NodeId} {v : Nat} (hp : p ∈ s.peers) (h1 : 1 ≤ v)
    (hv : v ≤ s.log.lastIndex + 1) : Books { s with nextIndex := s.nextIndex.insert p v } where
  matched := h.matched
  next := h.next.insert ⟨Or.inr hp, h1, hv⟩
  known q hq := OrdMap.isSome_insert _ _ (h.known q hq)

/-- A credit of `v` and the next index after it. -/
theorem setBoth (h : s.Books) {p : NodeId} {v : Nat} (hp : p ∈ s.peers)
    (hv : v ≤ s.log.lastIndex) : Books { s with
      matchIndex := s.matchIndex.insert p v, nextIndex := s.nextIndex.insert p (v + 1) } where
  matched := h.matched.insert ⟨Or.inr hp, hv⟩
  next := h.next.insert ⟨Or.inr hp, Nat.le_add_left 1 v, Nat.succ_le_succ hv⟩
  known q hq := OrdMap.isSome_insert _ _ (h.known q hq)

/-- What is known of a peer. -/
theorem peer (h : s.Books) {p : NodeId} (hp : p ∈ s.peers) :
    1 ≤ s.nextIndex.getD p 0 ∧ s.nextIndex.getD p 0 ≤ s.log.lastIndex + 1 ∧
      s.matchIndex.getD p 0 ≤ s.log.lastIndex := by
  obtain ⟨-, h1, h2⟩ := h.next.getD (h.known p hp) 0
  refine ⟨h1, h2, ?_⟩
  cases hm : s.matchIndex.find? p with
  | none => rw [OrdMap.getD, hm]; exact Nat.zero_le _
  | some v => rw [OrdMap.getD, hm]; exact (h.matched p v hm).2

/-- The bookkeeping of a success reply does not wrap. -/
theorem creditSuccess_eq (h : s.Books) {p : NodeId} (hp : p ∈ s.peers)
    (hlast : s.log.lastIndex < 2 ^ 64 - 1) :
    s.creditSuccess p = { s with
      matchIndex := s.matchIndex.insert p
        (max (s.matchIndex.getD p 0) (s.nextIndex.getD p 0 - 1))
      nextIndex := s.nextIndex.insert p
        (max (s.matchIndex.getD p 0) (s.nextIndex.getD p 0 - 1) + 1) } := by
  obtain ⟨h1, h2, h3⟩ := h.peer hp
  have hpred : pred64 (s.nextIndex.getD p 0) = s.nextIndex.getD p 0 - 1 := if_neg (by omega)
  have hsucc : succ64 (max (s.matchIndex.getD p 0) (s.nextIndex.getD p 0 - 1)) =
      max (s.matchIndex.getD p 0) (s.nextIndex.getD p 0 - 1) + 1 := if_neg (by omega)
  simp only [Node.creditSuccess, OrdMap.touch_eq_self (h.known p hp), hpred, hsucc]

/-- A window that was sent ends inside the log. -/
theorem nextAfter (h : s.Books) (ho : s.InOrder) {p : NodeId} (hp : p ∈ s.peers) (prev : Nat) :
    Books { s with nextIndex := s.nextAfter p (s.window prev) } := by
  unfold Node.nextAfter
  split
  · rename_i e he
    have hle := ho.log.index_le (RaftLog.mem_of_mem_slice (List.mem_of_getLast? he))
    exact h.setNext hp (Nat.le_add_left 1 _) (Nat.succ_le_succ hle.2)
  · exact h

theorem creditSuccess (h : s.Books) {p : NodeId} (hp : p ∈ s.peers)
    (hlast : s.log.lastIndex < 2 ^ 64 - 1) : (s.creditSuccess p).Books := by
  obtain ⟨h1, h2, h3⟩ := h.peer hp
  rw [h.creditSuccess_eq hp hlast]
  exact h.setBoth hp (by omega)

theorem creditSnapshot (h : s.Books) {p : NodeId} (hp : p ∈ s.peers) {isr : InstallSnapshotReply}
    (hisr : isr.lastIncludedIndex ≤ s.log.lastIndex) (hlast : s.log.lastIndex < 2 ^ 64 - 1) :
    (s.creditSnapshot p isr).Books := by
  obtain ⟨-, -, h3⟩ := h.peer hp
  have hmax : max (s.matchIndex.getD p 0) isr.lastIncludedIndex ≤ s.log.lastIndex :=
    Nat.max_le.mpr ⟨h3, hisr⟩
  have hsucc : succ64 (max (s.matchIndex.getD p 0) isr.lastIncludedIndex) =
      max (s.matchIndex.getD p 0) isr.lastIncludedIndex + 1 := if_neg (by omega)
  simp only [Node.creditSnapshot, hsucc]
  exact h.setBoth hp hmax

theorem backtrack (h : s.Books) (ho : s.InOrder) {p : NodeId} (hp : p ∈ s.peers)
    {aer : AppendEntriesReply} (haer : aer.conflictIndex ≤ s.log.lastIndex + 1) :
    (s.backtrack p aer).Books := by
  have hlast := ho.log.lastIndexForTerm_le aer.conflictTerm
  unfold Node.backtrack
  refine h.setNext hp ?_ ?_ <;> grind

theorem joinPeer (h : s.Books) {newId : NodeId} (hrole : s.role = .leader) :
    (s.joinPeer newId).Books := by
  have hpeers : ∀ k, k ∈ (s.peers ++ [newId]).insertionSort (· ≤ ·) ↔ k ∈ s.peers ∨ k = newId :=
    fun k => by rw [(List.perm_insertionSort _ _).mem_iff, List.mem_append, List.mem_singleton]
  have hmem : ∀ {k}, (k = s.id ∨ k ∈ s.peers) →
      k = s.id ∨ k ∈ (s.peers ++ [newId]).insertionSort (· ≤ ·) :=
    fun hk => hk.imp_right fun hk => (hpeers _).mpr (Or.inl hk)
  have hnew : newId ∈ (s.peers ++ [newId]).insertionSort (· ≤ ·) := (hpeers _).mpr (Or.inr rfl)
  unfold Node.joinPeer
  simp only [hrole, if_true]
  refine ⟨OrdMap.All.insert (h.matched.imp fun k v hk => ⟨hmem hk.1, hk.2⟩)
      ⟨Or.inr hnew, Nat.zero_le _⟩,
    OrdMap.All.insert (h.next.imp fun k v hk => ⟨hmem hk.1, hk.2⟩)
      ⟨Or.inr hnew, Nat.le_add_left 1 _, Nat.le_refl _⟩, fun p hp => ?_⟩
  rcases (hpeers p).mp hp with hp | rfl
  · exact OrdMap.isSome_insert _ _ (h.known p hp)
  · rw [OrdMap.find?_insert_self]
    rfl

theorem leavePeer (h : s.Books) (remId : NodeId) : (s.leavePeer remId).Books := by
  have hmem : ∀ {k}, k ≠ remId → (k = s.id ∨ k ∈ s.peers) →
      k = s.id ∨ k ∈ s.peers.filter (· ≠ remId) :=
    fun hne hk => hk.imp_right fun hk => List.mem_filter.mpr ⟨hk, by simpa using hne⟩
  refine ⟨(h.matched.erase remId).imp fun k v hk => ⟨hmem hk.1 hk.2.1, hk.2.2⟩,
    (h.next.erase remId).imp fun k v hk => ⟨hmem hk.1 hk.2.1, hk.2.2⟩, fun p hp => ?_⟩
  obtain ⟨hp, hne⟩ := List.mem_filter.mp hp
  change ((s.nextIndex.erase remId).find? p).isSome = true
  rw [OrdMap.find?_erase_of_ne _ (by simpa using hne)]
  exact h.known p hp

/-- A command goes to the end of the log. -/
theorem place (h : s.Books) (hid : s'.id = s.id) (hp : s'.peers = s.peers)
    (hm : s'.matchIndex = s.matchIndex.insert s.id (s.log.lastIndex + 1))
    (hn : s'.nextIndex = s.nextIndex.insert s.id (s.log.lastIndex + 2))
    (hl : s'.log.lastIndex = s.log.lastIndex + 1) : s'.Books where
  matched := by
    rw [hid, hp, hm, hl]
    exact OrdMap.All.insert (h.matched.imp fun k v hk => ⟨hk.1, Nat.le_succ_of_le hk.2⟩)
      ⟨Or.inl rfl, Nat.le_refl _⟩
  next := by
    rw [hid, hp, hn, hl]
    exact OrdMap.All.insert
      (h.next.imp fun k v hk => ⟨hk.1, hk.2.1, Nat.le_succ_of_le hk.2.2⟩)
      ⟨Or.inl rfl, Nat.le_add_left 1 _, Nat.le_refl _⟩
  known := by
    rw [hp, hn]
    exact fun p hp => OrdMap.isSome_insert _ _ (h.known p hp)

/-- Only members count. -/
theorem matchCount_le (h : s.Books) (n : Nat) : s.matchCount n ≤
    ((insert s.id s.peers.toFinset).filter fun p => n ≤ s.matchIndex.getD p 0).card := by
  unfold Node.matchCount
  rw [← OrdMap.card_keysWhere s.matchIndex fun v => decide (v ≥ n)]
  refine Finset.card_le_card fun p hp => ?_
  obtain ⟨v, hv, hn⟩ := OrdMap.mem_keysWhere.mp hp
  rw [Finset.mem_filter, Finset.mem_insert, List.mem_toFinset, OrdMap.getD, hv]
  exact ⟨(h.matched p v hv).1, by simpa using hn⟩

end Node.Books

/-! ## Moves -/

/-- The log is in order, and so are the books of a leader; a node that is down is a follower. -/
structure Node.Orderly (s : Node M) : Prop where
  order : s.InOrder
  down : s.running = false → s.role = .follower
  books : s.role = .leader → s.Books

/-- The reply, if the leader acts on it, comes from a peer and names an index of the log. -/
def Node.FitsBooks (s : Node M) : Input M → Prop
  | .message src (.appendEntriesReply aer) => s.role = .leader → aer.term = s.currentTerm →
      src ∈ s.peers ∧ s.log.lastIndex < 2 ^ 64 - 1 ∧
        (aer.success = false → aer.conflictIndex ≤ s.log.lastIndex + 1)
  | .message src (.installSnapshotReply isr) => s.role = .leader → isr.term ≤ s.currentTerm →
      src ∈ s.peers ∧ s.log.lastIndex < 2 ^ 64 - 1 ∧ isr.lastIncludedIndex ≤ s.log.lastIndex
  | _ => True

instance (s : Node M) (inp : Input M) : Decidable (s.FitsBooks inp) := by
  unfold Node.FitsBooks
  induction inp using Input.casesOn with
  | message src m => induction m using Msg.casesOn <;> infer_instance
  | _ => infer_instance

/-- Entries in a message carry their own index. -/
def NumberedMsg (m : Msg M.Blob) : Prop :=
  ∀ ae, m = .appendEntries ae → Consecutive ae.prevLogIndex ae.entries

section Moves

variable {n₀ s s' : Node M} {t : Nat} {inp : Input M}

/-- Whoever the leader writes to is a peer. -/
theorem Booked.peer {p : NodeId} (h : Booked n₀ s inp p) (hfit : n₀.FitsBooks inp) :
    p ∈ s.peers := by
  rcases h with h | ⟨hpeers, hrole, aer, rfl, hterm⟩
  · exact h
  · rw [hpeers]
    exact (hfit hrole hterm).1

namespace Node.Orderly

theorem frame (h : s.Orderly) (hlog : s'.log = s.log)
    (hsnap : s'.snapLastIndex = s.snapLastIndex) (hrun : s'.running = s.running)
    (hrole : s'.role = s.role) (hbooks : s.role = .leader → s.Books → s'.Books) : s'.Orderly where
  order := ⟨by rw [hlog]; exact h.order.log, by rw [hlog, hsnap]; exact h.order.base⟩
  down := by rw [hrun, hrole]; exact h.down
  books hl := hbooks (hrole.symm.trans hl) (h.books (hrole.symm.trans hl))

theorem of_follower (ho : s.InOrder) (hrole : s.role = .follower) : s.Orderly :=
  ⟨ho, fun _ => hrole, fun hl => nomatch hrole.symm.trans hl⟩

end Node.Orderly

/-- **Every move keeps log and books in order**, if the reply it handles fits. -/
theorem Move.orderly (h : Move n₀ t inp s s') (hrec : Recoverable n₀ inp)
    (hfit : n₀.FitsBooks inp) (hmsg : ∀ src m, inp = .message src m → NumberedMsg m)
    (hs : s.Orderly) : s'.Orderly := by
  cases h with
  | newTerm | follow => exact .of_follower ⟨hs.order.log, hs.order.base⟩ rfl
  | stand tm es es' hq hq' hrun =>
    exact ⟨⟨hs.order.log, hs.order.base⟩, fun hdown => (nomatch hrun.symm.trans hdown),
      fun hl => nomatch hl⟩
  | win tm es hq hrole =>
    exact ⟨⟨hs.order.log, hs.order.base⟩,
      fun hdown => (nomatch hrole.symm.trans (hs.down hdown)), fun _ => .fresh _ rfl rfl⟩
  | touchNext peer hbook =>
    refine hs.frame rfl rfl rfl rfl fun _ hb => ?_
    rw [OrdMap.touch_eq_self (hb.known peer (hbook.peer hfit))]
    exact hb
  | sendAppend peer next prevTerm hbook =>
    exact hs.frame rfl rfl rfl rfl fun _ hb =>
      (hb.nextAfter hs.order (hbook.peer hfit) (next - 1)).of_eq rfl rfl rfl rfl rfl
  | accept src ae es hq hinp hterm hrole hprev =>
    refine .of_follower ⟨?_, ?_⟩ hrole
    · exact hs.order.log.appendLoop ae.entries (hmsg src _ hinp ae rfl)
        (RaftLog.contains_le hprev)
    · exact Nat.le_trans (Nat.le_of_eq (LogRep.appendLoop_base ae.entries s.log).1)
        hs.order.base
  | credit src aer hinp h₀ hrole hterm hok =>
    subst h₀ hinp
    obtain ⟨hp, hlast, -⟩ := hfit hrole hterm
    exact hs.frame rfl rfl rfl rfl fun _ hb => hb.creditSuccess hp hlast
  | backtrack src aer hinp h₀ hrole hterm hok =>
    subst h₀ hinp
    obtain ⟨hp, -, hc⟩ := hfit hrole hterm
    exact hs.frame rfl rfl rfl rfl fun _ hb => hb.backtrack hs.order hp (hc hok)
  | creditSnapshot src isr hinp h₀ hrole hterm =>
    subst h₀ hinp
    obtain ⟨hp, hlast, hi⟩ := hfit hrole hterm
    exact hs.frame rfl rfl rfl rfl fun _ hb => hb.creditSnapshot hp hi hlast
  | joinPeer e kv newId happ he hnew hid hrole ps nx mx hj =>
    exact hs.frame rfl rfl rfl rfl fun hl hb => hj ▸ hb.joinPeer hl
  | leavePeer e kv remId => exact hs.frame rfl rfl rfl rfl fun _ hb => hb.leavePeer remId
  | snapshot t es hq hthr hlt ht =>
    have hlast := RaftLog.lastIndex_setSnapshot t (RaftLog.termAt_le ht)
    refine ⟨⟨hs.order.log.setSnapshot _ _, ?_⟩, hs.down, fun hl =>
      (hs.books hl).of_eq rfl rfl rfl rfl hlast⟩
    exact RaftLog.setSnapshot_base_le t (Nat.le_trans hs.order.base (Nat.le_of_lt hlt))
  | adopt src is err hinp hlt hdec => exact (hrec.not_adopt hinp hdec).elim
  | install src is kv es hq hinp hterm hrole hlt =>
    refine .of_follower ⟨hs.order.log.setSnapshot _ _, ?_⟩ hrole
    exact RaftLog.setSnapshot_base_le _ (Nat.le_trans hs.order.base (Nat.le_of_lt hlt))
  | place cmd cb cfgPending es hq h₀ hinp hrun hrole =>
    exact ⟨⟨hs.order.log.append rfl, hs.order.base⟩, hs.down, fun hl =>
      (hs.books hl).place rfl rfl rfl rfl (RaftLog.lastIndex_append _ _)⟩
  | crash kv => exact .of_follower ⟨hs.order.log, hs.order.base⟩ rfl
  | crashFail => exact .of_follower ⟨hs.order.log, hs.order.base⟩ rfl
  | boot _ hinp h₀ hrun hboot =>
    obtain ⟨kv, rfl, -⟩ := hrec.booted h₀ hrun hboot
    exact .of_follower ⟨hs.order.log, hs.order.base⟩ (hs.down hrun)
  | _ => exact hs.frame rfl rfl rfl rfl fun _ hb => hb.of_eq rfl rfl rfl rfl rfl

end Moves

/-! ## Runs -/

namespace Cluster

variable {C : Cluster M}

/-- The reply that the event delivers fits the books. -/
def BooksFit (C : Cluster M) (e : Event) : Prop :=
  match C.input e with
  | some (n, inp) => (C.node n).FitsBooks inp
  | none => True

instance (C : Cluster M) (e : Event) : Decidable (C.BooksFit e) := by
  unfold BooksFit
  rcases C.input e with _ | ⟨n, inp⟩ <;> infer_instance

/-- Logs and books in order, and entries in flight that carry their own index. -/
def booksInvariant (M : Medium) : Invariant M Unit where
  le _ _ := True
  node _ _ s := s.Orderly
  packet _ p := NumberedMsg p.msg
  effect _ _ _ _ := True
  le_refl _ := trivial
  le_trans _ _ _ _ _ := trivial
  packet_mono _ _ _ _ h := h
  effect_mono _ _ _ _ _ _ h := h
  node_settle _ _ _ h _ := h.frame rfl rfl rfl rfl fun _ hb => hb.of_eq rfl rfl rfl rfl rfl

theorem books_exec {e : Event} (hC : C.Settled) (hd : C.Durable) (hs : C.Sized)
    (hfit : C.BooksFit e) (h : (booksInvariant M).Holds () C) :
    (booksInvariant M).Holds () (C.exec e) := by
  refine (Invariant.exec (e := e) hC h ?_ ?_).elim fun _ h' => h'.2
  · intro n inp s s' _ hinp hn _ _ hm hh
    have hs₀ : s.Orderly := by
      have := hh.node n hn
      rwa [set_node_self] at this
    have hfit' : (C.node n).FitsBooks inp := by
      unfold BooksFit at hfit
      rwa [hinp] at hfit
    have hs' := hm.orderly (hd.recoverable hs hinp hn) hfit'
      (fun src m hm => by
        subst hm
        obtain ⟨k, p, -, -, -, -, rfl, hp⟩ := hh.delivered hinp
        exact hp) hs₀
    refine ⟨(), .stay hs' (fun _ _ => trivial) fun d m hsent => ?_⟩
    rintro ae rfl
    cases hsent with
    | appendEntries d next prevTerm hpeer hrole hnext hsnap =>
      exact hs'.order.log.slice (Nat.le_trans hs'.order.base (Nat.le_sub_one_of_lt hsnap)) _
  · rintro src dst cr - ae hae
    exact nomatch hae

theorem books_run (r : Roster) (cfg : NodeId → RaftConfig) (es : List Event)
    (hs : ∀ es', es' <+: es → ((launch M r cfg).run es').Sized)
    (hfit : (launch M r cfg).Along BooksFit es) :
    (booksInvariant M).Holds () ((launch M r cfg).run es) := by
  have hC := settled_launch M r cfg
  refine (Invariant.run (I := booksInvariant M) (g := ()) ?_ es ?_).elim fun _ h => h.2
  · refine ⟨fun n _ => ?_, fun p hp => absurd (hC.inFlight_iff.mp hp) List.not_mem_nil,
      fun _ _ _ _ _ => trivial, fun _ _ h => h.elim⟩
    rw [launch_node]
    exact .of_follower ⟨Consecutive.nil _, Nat.le_refl _⟩ rfl
  · intro es' e hpre _ _ h
    have hpre' : es' <+: es := (List.prefix_append _ _).trans hpre
    exact ⟨(), trivial, books_exec (settled_run hC es')
      ((durable_launch M r cfg).run hC es' fun es'' h => hs es'' (h.trans hpre')) (hs es' hpre')
      (hfit.at hpre) h⟩

/-- **The books of every leader are in order.**  In a run in which every reply a leader acts on
comes from one of its peers and names an index of its log, `match_index_` and `next_index_` speak
of members only and of indices of the log, only members count towards a commit, and the arithmetic
of the next reply does not wrap. -/
theorem books_in_order (M : Medium) (r : Roster) (cfg : NodeId → RaftConfig) (es : List Event)
    (hs : ∀ es', es' <+: es → ((launch M r cfg).run es').Sized)
    (hfit : (launch M r cfg).Along BooksFit es) :
    ∀ n ∈ r.members, ∀ s, ((launch M r cfg).run es).node n = s → s.role = .leader →
      (∀ k v, s.matchIndex.find? k = some v →
        (k = s.id ∨ k ∈ s.peers) ∧ v ≤ s.log.lastIndex) ∧
      (∀ k v, s.nextIndex.find? k = some v → (k = s.id ∨ k ∈ s.peers) ∧ 1 ≤ v) ∧
      (∀ i, s.matchCount i ≤
        ((insert s.id s.peers.toFinset).filter fun p => i ≤ s.matchIndex.getD p 0).card) ∧
      (s.log.lastIndex < 2 ^ 64 - 1 → ∀ p ∈ s.peers,
        pred64 (s.nextIndex.getD p 0) + 1 = s.nextIndex.getD p 0 ∧
        s.creditSuccess p = { s with
          matchIndex := s.matchIndex.insert p
            (max (s.matchIndex.getD p 0) (s.nextIndex.getD p 0 - 1))
          nextIndex := s.nextIndex.insert p
            (max (s.matchIndex.getD p 0) (s.nextIndex.getD p 0 - 1) + 1) }) ∧
      (∀ t, s.log.lastIndexForTerm t ≤ s.log.lastIndex) := by
  rintro n hn s rfl hrole
  have ho := (books_run r cfg es hs hfit).node n (by rw [run_members]; exact hn)
  have hb := ho.books hrole
  refine ⟨hb.matched, hb.next.imp fun k v hk => ⟨hk.1, hk.2.1⟩, hb.matchCount_le,
    fun hlast p hp => ⟨?_, hb.creditSuccess_eq hp hlast⟩, ho.order.log.lastIndexForTerm_le⟩
  have h1 := (hb.peer hp).1
  rw [pred64, if_neg (by omega)]
  omega

/-- Node 3 answers node 1's first heartbeat, and is removed before the answer arrives. -/
def removingRun : List Event :=
  [.electionTimer 1 1, .deliver 0, .deliver 2, .deliver 4, .submit 1 0 0 (.removeServer 3),
    .deliver 6, .deliver 8]

theorem books_in_order_removed :
    (((launched [1, 2, 3]).run removingRun).node 1).matchCount 1 = 2 ∧
    (((launched [1, 2, 3]).run removingRun).node 1).matchCount 1 ≤
      (({1, 2} : Finset NodeId).filter fun p =>
        1 ≤ (((launched [1, 2, 3]).run removingRun).node 1).matchIndex.getD p 0).card := by
  have h := (books_in_order Medium.bytes (.ofList [1, 2, 3]) (fun _ => {}) removingRun
    (sized_of_fits (by decide +kernel)) (by decide +kernel) 1 (by decide) _ rfl
    (by decide +kernel)).2.2.1 1
  have hid : (((launched [1, 2, 3]).run removingRun).node 1).id = 1 := by decide +kernel
  have hpeers : (((launched [1, 2, 3]).run removingRun).node 1).peers = [2] := by decide +kernel
  rw [hid, hpeers] at h
  exact ⟨by decide +kernel, h⟩

/-- **A removed server counts.**  The answer of node 3 arrives after node 3 has been removed; its
match index is then the largest there is, its next index 0, and the next command that node 1 is
given is committed at once, although node 2, the only peer, does not have it. -/
theorem removed_server_counts :
    (((launched [1, 2, 3]).run removingRun).node 1).peers = [2] ∧
    (((launched [1, 2, 3]).run (removingRun ++ [Event.deliver 5])).node 1).role = .leader ∧
    (((launched [1, 2, 3]).run (removingRun ++ [Event.deliver 5])).node 1).peers = [2] ∧
    (((launched [1, 2, 3]).run (removingRun ++ [Event.deliver 5])).node 1).log.lastIndex = 1 ∧
    (((launched [1, 2, 3]).run (removingRun ++ [Event.deliver 5])).node 1).matchIndex.find? 3 =
      some (2 ^ 64 - 1) ∧
    (((launched [1, 2, 3]).run (removingRun ++ [Event.deliver 5])).node 1).nextIndex.find? 3 =
      some 0 ∧
    (((launched [1, 2, 3]).run (removingRun ++ [Event.deliver 5,
      .submit 1 0 0 (.put (Str.lit "k") (Str.lit "v"))])).node 1).commitIndex = 2 ∧
    (((launched [1, 2, 3]).run (removingRun ++ [Event.deliver 5,
      .submit 1 0 0 (.put (Str.lit "k") (Str.lit "v"))])).node 2).log.lastIndex = 1 := by
  decide +kernel

end Cluster

end SimKV
