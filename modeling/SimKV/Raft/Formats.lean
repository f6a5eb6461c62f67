/-
# The byte formats read back what was written

`Medium.bytes` is the source's serial format.  Each of its four records, the meta
record, the log, the snapshot and the key-value map inside it, decodes to what it
was encoded from, as long as every number is within its machine word and every
length within its 32-bit length field.  `Node.Fits` collects these bounds for one
node; a cluster whose nodes and snapshots in flight fit is `Sized`, which is what
recovery asks for (`SimKV.Raft.Mirror`).

`crash_restart_restores` is the conclusion: whatever led to it, a crash and a
restart change nothing durable.
-/
import SimKV.Raft.Mirror

namespace SimKV

open ByteCodec

/-! ## Round trips -/

namespace Medium

theorem meta_reads {m : Meta} (ht : m.currentTerm < 2 ^ 64) (hv : ∀ v ∈ m.votedFor, v < 2 ^ 32) :
    Reads metaReader (metaBytes m) m := by
  obtain ⟨t, v⟩ := m
  refine (Encoder.u64_reads ht).bind ((Encoder.boolean_reads _).bind ?_)
  cases v with
  | none => exact Reads.pure _
  | some v =>
    exact Reads.bind_pure (f := fun v => Meta.mk t (some v)) (Encoder.u32_reads (hv v rfl))

/-- An entry within the widths of the log format. -/
structure EntryFits (e : LogEntry) : Prop where
  term : e.term < 2 ^ 64
  index : e.index < 2 ^ 64
  cmd : e.cmd.Fits
  cmdBytes : (Wal.encodeCommand e.cmd).length < 2 ^ 32

theorem entry_reads {e : LogEntry} (h : EntryFits e) : Reads entryReader (entryBytes e) e := by
  refine (Encoder.u64_reads h.term).bind ((Encoder.u64_reads h.index).bind ?_)
  rw [← List.append_nil (Encoder.blob _)]
  refine (Encoder.blob_reads h.cmdBytes).bind ?_
  rw [Wal.decodeCommand_encodeCommand h.cmd]
  exact Reads.pure e

theorem log_reads {l : RaftLog} (hi : l.baseIndex < 2 ^ 64) (ht : l.baseTerm < 2 ^ 64)
    (hn : l.entries.length < 2 ^ 32) (he : ∀ e ∈ l.entries, EntryFits e) :
    Reads logReader (logBytes l) l :=
  (Encoder.u64_reads hi).bind ((Encoder.u64_reads ht).bind ((Encoder.u32_reads hn).bind
    (Reads.bind_pure (f := fun es => RaftLog.mk es l.baseIndex l.baseTerm)
      (Reads.many fun e hmem => entry_reads (he e hmem)))))

theorem snap_reads {s : Snapshot (List UInt8)} (hi : s.lastIndex < 2 ^ 64)
    (ht : s.lastTerm < 2 ^ 64) (hd : s.data.length < 2 ^ 32) :
    Reads snapReader (snapBytes s) s :=
  (Encoder.u64_reads hi).bind ((Encoder.u64_reads ht).bind
    (Reads.bind_pure (f := fun d => Snapshot.mk s.lastIndex s.lastTerm d) (Encoder.blob_reads hd)))

/-- One key and its value. -/
def pairBytes (p : Str × Str) : List UInt8 := Encoder.str p.1 ++ Encoder.str p.2

theorem length_pairBytes (p : Str × Str) :
    (pairBytes p).length = 8 + p.1.bytes.length + p.2.bytes.length := by
  simp only [pairBytes, Encoder.str, Encoder.u32, List.length_append, length_le]
  omega

/-- The map's encoding bounds the number of keys and the length of each. -/
theorem length_kvBytes (kv : KvStore) : 4 + kv.data.size ≤ (kvBytes kv).length ∧
    ∀ p ∈ kv.data.toList,
      p.1.bytes.length ≤ (kvBytes kv).length ∧ p.2.bytes.length ≤ (kvBytes kv).length := by
  have hlen : (kvBytes kv).length = 4 + (kv.data.toList.flatMap pairBytes).length := by
    simp only [kvBytes, Encoder.u32, List.length_append, length_le]
    rfl
  have hall : ∀ l : List (Str × Str), l.length ≤ (l.flatMap pairBytes).length ∧
      ∀ p ∈ l, p.1.bytes.length ≤ (l.flatMap pairBytes).length ∧
        p.2.bytes.length ≤ (l.flatMap pairBytes).length := by
    intro l
    induction l with
    | nil => exact ⟨Nat.le_refl _, fun p hp => absurd hp List.not_mem_nil⟩
    | cons q l ih =>
      rw [List.flatMap_cons, List.length_append, length_pairBytes]
      refine ⟨by simp only [List.length_cons]; omega, fun p hp => ?_⟩
      rcases List.mem_cons.mp hp with rfl | hp
      · omega
      · have := ih.2 p hp
        omega
  rw [hlen]
  refine ⟨Nat.add_le_add_left (hall _).1 4, fun p hp => ?_⟩
  have := (hall _).2 p hp
  omega

theorem kv_reads {kv : KvStore} (h : (kvBytes kv).length < 2 ^ 32) :
    Reads kvReader (kvBytes kv) kv := by
  obtain ⟨hn, hp⟩ := length_kvBytes kv
  have hpair : ∀ p ∈ kv.data.toList, Reads (do
      let k ← Decoder.str
      let v ← Decoder.str
      pure (k, v)) (pairBytes p) p := fun p hmem =>
    (Encoder.str_reads (Nat.lt_of_le_of_lt (hp p hmem).1 h)).bind
      (Reads.bind_pure (f := fun v => (p.1, v))
        (Encoder.str_reads (Nat.lt_of_le_of_lt (hp p hmem).2 h)))
  have hmany := Reads.bind_pure (f := fun ps => KvStore.mk (OrdMap.ofList ps)) (Reads.many hpair)
  rw [OrdMap.ofList_toList] at hmany
  exact (Encoder.u32_reads (by omega)).bind hmany

/-! ## The widths of a node -/

theorem run_of_reads {α : Type} {d : Reader String α} {bs : List UInt8} {a : α}
    (h : Reads d bs a) : Decoder.run d bs = .ok a := by
  rw [Decoder.run, h.run_eq]

/-- Each of the three records begins with a number. -/
theorem u64_append_ne_nil (n : Nat) (bs : List UInt8) : Encoder.u64 n ++ bs ≠ [] :=
  List.append_ne_nil_of_left_ne_nil (List.ne_nil_of_length_pos (by simp [Encoder.u64])) bs

theorem bytes_decodeMeta (bs : List UInt8) :
    bytes.decodeMeta bs = Decoder.run metaReader bs := rfl

theorem bytes_decodeLog (bs : List UInt8) :
    bytes.decodeLog bs = Decoder.run logReader bs := rfl

theorem bytes_decodeSnap (bs : List UInt8) :
    bytes.decodeSnap bs = Decoder.run snapReader bs := rfl

theorem bytes_decodeKv (bs : List UInt8) : bytes.decodeKv bs = Decoder.run kvReader bs := rfl

theorem metaBytes_ne_nil (m : Meta) : metaBytes m ≠ [] := u64_append_ne_nil _ _

theorem logBytes_ne_nil (l : RaftLog) : logBytes l ≠ [] := u64_append_ne_nil _ _

theorem snapBytes_ne_nil (s : Snapshot (List UInt8)) : snapBytes s ≠ [] := u64_append_ne_nil _ _

/-- Snapshot data whose length fits its length field reads back. -/
theorem goodBlob_of_length {b : List UInt8} (h : b.length < 2 ^ 32) : bytes.GoodBlob b := by
  rintro kv rfl
  have hne : kvBytes kv ≠ [] :=
    List.ne_nil_of_length_pos (Nat.lt_of_lt_of_le (by omega) (length_kvBytes kv).1)
  exact ⟨List.isEmpty_eq_false_iff.mpr hne,
    (bytes_decodeKv _).trans (run_of_reads (kv_reads h))⟩

end Medium

instance : DecidablePred Medium.EntryFits := fun e =>
  decidable_of_iff (e.term < 2 ^ 64 ∧ e.index < 2 ^ 64 ∧ e.cmd.Fits ∧
      (Wal.encodeCommand e.cmd).length < 2 ^ 32)
    ⟨fun ⟨h1, h2, h3, h4⟩ => ⟨h1, h2, h3, h4⟩, fun h => ⟨h.term, h.index, h.cmd, h.cmdBytes⟩⟩

/-- Every number of the node's persistent state is within its machine word, and every length
within its length field. -/
structure Node.Fits (s : Node Medium.bytes) : Prop where
  term : s.currentTerm < 2 ^ 64
  vote : ∀ v ∈ s.votedFor, v < 2 ^ 32
  baseIndex : s.log.baseIndex < 2 ^ 64
  baseTerm : s.log.baseTerm < 2 ^ 64
  entryCount : s.log.entries.length < 2 ^ 32
  entry : ∀ e ∈ s.log.entries, Medium.EntryFits e
  snapIndex : s.snapLastIndex < 2 ^ 64
  snapTerm : s.snapLastTerm < 2 ^ 64
  snapData : (s.snapData : List UInt8).length < 2 ^ 32

instance : DecidablePred Node.Fits := fun s =>
  decidable_of_iff (s.currentTerm < 2 ^ 64 ∧ (∀ v ∈ s.votedFor, v < 2 ^ 32) ∧
      s.log.baseIndex < 2 ^ 64 ∧ s.log.baseTerm < 2 ^ 64 ∧ s.log.entries.length < 2 ^ 32 ∧
      (∀ e ∈ s.log.entries, Medium.EntryFits e) ∧ s.snapLastIndex < 2 ^ 64 ∧
      s.snapLastTerm < 2 ^ 64 ∧ (s.snapData : List UInt8).length < 2 ^ 32)
    ⟨fun ⟨h1, h2, h3, h4, h5, h6, h7, h8, h9⟩ => ⟨h1, h2, h3, h4, h5, h6, h7, h8, h9⟩,
      fun h => ⟨h.term, h.vote, h.baseIndex, h.baseTerm, h.entryCount, h.entry, h.snapIndex,
        h.snapTerm, h.snapData⟩⟩

namespace Node.Fits

variable {s : Node Medium.bytes}

theorem run_metaReader (h : s.Fits) :
    Decoder.run Medium.metaReader (Medium.metaBytes ⟨s.currentTerm, s.votedFor⟩) =
      .ok ⟨s.currentTerm, s.votedFor⟩ :=
  Medium.run_of_reads (Medium.meta_reads h.term h.vote)

theorem run_logReader (h : s.Fits) :
    Decoder.run Medium.logReader (Medium.logBytes s.log) = .ok s.log :=
  Medium.run_of_reads (Medium.log_reads h.baseIndex h.baseTerm h.entryCount h.entry)

theorem run_snapReader (h : s.Fits) :
    Decoder.run Medium.snapReader
      (Medium.snapBytes ⟨s.snapLastIndex, s.snapLastTerm, s.snapData⟩) =
      .ok ⟨s.snapLastIndex, s.snapLastTerm, s.snapData⟩ :=
  Medium.run_of_reads (Medium.snap_reads h.snapIndex h.snapTerm h.snapData)

theorem sized (h : s.Fits) : NodeSized s where
  metaRec := ⟨Medium.metaBytes_ne_nil _, (Medium.bytes_decodeMeta _).trans h.run_metaReader⟩
  logRec := ⟨Medium.logBytes_ne_nil _, (Medium.bytes_decodeLog _).trans h.run_logReader⟩
  snapRec := ⟨Medium.snapBytes_ne_nil _, (Medium.bytes_decodeSnap _).trans h.run_snapReader⟩
  blob := Medium.goodBlob_of_length h.snapData

end Node.Fits

/-- A snapshot in a message fits its length field. -/
def Msg.DataFits : Msg Medium.bytes.Blob → Prop
  | .installSnapshot is => (is.data : List UInt8).length < 2 ^ 32
  | _ => True

instance : DecidablePred Msg.DataFits := fun m =>
  match m with
  | .installSnapshot is => inferInstanceAs (Decidable ((is.data : List UInt8).length < 2 ^ 32))
  | .requestVote _ | .requestVoteReply _ | .appendEntries _ | .appendEntriesReply _
  | .clientRequest _ | .clientReply _ | .installSnapshotReply _ | .readIndexRequest _
  | .readIndexReply _ => inferInstanceAs (Decidable True)

namespace Cluster

/-- Every node fits its formats, and so does every snapshot in flight. -/
structure Fits (C : Cluster Medium.bytes) : Prop where
  node : ∀ n ∈ C.members, (C.node n).Fits
  data : ∀ p ∈ C.net, Msg.DataFits p.msg

instance : DecidablePred Fits := fun C =>
  decidable_of_iff ((∀ n ∈ C.members, (C.node n).Fits) ∧ ∀ p ∈ C.net, Msg.DataFits p.msg)
    ⟨fun ⟨h1, h2⟩ => ⟨h1, h2⟩, fun h => ⟨h.node, h.data⟩⟩

theorem Fits.sized {C : Cluster Medium.bytes} (h : C.Fits) : C.Sized where
  node n hn := (h.node n hn).sized
  data p hp is his := by
    have hd := h.data p hp
    rw [his] at hd
    exact Medium.goodBlob_of_length hd

/-- A run whose states fit their formats. -/
theorem sized_of_fits {C : Cluster Medium.bytes} {es : List Event}
    (h : ∀ es' ∈ es.inits, (C.run es').Fits) : ∀ es', es' <+: es → (C.run es').Sized :=
  fun es' hpre => (h es' ((List.mem_inits _ _).mpr hpre)).sized

/-- A cluster of these ids on the byte formats, in the default configuration. -/
abbrev ofIds (ids : List NodeId) : Cluster Medium.bytes :=
  init Medium.bytes (.ofList ids) fun _ => {}

end Cluster

/-! ## Crash and restart -/

/-- The flushed contents of the three stores decode to the node's persistent state; a store that
holds nothing stands for the state of a new node. -/
structure StoresDecode (s : Node Medium.bytes) : Prop where
  metaRec : (s.metaStore.durableSize = 0 ∧ s.currentTerm = 0 ∧ s.votedFor = none) ∨
    Decoder.run Medium.metaReader s.metaStore.readDurable = .ok ⟨s.currentTerm, s.votedFor⟩
  logRec : (s.logStore.durableSize = 0 ∧ s.log = .empty) ∨
    Decoder.run Medium.logReader s.logStore.readDurable = .ok s.log
  snapRec : (s.snapshotStore.durableSize = 0 ∧ s.snapLastIndex = 0 ∧ s.snapLastTerm = 0 ∧
      s.snapData = Medium.bytes.noBlob) ∨
    Decoder.run Medium.snapReader s.snapshotStore.readDurable =
      .ok ⟨s.snapLastIndex, s.snapLastTerm, s.snapData⟩

/-- `s'` has the persistent state of `s` and, for the rest, starts from its snapshot. -/
structure Restored (s s' : Node Medium.bytes) : Prop where
  running : s'.running = true
  currentTerm : s'.currentTerm = s.currentTerm
  votedFor : s'.votedFor = s.votedFor
  log : s'.log = s.log
  snapLastIndex : s'.snapLastIndex = s.snapLastIndex
  snapLastTerm : s'.snapLastTerm = s.snapLastTerm
  snapData : s'.snapData = s.snapData
  commitIndex : s'.commitIndex = s.snapLastIndex
  lastApplied : s'.lastApplied = s.snapLastIndex
  kv : (s.snapData = Medium.bytes.noBlob ∧ s.snapLastIndex = 0 ∧ s'.kv = .empty) ∨
    s.snapData = Medium.kvBytes s'.kv

theorem Restored.settle {s s' : Node Medium.bytes} (h : Restored s s') :
    Restored s { s' with out := [], applying := none } :=
  ⟨h.running, h.currentTerm, h.votedFor, h.log, h.snapLastIndex, h.snapLastTerm, h.snapData,
    h.commitIndex, h.lastApplied, h.kv⟩

/-- A store that is new, or holds an encoding, is empty or decodes. -/
theorem decodes_of_holding {α : Type} {st : DurableStore UInt8} {new : Prop}
    {d : Reader String α} {bs : List UInt8} {a : α} (h : (st = .empty ∧ new) ∨ st = .holding bs)
    (hd : Decoder.run d bs = .ok a) :
    (st.durableSize = 0 ∧ new) ∨ Decoder.run d st.readDurable = .ok a := by
  rcases h with ⟨rfl, hnew⟩ | rfl
  · exact Or.inl ⟨rfl, hnew⟩
  · rw [DurableStore.readDurable_holding]
    exact Or.inr hd

theorem Mirror.storesDecode {s : Node Medium.bytes} (h : Mirror s) (hf : s.Fits) :
    StoresDecode s where
  metaRec := decodes_of_holding h.metaRec hf.run_metaReader
  logRec := decodes_of_holding h.logRec hf.run_logReader
  snapRec := decodes_of_holding (h.snapRec.imp_right And.left) hf.run_snapReader

/-- A node that is down, restarted. -/
theorem Recoverable.restored {s : Node Medium.bytes} (h : Recoverable s .restart)
    (hrun : s.running = false) (t : Nat) : Restored s (s.handle t .restart) := by
  obtain ⟨kv, tm, prs, es, hr, hkv⟩ := h.restart hrun t
  rw [hr]
  exact ⟨rfl, rfl, rfl, rfl, rfl, rfl, rfl, (h.down hrun).1, (h.down hrun).2, hkv⟩

/-- A node that runs, crashed and restarted. -/
theorem Recoverable.crash_restored {s : Node Medium.bytes} (h : Recoverable s .crash)
    (hi : s.Rested) (hrun : s.running = true) (t t' : Nat) :
    Restored s (({ s.handle t .crash with out := [], applying := none } : Node _).handle t'
      .restart) := by
  obtain ⟨kv, es, hc⟩ := h.crash hrun t
  have hm : Mirror (s.handle t .crash) := by
    have := s.handle_moves t .crash hi
    exact Moves.mirror this.1 h h.mirror
  rw [hc] at hm ⊢
  have hrec : Recoverable ({ s.stop with
      kv := kv, pendingClients := .empty, pendingReads := [], out := [], applying := none } :
      Node Medium.bytes) .restart :=
    ⟨⟨h.sized.metaRec, h.sized.logRec, h.sized.snapRec, h.sized.blob⟩, fun _ => ⟨rfl, rfl⟩,
      hm.of_eq rfl rfl rfl rfl rfl rfl rfl rfl rfl, fun _ _ h => absurd h (by simp)⟩
  have hr := hrec.restored rfl t'
  exact ⟨hr.running, hr.currentTerm, hr.votedFor, hr.log, hr.snapLastIndex, hr.snapLastTerm,
    hr.snapData, hr.commitIndex, hr.lastApplied, hr.kv⟩

namespace Cluster

/-- **Restart restores the durable state.**  After any run whose states fit their formats, the
stores of every node decode to its persistent state, and a crash and a restart give a node
with the same persistent state, at its snapshot. -/
theorem crash_restart_restores (mem : Membership) (cfg : NodeId → RaftConfig) (es : List Event)
    (n : NodeId) (hn : n ∈ mem.members)
    (hfits : ∀ es', es' <+: es → ((init Medium.bytes mem cfg).run es').Fits) :
    StoresDecode (((init Medium.bytes mem cfg).run es).node n) ∧
    Restored (((init Medium.bytes mem cfg).run es).node n)
      (((init Medium.bytes mem cfg).run (es ++ [Event.crash n, .restart n])).node n) := by
  have hC := settled_run (settled_init Medium.bytes mem cfg) es
  have hd := (durable_init Medium.bytes mem cfg).run (settled_init _ _ _) es
    fun es' h => (hfits es' h).sized
  have hmem : n ∈ ((init Medium.bytes mem cfg).run es).members := by rw [run_members]; exact hn
  have hf := (hfits es List.prefix_rfl).node n hmem
  rw [run_append]
  generalize (init Medium.bytes mem cfg).run es = C at hC hd hmem hf
  refine ⟨(hd.mirror n hmem).storesDecode hf, ?_⟩
  have hrec : ∀ inp, inp = .crash ∨ inp = .restart → Recoverable (C.node n) inp := by
    rintro inp hinp
    exact ⟨hf.sized, hd.down n hmem, hd.mirror n hmem, by rintro src is rfl; simp at hinp⟩
  change Restored (C.node n) (((C.exec (.crash n)).exec (.restart n)).node n)
  rw [exec_node rfl (by rw [exec_members]; exact hmem), exec_node rfl hmem]
  cases hrun : (C.node n).running with
  | true => exact ((hrec _ (Or.inl rfl)).crash_restored (hC n).2 hrun _ _).settle
  | false =>
    -- a crash of a node that is down changes nothing
    have hs : ({ (C.node n).handle C.now .crash with out := [], applying := none } : Node _) =
        C.node n := by
      rw [Node.handle, if_neg (by simp [hrun]), ← (hC n).1, ← (hC n).2.1]
    rw [hs]
    exact ((hrec _ (Or.inr rfl)).restored hrun _).settle

/-- A one-node cluster that has elected its node and committed a write. -/
theorem crash_restart_restores_single :
    Restored (((init Medium.bytes (.ofList [1]) fun _ => {}).run
        [.electionTimer 1 1, .submit 1 0 0 (.put (Str.lit "k") (Str.lit "v"))]).node 1)
      (((init Medium.bytes (.ofList [1]) fun _ => {}).run
        [.electionTimer 1 1, .submit 1 0 0 (.put (Str.lit "k") (Str.lit "v")), .crash 1,
          .restart 1]).node 1) := by
  refine (crash_restart_restores (.ofList [1]) (fun _ => {})
    [.electionTimer 1 1, .submit 1 0 0 (.put (Str.lit "k") (Str.lit "v"))] 1 (by decide) ?_).2
  intro es' h
  rw [← List.mem_inits] at h
  revert es'
  decide +kernel

end Cluster

end SimKV
