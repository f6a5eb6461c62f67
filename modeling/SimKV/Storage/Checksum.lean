/-
# What the record checksum catches

`crc32c` is a feedback shift register of 32 bits (`crc32c_toBitVec`), and its polynomial
has the top bit.  So an alteration that stays within four consecutive bytes changes the
checksum, whatever surrounds it (`crc32c_ne_of_altered`), and `replay` stops in front of
a record whose payload was altered in this way (`replay_of_altered`).

`replay` first has to find the payload, though.  The length field has 32 bits and
`Wal::append` truncates: a record whose payload has `2 ^ 32` bytes or more is read as a
shorter one, and its checksum is looked for inside the payload.  A client can put it there
(`forgedValue`).
-/
import SimKV.Lib.ShiftRegister
import SimKV.Storage.Wal

namespace SimKV

open ByteCodec Frames ShiftRegister

/-! ## The checksum as a shift register -/

/-- The polynomial, reflected. -/
def crcPoly : BitVec 32 := 0x82F63B78#32

theorem crcBit_toBitVec (crc : UInt32) : (crcBit crc).toBitVec = shift crcPoly crc.toBitVec := by
  have hmask : (0 - (crc &&& 1)).toBitVec =
      if crc.toBitVec.getLsbD 0 then BitVec.allOnes 32 else 0#32 := by
    rw [UInt32.toBitVec_sub, UInt32.toBitVec_and, UInt32.toBitVec_one, UInt32.toBitVec_zero,
      BitVec.and_one_eq_setWidth_ofBool_getLsbD]
    cases crc.toBitVec.getLsbD 0 <;> rfl
  unfold crcBit shift
  rw [UInt32.toBitVec_xor, UInt32.toBitVec_shiftRight, UInt32.toBitVec_and, hmask]
  cases crc.toBitVec.getLsbD 0 <;> rfl

theorem crcByte_toBitVec (crc : UInt32) (b : UInt8) :
    (crcByte crc b).toBitVec = feed crcPoly crc.toBitVec b.toBitVec := by
  have hiter : ∀ (k : Nat) (x : UInt32),
      (crcBit^[k] x).toBitVec = (shift crcPoly)^[k] x.toBitVec := by
    intro k
    induction k with
    | zero => exact fun x => rfl
    | succ k ih =>
      intro x
      rw [Function.iterate_succ_apply, ih, crcBit_toBitVec]
      rfl
  rw [crcByte, hiter, UInt32.toBitVec_xor, UInt8.toBitVec_toUInt32]
  rfl

theorem crc32c_toBitVec (data : List UInt8) : (crc32c data).toBitVec =
    run crcPoly (BitVec.allOnes 32) (data.map UInt8.toBitVec) ^^^ BitVec.allOnes 32 := by
  have hrun : ∀ crc : UInt32, (data.foldl crcByte crc).toBitVec =
      run crcPoly crc.toBitVec (data.map UInt8.toBitVec) := by
    induction data with
    | nil => exact fun crc => rfl
    | cons b data ih =>
      intro crc
      rw [List.foldl_cons, ih, crcByte_toBitVec]
      rfl
  rw [crc32c, UInt32.toBitVec_xor, hrun]
  rfl

/-! ## Alterations -/

/-- `data'` is `data` with at least one bit changed, and all the changes inside four consecutive
bytes. -/
structure Altered (data data' : List UInt8) : Prop where
  length : data'.length = data.length
  ne : data' ≠ data
  window : ∃ k, ∀ i, i < k ∨ k + 4 ≤ i → data'[i]? = data[i]?

/-- The window, and what it stands between. -/
theorem Altered.split {data data' : List UInt8} (h : Altered data data') :
    ∃ pre mid mid' post, data = pre ++ mid ++ post ∧ data' = pre ++ mid' ++ post ∧
      mid.length = mid'.length ∧ mid.length ≤ 4 ∧ mid ≠ mid' := by
  obtain ⟨k, hk⟩ := h.window
  have hpre : data'.take k = data.take k := by
    refine List.ext_getElem? fun i => ?_
    rw [List.getElem?_take, List.getElem?_take]
    split
    · rename_i hi
      exact hk i (Or.inl hi)
    · rfl
  have hpost : data'.drop (k + 4) = data.drop (k + 4) := by
    refine List.ext_getElem? fun i => ?_
    rw [List.getElem?_drop, List.getElem?_drop]
    exact hk _ (Or.inr (Nat.le_add_right _ _))
  have hsplit : ∀ l : List UInt8, l = l.take k ++ (l.drop k).take 4 ++ l.drop (k + 4) := by
    intro l
    rw [List.append_assoc, ← List.drop_drop, List.take_append_drop, List.take_append_drop]
  refine ⟨data.take k, (data.drop k).take 4, (data'.drop k).take 4, data.drop (k + 4), hsplit data,
    ?_, ?_, ?_, ?_⟩
  · rw [← hpre, ← hpost]
    exact hsplit data'
  · rw [List.length_take, List.length_take, List.length_drop, List.length_drop, h.length]
  · exact List.length_take_le _ _
  · intro hmid
    apply h.ne
    rw [hsplit data', hsplit data, hpre, hpost, hmid]

/-- **An altered string has another checksum.** -/
theorem crc32c_ne_of_altered {data data' : List UInt8} (h : Altered data data') :
    crc32c data' ≠ crc32c data := by
  obtain ⟨pre, mid, mid', post, rfl, rfl, hlen, hfour, hne⟩ := h.split
  intro heq
  have hbits := congrArg UInt32.toBitVec heq
  rw [crc32c_toBitVec, crc32c_toBitVec, BitVec.xor_left_inj] at hbits
  simp only [List.map_append] at hbits
  refine run_ne_of_burst (by decide) _ (by simpa using hlen)
    (by rw [List.length_map]; omega) (fun hmid => hne ?_) hbits.symm
  exact List.map_injective_iff.mpr (fun _ _ => UInt8.toBitVec_inj.mp) hmid

/-! ## Altered records -/

namespace Wal

/-- The record of `cmd` with `payload` where its own payload was. -/
def recordWith (cmd : Command) (payload : List UInt8) : List UInt8 :=
  Encoder.u32 (encodeCommand cmd).length ++
    (payload ++ Encoder.u32 (crc32c (encodeCommand cmd)).toNat)

/-- Where the loop of `replay` finds a payload of 32-bit length, it checks it. -/
theorem nextRecord_recordWith {cmd : Command} {payload : List UInt8}
    (hlen : (encodeCommand cmd).length < 2 ^ 32) (h : payload.length = (encodeCommand cmd).length)
    (hcrc : crc32c payload ≠ crc32c (encodeCommand cmd)) (rest : List UInt8) :
    nextRecord (recordWith cmd payload ++ rest) = none := by
  have hfour : ∀ v : Nat, (Encoder.u32 v).length = 4 := fun v => by simp [Encoder.u32]
  have hhead : (recordWith cmd payload ++ rest).take 4 =
      Encoder.u32 (encodeCommand cmd).length := by
    rw [recordWith, List.append_assoc, List.take_left' (hfour _)]
  have htail : (recordWith cmd payload ++ rest).drop 4 =
      payload ++ (Encoder.u32 (crc32c (encodeCommand cmd)).toNat ++ rest) := by
    rw [recordWith, List.append_assoc, List.drop_left' (hfour _), List.append_assoc]
  have hval : leVal (Encoder.u32 (encodeCommand cmd).length) = payload.length := by
    rw [h, Encoder.u32, leVal_le_of_lt]
    exact hlen
  unfold nextRecord
  simp only [hhead, htail, hval, List.drop_left, List.take_left]
  rw [if_neg (by simp only [recordWith, List.length_append, hfour]; omega),
    if_neg (by simp only [List.length_append, hfour]; omega), List.take_left' (hfour _), leVal_crc,
    if_pos fun heq => hcrc (UInt32.toNat_inj.mp heq)]

/-- **`replay` stops in front of an altered record.** -/
theorem replay_of_altered {cmds : List Command} (hfit : ∀ c ∈ cmds, Fits c) {cmd : Command}
    {payload rest : List UInt8} (hlen : (encodeCommand cmd).length < 2 ^ 32)
    (h : Altered (encodeCommand cmd) payload) {store : DurableStore UInt8}
    (hstore : store.readDurable = cmds.flatMap record ++ (recordWith cmd payload ++ rest)) :
    replay store = cmds := by
  have hstop : records.scan (recordWith cmd payload ++ rest) = [] :=
    Scanner.scan_none (nextRecord_recordWith hlen h.length (crc32c_ne_of_altered h) rest)
  rw [replay, hstore, Scanner.scan_append fun c hc => (exact_record (hfit c hc)).whole, hstop,
    List.append_nil]

/-- **The checksum catches short corruptions**: an alteration within four consecutive bytes changes
it, at any length; and `replay` returns the commands in front of a record whose payload, of less
than `2 ^ 32` bytes, was altered so. -/
theorem checksum_catches_bursts :
    (∀ data data', Altered data data' → crc32c data' ≠ crc32c data) ∧
    ∀ (cmds : List Command) (cmd : Command) (payload rest : List UInt8)
      (store : DurableStore UInt8), (∀ c ∈ cmds, Fits c) →
      (encodeCommand cmd).length < 2 ^ 32 → Altered (encodeCommand cmd) payload →
      store.readDurable = cmds.flatMap record ++ (recordWith cmd payload ++ rest) →
      replay store = cmds :=
  ⟨fun _ _ h => crc32c_ne_of_altered h,
    fun _ _ _ _ _ hfit hlen h hstore => replay_of_altered hfit hlen h hstore⟩

/-- The second of two records, with the last byte of its payload changed. -/
theorem checksum_catches_bursts_two :
    replay (.holding ([Command.put (Str.lit "a") (Str.lit "1")].flatMap record ++
      (recordWith (.get (Str.lit "a")) [4, 1, 0, 0, 0, 98] ++ []))) =
      [.put (Str.lit "a") (Str.lit "1")] :=
  checksum_catches_bursts.2 [.put (Str.lit "a") (Str.lit "1")] (.get (Str.lit "a"))
    [4, 1, 0, 0, 0, 98] [] _
    (fun c hc => List.mem_singleton.mp hc ▸ ⟨by decide, by decide⟩) (by decide)
    ⟨by decide, by decide, 2, fun i hi => by
      rcases hi with hi | hi
      · have : i = 0 ∨ i = 1 := by omega
        rcases this with rfl | rfl <;> rfl
      · rw [List.getElem?_eq_none hi, List.getElem?_eq_none]
        exact hi⟩
    (DurableStore.readDurable_holding _)

/-! ## A record that is too long -/

/-- A value that begins with the checksum of a record it is not part of. -/
def forgedValue (pad : Nat) (last : UInt8) : Str :=
  ⟨Encoder.u32 (crc32c (encodeCommand (.put (Str.lit "k") (Str.lit "")))).toNat ++
    (List.replicate pad 0 ++ [last])⟩

theorem length_forgedValue (pad : Nat) (last : UInt8) :
    (forgedValue pad last).bytes.length = pad + 5 := by
  simp only [forgedValue, Encoder.u32, List.length_append, length_le, List.length_replicate,
    List.length_singleton]
  omega

/-- At `2 ^ 32` bytes the length of the value, truncated to 32 bits, is 0. -/
theorem encodeCommand_forged {pad : Nat} (h : pad + 5 = 2 ^ 32) (last : UInt8) :
    encodeCommand (.put (Str.lit "k") (forgedValue pad last)) =
      encodeCommand (.put (Str.lit "k") (Str.lit "")) ++ (forgedValue pad last).bytes := by
  have hzero : Encoder.u32 (2 ^ 32) = Encoder.u32 0 := by decide
  simp only [encodeCommand, Encoder.str, length_forgedValue, h, hzero, List.append_assoc]
  rfl

/-- The record begins with the one that was forged, whatever its last byte is. -/
theorem recordWith_forged {pad : Nat} (h : pad + 5 = 2 ^ 32) (last last' : UInt8) :
    ∃ rest, recordWith (.put (Str.lit "k") (forgedValue pad last))
        (encodeCommand (.put (Str.lit "k") (forgedValue pad last'))) =
      record (.put (Str.lit "k") (Str.lit "")) ++ rest := by
  have hten : Encoder.u32 (2 ^ 32 + 10) = Encoder.u32 10 := by decide
  have hlen : (encodeCommand (.put (Str.lit "k") (forgedValue pad last))).length = 2 ^ 32 + 10 := by
    rw [encodeCommand_forged h, List.length_append, length_forgedValue, h]
    rfl
  refine ⟨List.replicate pad 0 ++ [last'] ++ Encoder.u32 (crc32c (encodeCommand
    (.put (Str.lit "k") (forgedValue pad last)))).toNat, ?_⟩
  unfold recordWith record
  rw [hlen, hten, encodeCommand_forged h last', forgedValue]
  simp only [List.append_assoc]
  rfl

/-- Changing the last byte is an alteration. -/
theorem altered_forged {pad : Nat} (h : pad + 5 = 2 ^ 32) :
    Altered (encodeCommand (.put (Str.lit "k") (forgedValue pad 0)))
      (encodeCommand (.put (Str.lit "k") (forgedValue pad 1))) := by
  have hform : ∀ last, encodeCommand (.put (Str.lit "k") (forgedValue pad last)) =
      encodeCommand (.put (Str.lit "k") (Str.lit "")) ++
        (Encoder.u32 (crc32c (encodeCommand (.put (Str.lit "k") (Str.lit "")))).toNat ++
          List.replicate pad 0) ++ [last] := by
    intro last
    rw [encodeCommand_forged h, forgedValue]
    simp only [List.append_assoc]
  rw [hform, hform]
  generalize encodeCommand (.put (Str.lit "k") (Str.lit "")) ++
    (Encoder.u32 (crc32c (encodeCommand (.put (Str.lit "k") (Str.lit "")))).toNat ++
      List.replicate pad 0) = pre
  refine ⟨by simp, fun heq => ?_, pre.length, fun i hi => ?_⟩
  · exact absurd (List.append_cancel_left heq) (by decide)
  · rcases hi with hi | hi
    · rw [List.getElem?_append_left hi, List.getElem?_append_left hi]
    · rw [List.getElem?_eq_none (by simp; omega), List.getElem?_eq_none (by simp; omega)]

/-- **An altered record that is read**: its payload has `2 ^ 32 + 10` bytes, and `replay` takes the
first ten of them for a Put. -/
theorem oversize_record_replays :
    Altered (encodeCommand (.put (Str.lit "k") (forgedValue (2 ^ 32 - 5) 0)))
      (encodeCommand (.put (Str.lit "k") (forgedValue (2 ^ 32 - 5) 1))) ∧
    replay (.holding (recordWith (.put (Str.lit "k") (forgedValue (2 ^ 32 - 5) 0))
      (encodeCommand (.put (Str.lit "k") (forgedValue (2 ^ 32 - 5) 1))))) ≠ [] := by
  have hpad : 2 ^ 32 - 5 + 5 = 2 ^ 32 := by decide
  generalize 2 ^ 32 - 5 = pad at hpad ⊢
  refine ⟨altered_forged hpad, ?_⟩
  obtain ⟨rest, hrest⟩ := recordWith_forged hpad 0 1
  have hfit : Fits (.put (Str.lit "k") (Str.lit "")) := ⟨by decide, by decide⟩
  rw [hrest, replay, DurableStore.readDurable_holding,
    Scanner.scan_some (nextRecord_record hfit rest)]
  exact List.cons_ne_nil _ _

end Wal

end SimKV
