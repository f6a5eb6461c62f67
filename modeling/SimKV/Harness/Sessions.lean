/-
# The books the clients keep

`issue_op`, `on_reply` and `on_timeout` of all clients run in whatever order the
simulator brings them, and a reply may be any reply: a second copy, one to an earlier
request, one that was never asked for.  A `Session` is the workload and the clock
under such events.

The counters and the history are tied together by which clients wait.  The clients
that wait own the pending entries, one each (`Session.Books`); every event starts an
operation of a client that does not wait, ends the one of a client that does, or does
nothing (`Session.Stepped`).  So no entry is returned twice, and the operations of a
client follow one another.  A `Harness` is a session whose replies come from a
cluster (`Harness.run_session`).
-/
import SimKV.Harness.Outcomes

namespace SimKV

/-! ## Sessions -/

structure Session where
  workload : Workload
  now : Nat

inductive SessionEvent (B : Type) where
  | issue (ci : Nat) (kind : OpKind) (key value expected : Str)
  | reply (ci : Nat) (m : Msg B)
  | timeout (ci : Nat)
  /-- Time passes. -/
  | tick (d : Nat)

namespace Workload

/-- The clients that wait. -/
def waiters (w : Workload) : Finset Nat :=
  (Finset.range w.cfg.numClients).filter fun ci => (w.clients ci).waiting = true

end Workload

namespace Session

variable {B : Type}

def init (cfg : WorkloadConfig) (nodes : List NodeId) : Session := ⟨.init cfg nodes, 0⟩

/-- A handler of client `ci` runs; there is none for other numbers. -/
def onClient (ci : Nat) (w : Workload) (s : Session) : Session :=
  if ci < s.workload.cfg.numClients then { s with workload := w } else s

def exec (s : Session) : SessionEvent B → Session
  | .issue ci kind key value expected =>
    s.onClient ci (s.workload.issueOp s.now ci kind key value expected).1
  | .reply ci m => s.onClient ci (s.workload.onReply s.now ci m)
  | .timeout ci => s.onClient ci (s.workload.onTimeout s.now ci)
  | .tick d => { s with now := s.now + d }

def run (s : Session) (es : List (SessionEvent B)) : Session := es.foldl exec s

/-- The handle with which an event calls `record_return`. -/
def returnCall (s : Session) : SessionEvent B → Option Nat
  | .reply ci (.clientReply reply) =>
    if ci < s.workload.cfg.numClients ∧ (s.workload.clients ci).waiting = true ∧
        reply.requestId = pred64 (s.workload.clients ci).nextRequestId then
      some (s.workload.clients ci).historyHandle
    else none
  | .timeout ci =>
    if ci < s.workload.cfg.numClients ∧ (s.workload.clients ci).waiting = true then
      some (s.workload.clients ci).historyHandle
    else none
  | _ => none

/-- The calls of `record_return` along a run. -/
def returnCalls (s : Session) : List (SessionEvent B) → List Nat
  | [] => []
  | e :: es => (s.returnCall e).toList ++ (s.exec e).returnCalls es

/-! ## What an event does -/

/-- The three things an event can be to the workload. -/
inductive Stepped (s : Session) : Option Nat → Session → Prop
  | still (d : Nat) : Stepped s none { s with now := s.now + d }
  | invoked (ci : Nat) (kind : OpKind) (key val exp : Str) (hci : ci < s.workload.cfg.numClients)
      (hidle : (s.workload.clients ci).waiting = false)
      (hroom : s.workload.opsIssued < s.workload.cfg.totalOps) :
      Stepped s none { s with workload := s.workload.register s.now ci kind key val exp }
  | returned (ci : Nat) (ok : Bool) (response : Str) (leader : NodeId)
      (hci : ci < s.workload.cfg.numClients) (hw : (s.workload.clients ci).waiting = true) :
      Stepped s (some (s.workload.clients ci).historyHandle)
        { s with workload := s.workload.complete s.now ci ok response leader }

variable {s : Session}

theorem Stepped.same (s : Session) : Stepped s none s := .still 0

theorem issue_stepped (ci : Nat) (kind : OpKind) (key value expected : Str)
    (hci : ci < s.workload.cfg.numClients) :
    s.Stepped none
      { s with workload := (s.workload.issueOp s.now ci kind key value expected).1 } := by
  unfold Workload.issueOp
  split
  · exact .same s
  · rename_i hroom
    split
    · exact .same s
    · rename_i hidle
      exact .invoked ci kind key _ _ hci (Bool.eq_false_iff.mpr hidle) (Nat.not_le.mp hroom)

/-- The reply that a client waits for is recorded, whatever it says. -/
theorem accept_stepped (h : s.workload.Tracked) (ci : Nat) (reply : ClientReply)
    (hci : ci < s.workload.cfg.numClients) (hw : (s.workload.clients ci).waiting = true) :
    s.Stepped (some (s.workload.clients ci).historyHandle)
      { s with workload := s.workload.acceptReply s.now ci reply } := by
  obtain ⟨x, hx, -⟩ := h.pending ci hw
  unfold Workload.acceptReply
  simp only [hx]
  split
  · exact .returned ci _ _ _ hci hw
  · exact .returned ci _ _ _ hci hw

theorem onClient_of_lt {ci : Nat} {w : Workload} (h : ci < s.workload.cfg.numClients) :
    s.onClient ci w = { s with workload := w } := if_pos h

theorem onClient_of_not_lt {ci : Nat} {w : Workload} (h : ¬ ci < s.workload.cfg.numClients) :
    s.onClient ci w = s := if_neg h

/-- A handler that runs, or is that of no client. -/
theorem onClient_stepped {ci : Nat} {w : Workload} {c : Option Nat}
    (hout : ¬ ci < s.workload.cfg.numClients → c = none)
    (h : ci < s.workload.cfg.numClients → s.Stepped c { s with workload := w }) :
    s.Stepped c (s.onClient ci w) := by
  by_cases hci : ci < s.workload.cfg.numClients
  · rw [onClient_of_lt hci]
    exact h hci
  · rw [onClient_of_not_lt hci, hout hci]
    exact .same s

theorem exec_stepped (h : s.workload.Tracked) (e : SessionEvent B) :
    s.Stepped (s.returnCall e) (s.exec e) := by
  cases e with
  | issue ci kind key value expected =>
    exact onClient_stepped (fun _ => rfl) (issue_stepped ci kind key value expected)
  | reply ci m =>
    refine onClient_stepped (fun hci => ?_) fun hci => ?_
    · cases m <;> simp [returnCall, hci]
    · unfold Workload.onReply
      cases hw : (s.workload.clients ci).waiting with
      | false => cases m <;> simpa [returnCall, hw] using Stepped.same s
      | true =>
        cases m with
        | clientReply reply =>
          by_cases hid : reply.requestId = pred64 (s.workload.clients ci).nextRequestId
          · simpa [returnCall, hci, hw, hid] using accept_stepped h ci reply hci hw
          · simpa [returnCall, hid] using Stepped.same s
        | _ => simpa [returnCall] using Stepped.same s
  | timeout ci =>
    refine onClient_stepped (fun hci => by simp [returnCall, hci]) fun hci => ?_
    unfold Workload.onTimeout
    cases hw : (s.workload.clients ci).waiting with
    | false => simpa [returnCall, hw] using Stepped.same s
    | true => simpa [returnCall, hci, hw] using Stepped.returned ci _ _ _ hci hw
  | tick d => exact .still d

end Session

/-! ## The books -/

/-- The operations of each client follow one another: one is recorded when the one before has
returned. -/
def History.Sequential (h : History) : Prop :=
  ∀ (i j : Nat) (a b : HistoryEntry), i < j → h.entries[i]? = some a → h.entries[j]? = some b →
    a.clientId = b.clientId → a.pending = false ∧ a.ret ≤ b.invoke

namespace Workload

variable {w : Workload}

theorem mem_waiters {ci : Nat} :
    ci ∈ w.waiters ↔ ci < w.cfg.numClients ∧ (w.clients ci).waiting = true := by
  unfold waiters
  rw [Finset.mem_filter, Finset.mem_range]

theorem waiters_register {ci : Nat} (hci : ci < w.cfg.numClients) (now : Nat) (kind : OpKind)
    (key val exp : Str) :
    (w.register now ci kind key val exp).waiters = insert ci w.waiters := by
  ext cj
  rw [Finset.mem_insert, mem_waiters, mem_waiters]
  by_cases hj : cj = ci
  · subst hj
    simp [register, hci]
  · rw [register_client_of_ne hj]
    simp [register, hj]

theorem complete_client_of_ne {ci cj : Nat} (h : cj ≠ ci) (now : Nat) (ok : Bool) (r : Str)
    (leader : NodeId) : (w.complete now ci ok r leader).clients cj = w.clients cj :=
  Function.update_of_ne h _ _

theorem complete_idle (now ci : Nat) (ok : Bool) (r : Str) (leader : NodeId) :
    ((w.complete now ci ok r leader).clients ci).waiting = false := by
  simp [complete]

theorem waiters_complete (now ci : Nat) (ok : Bool) (r : Str) (leader : NodeId) :
    (w.complete now ci ok r leader).waiters = w.waiters.erase ci := by
  ext cj
  rw [Finset.mem_erase, mem_waiters, mem_waiters]
  by_cases hj : cj = ci
  · subst hj
    simp [complete_idle]
  · rw [complete_client_of_ne hj]
    simp [complete, hj]

end Workload

namespace Session

/-- What ties the counters, the clients and the history together. -/
structure Books (s : Session) : Prop where
  tracked : s.workload.Tracked
  client : ∀ ci, (s.workload.clients ci).waiting = true → ci < s.workload.cfg.numClients
  /-- The entry of a client that waits carries its id. -/
  owner : ∀ ci x, (s.workload.clients ci).waiting = true →
    s.workload.history.entries[(s.workload.clients ci).historyHandle]? = some x →
      x.clientId = kClientIdBase + ci
  /-- A pending entry is that of a client that waits. -/
  owned : ∀ i x, s.workload.history.entries[i]? = some x → x.pending = true →
    ∃ ci, (s.workload.clients ci).waiting = true ∧ (s.workload.clients ci).historyHandle = i
  pending_eq : s.workload.pending = s.workload.waiters.card
  issued_eq : s.workload.opsIssued = s.workload.opsCompleted + s.workload.pending
  issued_le : s.workload.opsIssued ≤ s.workload.cfg.totalOps
  times : ∀ x ∈ s.workload.history.entries, x.invoke ≤ s.now ∧
    (x.pending = false → x.invoke ≤ x.ret ∧ x.ret ≤ s.now)
  apart : s.workload.history.Sequential

variable {B : Type} {s s' : Session}

theorem books_init (cfg : WorkloadConfig) (nodes : List NodeId) : (init cfg nodes).Books where
  tracked := Workload.tracked_init cfg nodes
  client ci h := absurd h (by simp [init, Workload.init])
  owner ci x h := absurd h (by simp [init, Workload.init])
  owned i x h := by simp [init, Workload.init, History.empty] at h
  pending_eq := by simp [init, Workload.init, Workload.waiters]
  issued_eq := rfl
  issued_le := Nat.zero_le _
  times x h := nomatch h
  apart i j a b hij ha := by simp [init, Workload.init, History.empty] at ha

theorem Books.later (h : s.Books) (d : Nat) : ({ s with now := s.now + d } : Session).Books where
  tracked := h.tracked
  client := h.client
  owner := h.owner
  owned := h.owned
  pending_eq := h.pending_eq
  issued_eq := h.issued_eq
  issued_le := h.issued_le
  times x hx := by
    obtain ⟨h₁, h₂⟩ := h.times x hx
    exact ⟨Nat.le_add_right_of_le h₁, fun hp => ⟨(h₂ hp).1, Nat.le_add_right_of_le (h₂ hp).2⟩⟩
  apart := h.apart

/-- A client that does not wait has no pending entry. -/
theorem Books.returned_of_idle (h : s.Books) {ci i : Nat} {x : HistoryEntry}
    (hidle : (s.workload.clients ci).waiting = false)
    (hx : s.workload.history.entries[i]? = some x) (hid : x.clientId = kClientIdBase + ci) :
    x.pending = false := by
  by_contra hp
  obtain ⟨cj, hw, hj⟩ := h.owned i x hx (by simpa using hp)
  subst hj
  have hcj : cj = ci := by
    have := h.owner cj x hw hx
    omega
  rw [hcj, hidle] at hw
  exact nomatch hw

theorem Books.register (h : s.Books) {ci : Nat} (kind : OpKind) (key val exp : Str)
    (hci : ci < s.workload.cfg.numClients) (hidle : (s.workload.clients ci).waiting = false)
    (hroom : s.workload.opsIssued < s.workload.cfg.totalOps) :
    ({ s with workload := s.workload.register s.now ci kind key val exp } : Session).Books := by
  let x₀ : HistoryEntry := ⟨kClientIdBase + ci, (s.workload.clients ci).nextRequestId, kind, key,
    val, exp, s.now, 0, Str.lit "", false, true⟩
  have hentries : (s.workload.register s.now ci kind key val exp).history.entries =
      s.workload.history.entries ++ [x₀] := rfl
  -- an entry is an old one, or the new one, which is the last
  have hcases : ∀ {i x}, (s.workload.history.entries ++ [x₀])[i]? = some x →
      s.workload.history.entries[i]? = some x ∨
        (i = s.workload.history.entries.length ∧ x = x₀) := by
    intro i x hx
    by_cases hi : i < s.workload.history.entries.length
    · rw [List.getElem?_append_left hi] at hx
      exact Or.inl hx
    · rw [List.getElem?_append_right (Nat.le_of_not_lt hi), List.getElem?_singleton] at hx
      split at hx
      · exact Or.inr ⟨by omega, (Option.some.inj hx).symm⟩
      · cases hx
  have hlt : ∀ {i x}, s.workload.history.entries[i]? = some x →
      i < s.workload.history.entries.length := fun hx => (List.getElem?_eq_some_iff.mp hx).1
  refine ⟨(h.tracked.register s.now ci kind key val exp).1, fun cj hcj => ?_,
    fun cj x hcj hx => ?_, fun i x hx hp => ?_, ?_, ?_, hroom, fun x hx => ?_,
    fun i j a b hij ha hb hid => ?_⟩
  · by_cases hj : cj = ci
    · rw [hj]
      exact hci
    · simp only [Workload.register_client_of_ne hj] at hcj
      exact h.client cj hcj
  · rw [hentries] at hx
    by_cases hj : cj = ci
    · subst hj
      simp only [Workload.register_handle] at hx
      rcases hcases hx with hx | ⟨-, rfl⟩
      · exact absurd (hlt hx) (Nat.lt_irrefl _)
      · rfl
    · simp only [Workload.register_client_of_ne hj] at hcj hx
      obtain ⟨y, hy, -⟩ := h.tracked.pending cj hcj
      rw [List.getElem?_append_left (hlt hy)] at hx
      exact h.owner cj x hcj hx
  · rw [hentries] at hx
    rcases hcases hx with hx | ⟨rfl, rfl⟩
    · obtain ⟨cj, hcj, hh⟩ := h.owned i x hx hp
      have hj : cj ≠ ci := by
        rintro rfl
        rw [hidle] at hcj
        cases hcj
      refine ⟨cj, ?_, ?_⟩
      · simp only [Workload.register_client_of_ne hj, hcj]
      · simp only [Workload.register_client_of_ne hj, hh]
    · exact ⟨ci, by simp [Workload.register], Workload.register_handle ..⟩
  · have hnot : ci ∉ s.workload.waiters := by
      rw [Workload.mem_waiters, hidle]
      rintro ⟨-, ⟨⟩⟩
    simp only [Workload.waiters_register hci, Finset.card_insert_of_notMem hnot]
    exact congrArg (· + 1) h.pending_eq
  · have := h.issued_eq
    simp only [Workload.register]
    omega
  · rw [hentries] at hx
    rcases List.mem_append.mp hx with hx | hx
    · exact h.times x hx
    · cases List.mem_singleton.mp hx
      exact ⟨Nat.le_refl _, by rintro ⟨⟩⟩
  · rw [hentries] at ha hb
    rcases hcases ha with ha | ⟨rfl, -⟩
    · rcases hcases hb with hb | ⟨-, rfl⟩
      · exact h.apart i j a b hij ha hb hid
      · have hp := h.returned_of_idle hidle ha hid
        exact ⟨hp, ((h.times a (List.mem_of_getElem? ha)).2 hp).2⟩
    · rcases hcases hb with hb | ⟨rfl, -⟩
      · have := hlt hb
        omega
      · omega

theorem Books.complete (h : s.Books) {ci : Nat} (ok : Bool) (response : Str) (leader : NodeId)
    (hw : (s.workload.clients ci).waiting = true) :
    ({ s with workload := s.workload.complete s.now ci ok response leader } : Session).Books := by
  obtain ⟨x₀, hx₀, hp₀⟩ := h.tracked.pending ci hw
  -- an entry is an old one of another client, or the one that is returned
  have hcases : ∀ {i x}, (s.workload.complete s.now ci ok response leader).history.entries[i]? =
      some x → (s.workload.history.entries[i]? = some x ∧
          i ≠ (s.workload.clients ci).historyHandle) ∨
        (i = (s.workload.clients ci).historyHandle ∧ x = x₀.answered s.now ok response) := by
    intro i x hx
    by_cases hi : i = (s.workload.clients ci).historyHandle
    · subst hi
      have hself := History.recordReturn_self s.now ok response hx₀
      exact Or.inr ⟨rfl, Option.some.inj (hx.symm.trans hself)⟩
    · have hother := History.recordReturn_of_ne (h := s.workload.history) s.now ok response
        (Ne.symm hi)
      exact Or.inl ⟨hother.symm.trans hx, hi⟩
  have hone : ci ∈ s.workload.waiters := Workload.mem_waiters.mpr ⟨h.client ci hw, hw⟩
  have hpos : 0 < s.workload.pending := by
    rw [h.pending_eq]
    exact Finset.card_pos.mpr ⟨ci, hone⟩
  have hpred : pred64 s.workload.pending = s.workload.pending - 1 := if_neg (by omega)
  have hother : ∀ cj, ((s.workload.complete s.now ci ok response leader).clients cj).waiting =
      true → cj ≠ ci := by
    rintro cj hcj rfl
    rw [Workload.complete_idle] at hcj
    exact nomatch hcj
  refine ⟨(h.tracked.complete hw s.now ok response leader).1, fun cj hcj => ?_,
    fun cj x hcj hx => ?_, fun i x hx hp => ?_, ?_, ?_, h.issued_le, fun x hx => ?_,
    fun i j a b hij ha hb hid => ?_⟩
  · have hj := hother cj hcj
    simp only [Workload.complete_client_of_ne hj] at hcj
    exact h.client cj hcj
  · have hj := hother cj hcj
    simp only [Workload.complete_client_of_ne hj] at hcj hx
    rcases hcases hx with ⟨hx, -⟩ | ⟨hh, -⟩
    · exact h.owner cj x hcj hx
    · exact absurd (h.tracked.unique cj ci hcj hw hh) hj
  · rcases hcases hx with ⟨hx, hi⟩ | ⟨-, rfl⟩
    · obtain ⟨cj, hcj, hh⟩ := h.owned i x hx hp
      have hj : cj ≠ ci := by
        rintro rfl
        exact hi hh.symm
      refine ⟨cj, ?_, ?_⟩
      · simp only [Workload.complete_client_of_ne hj, hcj]
      · simp only [Workload.complete_client_of_ne hj, hh]
    · exact nomatch hp
  · simp only [Workload.waiters_complete, Finset.card_erase_of_mem hone, ← h.pending_eq]
    exact hpred
  · have := h.issued_eq
    simp only [Workload.complete, hpred]
    omega
  · obtain ⟨i, hi⟩ := List.getElem?_of_mem hx
    rcases hcases hi with ⟨hi, -⟩ | ⟨-, rfl⟩
    · exact h.times x (List.mem_of_getElem? hi)
    · have hle := (h.times x₀ (List.mem_of_getElem? hx₀)).1
      exact ⟨hle, fun _ => ⟨hle, Nat.le_refl _⟩⟩
  · rcases hcases ha with ⟨ha, -⟩ | ⟨rfl, rfl⟩
    · rcases hcases hb with ⟨hb, -⟩ | ⟨rfl, rfl⟩
      · exact h.apart i j a b hij ha hb hid
      · exact h.apart i _ a x₀ hij ha hx₀ hid
    · rcases hcases hb with ⟨hb, -⟩ | ⟨rfl, -⟩
      -- nothing of a client comes after its pending entry
      · rw [(h.apart _ j x₀ b hij hx₀ hb hid).1] at hp₀
        exact nomatch hp₀
      · omega

theorem Books.stepped {c : Option Nat} (h : s.Books) (hs : s.Stepped c s') : s'.Books := by
  cases hs with
  | still d => exact h.later d
  | invoked ci kind key val exp hci hidle hroom => exact h.register kind key val exp hci hidle hroom
  | returned ci ok response leader hci hw => exact h.complete ok response leader hw

theorem Books.run (h : s.Books) (es : List (SessionEvent B)) : (s.run es).Books := by
  induction es generalizing s with
  | nil => exact h
  | cons e es ih => exact ih (h.stepped (exec_stepped h.tracked e))

/-! ## Returns -/

theorem Stepped.keeps {c : Option Nat} (h : s.Books) (hs : s.Stepped c s') :
    s.workload.Keeps s'.workload := by
  cases hs with
  | still d => exact fun _ _ hx _ => hx
  | invoked ci kind key val exp hci hidle hroom =>
    exact (h.tracked.register s.now ci kind key val exp).2
  | returned ci ok response leader hci hw =>
    exact (h.tracked.complete hw s.now ok response leader).2

/-- What the calls of `record_return` that an event makes are: one of a pending entry, with
`pending_` not 0, or none, and then the entries there are stay. -/
def ReturnsPending (s : Session) (e : SessionEvent B) : Prop :=
  match s.returnCall e with
  | some handle => 0 < s.workload.pending ∧
      (∃ x, s.workload.history.entries[handle]? = some x ∧ x.pending = true) ∧
      ∃ ok response, (s.exec e).workload.history =
        s.workload.history.recordReturn handle s.now ok response
  | none => ∀ (i : Nat) (x : HistoryEntry), s.workload.history.entries[i]? = some x →
      (s.exec e).workload.history.entries[i]? = some x

theorem Books.returnsPending (h : s.Books) (e : SessionEvent B) : s.ReturnsPending e := by
  unfold ReturnsPending
  have hs := exec_stepped h.tracked e
  revert hs
  generalize s.returnCall e = c, s.exec e = s'
  intro hs
  cases hs with
  | still d => exact fun _ _ hx => hx
  | invoked ci kind key val exp hci hidle hroom =>
    intro i x hx
    exact (List.getElem?_append_left (List.getElem?_eq_some_iff.mp hx).1).trans hx
  | returned ci ok response leader hci hw =>
    refine ⟨?_, h.tracked.pending ci hw, ok, response, rfl⟩
    rw [h.pending_eq]
    exact Finset.card_pos.mpr ⟨ci, Workload.mem_waiters.mpr ⟨hci, hw⟩⟩

/-- No entry that has returned is returned again. -/
theorem Books.pending_of_returnCalls (h : s.Books) {es : List (SessionEvent B)} {i : Nat}
    {x : HistoryEntry} (hi : i ∈ s.returnCalls es)
    (hx : s.workload.history.entries[i]? = some x) : x.pending = true := by
  induction es generalizing s with
  | nil => exact nomatch hi
  | cons e es ih =>
    have hs := exec_stepped h.tracked e
    by_contra hp
    rcases List.mem_append.mp hi with hcall | hrest
    · have hret := h.returnsPending e
      unfold ReturnsPending at hret
      rw [Option.mem_toList.mp hcall] at hret
      obtain ⟨-, ⟨y, hy, hyp⟩, -⟩ := hret
      rw [hx, Option.some.injEq] at hy
      rw [hy] at hp
      exact hp hyp
    · exact hp (ih (h.stepped hs) hrest (hs.keeps h i x hx (by simpa using hp)))

theorem Books.nodup_returnCalls (h : s.Books) (es : List (SessionEvent B)) :
    (s.returnCalls es).Nodup := by
  induction es generalizing s with
  | nil => exact List.nodup_nil
  | cons e es ih =>
    have hs := exec_stepped h.tracked e
    have hrest := ih (h.stepped hs)
    have hret := h.returnsPending e
    unfold ReturnsPending at hret
    rw [returnCalls]
    cases hc : s.returnCall e with
    | none => exact hrest
    | some handle =>
      rw [hc] at hret
      obtain ⟨-, ⟨x, hx, -⟩, ok, response, hhist⟩ := hret
      refine List.nodup_cons.mpr ⟨fun hmem => ?_, hrest⟩
      have hx' := History.recordReturn_self s.now ok response hx
      rw [← hhist] at hx'
      exact nomatch (h.stepped hs).pending_of_returnCalls hmem hx'

/-- What is promised of the counters and of the history. -/
structure WellFormed (s : Session) : Prop where
  pending_eq : s.workload.pending = s.workload.waiters.card
  issued_eq : s.workload.opsIssued = s.workload.opsCompleted + s.workload.pending
  issued_le : s.workload.opsIssued ≤ s.workload.cfg.totalOps
  returned : ∀ x ∈ s.workload.history.entries, x.pending = false → x.invoke ≤ x.ret
  sequential : s.workload.history.Sequential

theorem Books.wellFormed (h : s.Books) : s.WellFormed :=
  ⟨h.pending_eq, h.issued_eq, h.issued_le, fun x hx hp => ((h.times x hx).2 hp).1, h.apart⟩

/-- **Histories are well formed**, in every state that any order of operations, replies of any
content and timeouts leads to; and `record_return` is called once at most for each entry. -/
theorem histories_well_formed (B : Type) (cfg : WorkloadConfig) (nodes : List NodeId)
    (es : List (SessionEvent B)) :
    ((init cfg nodes).run es).WellFormed ∧
      (∀ e : SessionEvent B, ((init cfg nodes).run es).ReturnsPending e) ∧
      ((init cfg nodes).returnCalls es).Nodup := by
  have h₀ := books_init cfg nodes
  have h := h₀.run es
  exact ⟨h.wellFormed, h.returnsPending, h₀.nodup_returnCalls es⟩

end Session

/-! ## The clients of a cluster -/

namespace Harness

variable {M : Medium}

/-- What a harness is to its clients. -/
def session (H : Harness M) : Session := ⟨H.workload, H.now⟩

/-- What an event of the harness is to its clients. -/
def sessionEvent (H : Harness M) : HarnessEvent → SessionEvent M.Blob
  | .cluster _ => .tick 0
  | .issue ci kind key value expected => .issue ci kind key value expected
  | .reply ci k =>
    match H.replyTo ci k with
    | some p => .reply ci p.msg
    | none => .tick 0
  | .timeout ci => .timeout ci
  | .tick d => .tick d

theorem session_onClient (H : Harness M) (ci : Nat) (w : Workload) :
    (if ci < H.workload.cfg.numClients then { H with workload := w } else H).session =
      H.session.onClient ci w :=
  apply_ite session _ _ _

theorem exec_session (H : Harness M) (e : HarnessEvent) :
    (H.exec e).session = H.session.exec (H.sessionEvent e) := by
  cases e with
  | cluster e => rfl
  | issue ci kind key value expected =>
    rw [sessionEvent, Session.exec]
    by_cases hci : ci < H.session.workload.cfg.numClients
    · rw [Session.onClient_of_lt hci, exec, if_pos (show ci < H.workload.cfg.numClients from hci)]
      split
      · rename_i w dst cr heq
        simp only [session, heq]
      · rename_i w heq
        simp only [session, heq]
    · rw [Session.onClient_of_not_lt hci, exec,
        if_neg (show ¬ ci < H.workload.cfg.numClients from hci)]
  | reply ci k =>
    simp only [exec, sessionEvent]
    cases H.replyTo ci k with
    | none => rfl
    | some p =>
      exact H.session_onClient ci _
  | timeout ci => exact H.session_onClient ci _
  | tick d => rfl

/-- Every run of a harness is a session of its clients. -/
theorem run_session (H : Harness M) (es : List HarnessEvent) :
    ∃ es' : List (SessionEvent M.Blob), (H.run es).session = H.session.run es' := by
  induction es generalizing H with
  | nil => exact ⟨[], rfl⟩
  | cons e es ih =>
    obtain ⟨es', h⟩ := ih (H.exec e)
    rw [exec_session] at h
    exact ⟨H.sessionEvent e :: es', h⟩

/-- The history that the checker is given is well formed, whatever the cluster does. -/
theorem wellFormed_run (M : Medium) (mem : Membership) (cfg : NodeId → RaftConfig)
    (wcfg : WorkloadConfig) (nodes : List NodeId) (es : List HarnessEvent) :
    ((init M mem cfg wcfg nodes).run es).session.WellFormed := by
  obtain ⟨es', h⟩ := (init M mem cfg wcfg nodes).run_session es
  rw [h]
  exact ((Session.books_init wcfg nodes).run es').wellFormed

end Harness

end SimKV
