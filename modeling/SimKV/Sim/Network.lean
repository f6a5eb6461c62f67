/-
# `sim/network.{hpp,cpp}`: who can reach whom

The state of the simulated network: the handlers, which say who is there to receive, the
probabilities of loss and duplication, and the partition.  A partition is an assignment
of groups to nodes; whoever is in no group reaches nobody.  What `send` does with it,
which draws and schedules, is a script of `SimKV.Harness.Runner`.
-/
import SimKV.Harness.FaultInjector
import SimKV.Lib.OrdMap
import SimKV.Raft.Types

namespace SimKV.Sim

/-- `handlers_`, the probabilities of `cfg_`, `partition_group_` and `partitioned_`; `F` is the
type of the handlers. -/
structure Network (F : Type) where
  probs : FaultInjector.NetworkConfig
  handlers : OrdMap NodeId F
  partitionGroup : OrdMap NodeId Nat
  partitioned : Bool

namespace Network

variable {F : Type}

def init (probs : FaultInjector.NetworkConfig) : Network F := ⟨probs, .empty, .empty, false⟩

def setHandler (id : NodeId) (fn : F) (net : Network F) : Network F :=
  { net with handlers := net.handlers.insert id fn }

def removeHandler (id : NodeId) (net : Network F) : Network F :=
  { net with handlers := net.handlers.erase id }

/-- The inner loop of `partition`. -/
def assignGroup (m : OrdMap NodeId Nat) (p : List NodeId × Nat) : OrdMap NodeId Nat :=
  p.1.foldl (fun m id => m.insert id p.2) m

/-- The loops of `partition`: a node that is listed twice gets the later group. -/
def assign (groups : List (List NodeId)) : OrdMap NodeId Nat :=
  groups.zipIdx.foldl assignGroup .empty

def partition (groups : List (List NodeId)) (net : Network F) : Network F :=
  { net with partitionGroup := assign groups, partitioned := true }

def heal (net : Network F) : Network F :=
  { net with partitionGroup := .empty, partitioned := false }

/-- `partitioned(from, to)`. -/
def cutOff (net : Network F) (src dst : NodeId) : Bool :=
  net.partitioned &&
    match net.partitionGroup.find? src, net.partitionGroup.find? dst with
    | some g, some g' => g != g'
    | _, _ => true

/-! ## Groups -/

theorem find?_assignGroup (m : OrdMap NodeId Nat) (ids : List NodeId) (g : Nat) (id : NodeId) :
    (assignGroup m (ids, g)).find? id = if id ∈ ids then some g else m.find? id := by
  induction ids generalizing m with
  | nil => simp [assignGroup]
  | cons a ids ih =>
    change (assignGroup (m.insert a g) (ids, g)).find? id = _
    rw [ih]
    by_cases ha : id = a
    · subst ha
      simp
    · rw [OrdMap.find?_insert_of_ne _ _ ha]
      simp [ha]

/-- Two groups: the second one is looked at first. -/
theorem find?_assign_two (g₀ g₁ : List NodeId) (id : NodeId) :
    (assign [g₀, g₁]).find? id = if id ∈ g₁ then some 1 else if id ∈ g₀ then some 0 else none := by
  change (assignGroup (assignGroup .empty (g₀, 0)) (g₁, 1)).find? id = _
  rw [find?_assignGroup, find?_assignGroup]
  rfl

/-- Whoever is in neither of two groups is cut off from everybody. -/
theorem cutOff_of_not_listed {g₀ g₁ : List NodeId} {net : Network F} {a b : NodeId}
    (h : a ∉ g₀ ++ g₁ ∨ b ∉ g₀ ++ g₁) : (net.partition [g₀, g₁]).cutOff a b = true := by
  have hnone : ∀ {c : NodeId}, c ∉ g₀ ++ g₁ → (assign [g₀, g₁]).find? c = none := by
    intro c hc
    rw [List.mem_append, not_or] at hc
    rw [find?_assign_two, if_neg hc.2, if_neg hc.1]
  unfold cutOff partition
  rcases h with h | h
  · simp [hnone h]
  · cases (assign [g₀, g₁]).find? a <;> simp [hnone h]

end Network

end SimKV.Sim
