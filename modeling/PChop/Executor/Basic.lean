import PChop.PrefixTree
import Mathlib.Data.List.Sort

/-!
# The executor of one node

`klee::Executor` (`lib/Core/Executor.{h,cpp}`) as far as forking, recovery, scheduling and
load balancing use it. States live in an arena: the executor's `heap` maps a pointer, the
model of an `ExecutionState*`, to the state, `newState` is `new ExecutionState(...)` and
`deleteState` is `delete`. The `std::set` of live states is a sorted list, the searcher is the
vector of `DFSSearcher`, and the per-step buffers (`addedStates`, `removedStates`,
`suspendedStates`, `resumedStates`, `rangingSuspendedStates`) are lists. A function that
sends MPI messages returns them beside the executor.

The process tree (`PTree.cpp`) and the copy made by `ExecutionState::branch`
(`ExecutionState.cpp`) are not in the sources and are modelled from the spec.
-/

namespace PChop

/-- The tags of the MPI messages between the master and a worker. -/
inductive Tag where
  | START_PREFIX_TASK | KILL | FINISH | OFFLOAD | OFFLOAD_RESP | BUG_FOUND | TIMEOUT
  | READY_TO_OFFLOAD | NOT_READY_TO_OFFLOAD
  deriving DecidableEq, Repr

/-- An MPI message a node sends: its tag and its characters. -/
abbrev Message := Tag × List Char

/-- `Executor::TerminateReason`. -/
inductive TerminateReason where
  | Abort | Assert | Exec | External | Free | Model | Overflow | Ptr | ReadOnly | ReportError
  | User | Unhandled
  deriving DecidableEq, Repr

/-- The options the modelled functions read: command-line options of `Executor.cpp`
(`MaxForks` is `none` for its default `~0u`) and fields of `InterpreterOptions`. -/
structure Options where
  coreId : Nat
  MaxForks : Option Nat := none
  MaxMemoryInhibit : Bool := true
  inhibitForking : Bool := false
  StopAfterNInstructions : Nat := 0
  MaxMemory : Nat := 2000
  enableLB : Bool := false
  enableBranchHalt : Bool := false
  explorationDepth : Nat := 0
  ExitOnErrorType : List TerminateReason := []
  maxErrorCount : Nat := 0
  EmitAllErrors : Bool := false
  errorLocations : List (String × List Nat) := []

/-- Modelled from the spec (`PTree.cpp` is not in the sources): the process tree, kept as its
leaves, each a node and the state it carries. -/
structure PTree where
  leaves : List (Nat × Nat)
  nextNode : Nat

namespace PTree

/-- Modelled from the spec: `split(leaf, a, b)` replaces the leaf by an interior node whose two
new leaves carry `a` and `b`, and returns the two leaves. -/
def split (t : PTree) (node : Nat) (a b : Nat) : PTree × Nat × Nat :=
  ({ leaves := t.leaves.filter (·.1 != node) ++ [(t.nextNode, a), (t.nextNode + 1, b)],
     nextNode := t.nextNode + 2 }, t.nextNode, t.nextNode + 1)

/-- Modelled from the spec: `remove(leaf)` removes the leaf; the interior nodes it leaves
without children carry no state. -/
def remove (t : PTree) (node : Nat) : PTree :=
  { t with leaves := t.leaves.filter (·.1 != node) }

end PTree

/-- A node's executor. -/
structure Executor where
  opts : Options
  heap : Nat → Option ExecutionState
  nextId : Nat
  states : List Nat
  searcher : List Nat
  addedStates : List Nat := []
  removedStates : List Nat := []
  suspendedStates : List Nat := []
  resumedStates : List Nat := []
  rangingSuspendedStates : List Nat := []
  prefixSuspendedStatesMap : List (List Char × Nat) := []
  prefixTree : PrefixTree := PrefixTree.empty
  processTree : PTree
  upperBound : List Char
  prefixDepth : Nat
  branchLevel2Halt : Nat := 0
  haltExecution : Bool := false
  haltFromMaster : Bool := false
  atMemoryLimit : Bool := false
  ready2Offload : Bool := false
  forks : Nat := 0
  instructions : Nat := 0
  errorCount : Nat := 0
  errorLocations : List (String × List Nat) := []
  emittedErrors : List (Nat × String) := []
  cntNumStates2Offload : Nat := 0

/-- `DFSSearcher::update`: append the added states, then remove each removed state, by
`pop_back` when it is the last one and at its first position otherwise. `none` is the failed
assertion `ok && "invalid state removed"`. -/
def dfsUpdate (v added removed : List Nat) : Option (List Nat) :=
  removed.foldlM (fun v es =>
    if v.getLast? = some es then some v.dropLast
    else if es ∈ v then some (v.erase es) else none) (v ++ added)

/-- What every step of a fold in `Option` keeps, the whole fold keeps. -/
theorem foldlM_invariant {α β : Type} {f : α → β → Option α} (P : α → Prop)
    (hf : ∀ a b a', f a b = some a' → P a → P a') :
    ∀ (l : List β) (a a' : α), l.foldlM f a = some a' → P a → P a'
  | [], _, _, h, hp => by cases h; exact hp
  | b :: l, a, a', h, hp => by
    obtain ⟨a₁, h₁, h⟩ := Option.bind_eq_some.mp h
    exact foldlM_invariant P hf l a₁ a' h (hf a b a₁ h₁ hp)

/-- `std::set::insert` on the sorted set of states. -/
def insertState (l : List Nat) (id : Nat) : List Nat :=
  if id ∈ l then l else l.orderedInsert (· ≤ ·) id

namespace Executor

variable (e : Executor)

/-! ## The arena -/

/-- Replace the state at a pointer. -/
def setState (id : Nat) (s : ExecutionState) : Executor :=
  { e with heap := Function.update e.heap id (some s) }

/-- Apply a field update to the state at a pointer. -/
def modifyState (id : Nat) (f : ExecutionState → ExecutionState) : Executor :=
  match e.heap id with
  | some s => e.setState id (f s)
  | none => e

/-- `new ExecutionState(s)`. -/
def newState (s : ExecutionState) : Executor × Nat :=
  ({ e with heap := Function.update e.heap e.nextId (some s), nextId := e.nextId + 1 }, e.nextId)

/-- `delete`. -/
def deleteState (id : Nat) : Executor := { e with heap := Function.update e.heap id none }

/-- Modelled from the spec: `ExecutionState::branch` (`ExecutionState.cpp` is not in the
sources) returns a new copy of the state. -/
def branchState (id : Nat) : Option (Executor × Nat) :=
  (e.heap id).map e.newState

/-- `processTree->split(leaf, a, b)` with `a->ptreeNode` and `b->ptreeNode` set to the two new
leaves. -/
def splitNode (node : Nat) (a b : Nat) : Executor :=
  let r := e.processTree.split node a b
  (({ e with processTree := r.1 }).modifyState a fun s => { s with ptreeNode := r.2.1 }).modifyState
    b fun s => { s with ptreeNode := r.2.2 }

@[simp] theorem setState_heap (id : Nat) (s : ExecutionState) (j : Nat) :
    (e.setState id s).heap j = if j = id then some s else e.heap j := by
  simp [setState, Function.update_apply]

theorem modifyState_heap (id : Nat) (f : ExecutionState → ExecutionState) (j : Nat) :
    (e.modifyState id f).heap j = if j = id then (e.heap id).map f else e.heap j := by
  unfold modifyState
  split
  · simp_all [setState, Function.update_apply]
  · by_cases hj : j = id <;> simp_all

/-- `modifyState` only rewrites the heap. -/
theorem modifyState_eq (id : Nat) (f : ExecutionState → ExecutionState) :
    e.modifyState id f = { e with heap := fun j => if j = id then (e.heap id).map f else e.heap j } := by
  have hheap : (fun j => if j = id then (e.heap id).map f else e.heap j) =
      (e.modifyState id f).heap := by
    funext j; rw [modifyState_heap]
  rw [hheap]
  unfold modifyState setState
  split <;> rfl

@[simp] theorem newState_heap (s : ExecutionState) (j : Nat) :
    (e.newState s).1.heap j = if j = e.nextId then some s else e.heap j := by
  simp [newState, Function.update_apply]

@[simp] theorem newState_snd (s : ExecutionState) : (e.newState s).2 = e.nextId := rfl

@[simp] theorem deleteState_heap (id j : Nat) :
    (e.deleteState id).heap j = if j = id then none else e.heap j := by
  simp [deleteState, Function.update_apply]

end Executor

end PChop
