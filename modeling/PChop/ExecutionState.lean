import Mathlib.Data.List.Basic

/-!
# Execution states

The fields of `klee::ExecutionState` (`include/klee/ExecutionState.h`) that the executor's
forking, recovery and load-balancing code reads or writes, and the member functions of the
header on them:

* the state type bits (`isNormalState`, `isRecoveryState`) and the suspend flag;
* the path condition (`addConstraint`, which also records guiding constraints);
* test-prefix ranging (`shallIRange`, `branchToTake`, `removeFalsePrefixes`,
  `removeTruePrefixes`, `addPrefix`, `clearPrefixes`);
* the summary of overwritten addresses (`addWrittenAddress`, `getWrittenAddressInfo`,
  `getStartingIndex`) and the recovery cache (`updateRecoveredValue`, `getRecoveredValue`).

A pointer to a state is a number, its index in the executor's arena. Memory is a flat map from
addresses to byte values. Maps of the source (`std::map`, `std::set`) are functions, so
that updates and lookups compute.
-/

namespace PChop

/-- Symbolic expressions, as far as the model needs them: branch conditions and their
negation, `Expr::createIsZero`. -/
inductive Expr where
  | cond (id : Nat)
  | createIsZero (e : Expr)
  deriving DecidableEq, Repr

/-- The bit of `ExecutionState::type` for a normal state. -/
def NORMAL_STATE : Nat := 1

/-- The bit of `ExecutionState::type` for a recovery state. -/
def RECOVERY_STATE : Nat := 2

/-- `struct Snapshot`: the snapshot state and the skipped function. -/
structure Snapshot where
  state : Nat
  f : Nat
  deriving DecidableEq, Repr

/-- `struct RecoveryInfo`: one slice to re-execute for a blocking load. -/
structure RecoveryInfo where
  loadAddr : Nat
  loadSize : Nat
  f : Nat
  sliceId : Nat
  snapshot : Snapshot
  snapshotIndex : Nat
  deriving DecidableEq, Repr

/-- `struct WrittenAddressInfo`. A map entry created by `operator[]` is zero-initialised. -/
structure WrittenAddressInfo where
  maxSize : Nat := 0
  snapshotIndex : Nat := 0
  deriving DecidableEq, Repr

/-- A recovered value of the recovery cache: `none` is the null expression the cache holds for
a slice that is pending or did not write the address. -/
abbrev RecoveredValue := Option (List Nat)

/-- The fields of `ExecutionState` that the modelled functions use. -/
structure ExecutionState where
  type : Nat := NORMAL_STATE
  suspendStatus : Bool := false
  snapshots : List Snapshot := []
  recoveryState : Option Nat := none
  blockingLoadStatus : Bool := true
  recoveredLoads : Nat → Bool := fun _ => false
  guidingConstraints : List Expr := []
  writtenAddresses : Nat → Option WrittenAddressInfo := fun _ => none
  pendingRecoveryInfos : List RecoveryInfo := []
  recoveryCache : Nat × Nat → Nat → Option RecoveredValue := fun _ _ => none
  dependentState : Option Nat := none
  originatingState : Option Nat := none
  recoveryInfo : Option RecoveryInfo := none
  level : Nat := 0
  depth : Nat := 0
  actDepth : Nat := 0
  prefixes : List (List Char × Nat) := []
  branchHist : List Char := []
  constraints : List Expr := []
  forkDisabled : Bool := false
  ptreeNode : Nat := 0
  addressSpace : Nat → Nat := fun _ => 0

namespace ExecutionState

variable (s : ExecutionState)

/-! ## Type bits -/

def isNormalState : Bool := s.type &&& NORMAL_STATE != 0

def isRecoveryState : Bool := s.type &&& RECOVERY_STATE != 0

def isSuspended : Bool := s.suspendStatus

@[simp] theorem isNormalState_normal (s : ExecutionState) :
    isNormalState { s with type := NORMAL_STATE } = true := by
  simp [isNormalState, NORMAL_STATE]

@[simp] theorem isRecoveryState_normal (s : ExecutionState) :
    isRecoveryState { s with type := NORMAL_STATE } = false := by
  simp [isRecoveryState, NORMAL_STATE, RECOVERY_STATE]

@[simp] theorem isNormalState_recovery (s : ExecutionState) :
    isNormalState { s with type := RECOVERY_STATE } = false := by
  simp [isNormalState, NORMAL_STATE, RECOVERY_STATE]

@[simp] theorem isRecoveryState_recovery (s : ExecutionState) :
    isRecoveryState { s with type := RECOVERY_STATE } = true := by
  simp [isRecoveryState, RECOVERY_STATE]

@[simp] theorem isNormalState_normalRecovery (s : ExecutionState) :
    isNormalState { s with type := NORMAL_STATE ||| RECOVERY_STATE } = true := by
  simp [isNormalState, NORMAL_STATE, RECOVERY_STATE]

@[simp] theorem isRecoveryState_normalRecovery (s : ExecutionState) :
    isRecoveryState { s with type := NORMAL_STATE ||| RECOVERY_STATE } = true := by
  simp [isRecoveryState, NORMAL_STATE, RECOVERY_STATE]

/-! ## Path condition -/

/-- `ExecutionState::addGuidingConstraint`: insertion into the set of guiding constraints. -/
def addGuidingConstraint (e : Expr) : ExecutionState :=
  { s with guidingConstraints :=
      if e ∈ s.guidingConstraints then s.guidingConstraints else s.guidingConstraints ++ [e] }

/-- `ExecutionState::addConstraint`: a normal state that is not a recovery state and has
taken a snapshot also records the constraint as a guiding constraint. -/
def addConstraint (e : Expr) : ExecutionState :=
  let s' := { s with constraints := s.constraints ++ [e] }
  if s.isNormalState && !s.isRecoveryState && !s.snapshots.isEmpty then
    s'.addGuidingConstraint e
  else s'

@[simp] theorem addConstraint_constraints (e : Expr) :
    (s.addConstraint e).constraints = s.constraints ++ [e] := by
  unfold addConstraint; split <;> rfl

/-! ## Test-prefix ranging

A prefix is a `char*` buffer with its length. Reading a buffer at an index past its end is
undefined in the source; the model reads the NUL character there. -/

/-- `prefix[i]`. -/
def charAt (p : List Char) (i : Nat) : Char := p.getD i (Char.ofNat 0)

/-- `ExecutionState::shallIRange`: some prefix is longer than the depth. -/
def shallIRange : Bool := s.prefixes.any fun p => decide (s.depth < p.2)

/-- The answer of `ExecutionState::branchToTake`: the direction (`0` true, `1` false, `2`
fork) and the `forkAndSuspend` flag. `none` is a failed assertion
`depth < prefixes[0].second`. The source falls off the end of the function when the first
prefix holds a character outside `0123`; the model answers a fork there. -/
def branchToTake : Option (Nat × Bool) :=
  match s.prefixes with
  | [] => none
  | p₀ :: ps =>
    if s.depth < p₀.2 then
      let c := charAt p₀.1 s.depth
      if ps.any fun p => charAt p.1 s.depth != c then some (2, false)
      else if c = '0' then some (0, true)
      else if c = '1' then some (1, true)
      else if c = '2' then some (0, false)
      else if c = '3' then some (1, false)
      else some (2, false)
    else none

/-- `ExecutionState::removeFalsePrefixes`: drops the prefixes with `1` at the depth (both
branches of the source, for one prefix and for several, do this). -/
def removeFalsePrefixes : ExecutionState :=
  { s with prefixes := s.prefixes.filter fun p => charAt p.1 s.depth != '1' }

/-- `ExecutionState::removeTruePrefixes`: drops the prefixes with `0` at the depth. -/
def removeTruePrefixes : ExecutionState :=
  { s with prefixes := s.prefixes.filter fun p => charAt p.1 s.depth != '0' }

/-- The prefix characters `removeFalsePrefixes` and `removeTruePrefixes` read,
`prefixes[i].first[depth]` of every prefix, each as the length of the prefix and the index
read. -/
def removePrefixesReads : List (Nat × Nat) := s.prefixes.map fun p => (p.2, s.depth)

/-- `ExecutionState::addPrefix`. -/
def addPrefix (p : List Char) (length : Nat) : ExecutionState :=
  { s with prefixes := s.prefixes ++ [(p, length)] }

/-- `ExecutionState::clearPrefixes`. -/
def clearPrefixes : ExecutionState := { s with prefixes := [] }

/-! ## Written addresses and the recovery cache -/

/-- `ExecutionState::addWrittenAddress`: the entry of an address keeps the largest size ever
written and the latest snapshot index. -/
def addWrittenAddress (address size snapshotIndex : Nat) : ExecutionState :=
  let info := (s.writtenAddresses address).getD {}
  let info' : WrittenAddressInfo :=
    { maxSize := if size > info.maxSize then size else info.maxSize, snapshotIndex }
  { s with writtenAddresses := Function.update s.writtenAddresses address (some info') }

/-- `ExecutionState::getWrittenAddressInfo`: the entry of the address, if any, and whether it
is a complete overwrite of `loadSize` bytes. -/
def getWrittenAddressInfo (address loadSize : Nat) : Option (WrittenAddressInfo × Bool) :=
  (s.writtenAddresses address).map fun info => (info, decide (info.maxSize ≥ loadSize))

/-- `ExecutionState::getStartingIndex`: the first snapshot not affected by a complete
overwrite. -/
def getStartingIndex (address size : Nat) : Nat :=
  match s.getWrittenAddressInfo address size with
  | some (info, true) => info.snapshotIndex + 1
  | _ => 0

/-- `ExecutionState::getCurrentSnapshotIndex`. -/
def getCurrentSnapshotIndex : Nat := s.snapshots.length - 1

/-- `ExecutionState::updateRecoveredValue`. -/
def updateRecoveredValue (index sliceId address : Nat) (v : RecoveredValue) :
    ExecutionState :=
  { s with recoveryCache := fun key a =>
      if key = (index, sliceId) ∧ a = address then some v else s.recoveryCache key a }

/-- `ExecutionState::getRecoveredValue`. -/
def getRecoveredValue (index sliceId address : Nat) : Option RecoveredValue :=
  s.recoveryCache (index, sliceId) address

end ExecutionState

end PChop
