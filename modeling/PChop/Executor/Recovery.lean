import PChop.Executor.Terminate
import PChop.Recovery

/-!
# Snapshots, recovery states and their dependents

The executor's side of the recovery engine: skipping a call with a snapshot
(`executeCall`), a may-blocking load that starts a recovery state and suspends the loading
state (`handleMayBlockingLoad`, `startRecoveryState`, `suspendState`), the stores of a state
(`executeMemoryOperation` with its write hooks), and the end of a recovery state at its exit
instruction (`onRecoveryStateExit`, `notifyDependentState`, `resumeState`).

A recovery state points to its dependent state, the state whose load it recovers, and the
dependent state points back (`recoveryState`). `startRecoveryState` links the two, and
`resumeState` unlinks them when the recovery is over.
-/

namespace PChop

namespace Executor

variable (e : Executor)

/-- `Executor::replicateBranchHist(state, recState)`: `recState` takes the part of `state`'s
history it lacks, `state`'s depth and `state`'s prefixes. `none` is the failed assertion
`recState->depth <= state->depth`. -/
def replicateBranchHist (src dst : Nat) : Option Executor := do
  let s ← e.heap src
  let d ← e.heap dst
  if d.depth ≤ s.depth then
    some (e.setState dst { d with
      branchHist := d.branchHist ++ s.branchHist.drop d.branchHist.length, depth := s.depth,
      prefixes := s.prefixes })
  else none

/-- `Executor::suspendState`. -/
def suspendState (id : Nat) : Executor :=
  { e.modifyState id fun s => { s with suspendStatus := true } with
    suspendedStates := e.suspendedStates ++ [id] }

/-- `Executor::resumeState(state, implicitlyCreated, recState)`: the state is resumed and
unlinked from its recovery state; a state that is not in `states` joins `addedStates`, any
other `resumedStates`; then it takes the recovery state's history. -/
def resumeState (id : Nat) (implicitlyCreated : Bool) (rec : Nat) : Option Executor :=
  let e := e.modifyState id fun s =>
    { s with suspendStatus := false, recoveryState := none, blockingLoadStatus := false }
  let e := if implicitlyCreated then { e with addedStates := e.addedStates ++ [id] }
    else { e with resumedStates := e.resumedStates ++ [id] }
  e.replicateBranchHist rec id

/-- The initialization of the recovery state in `Executor::startRecoveryState`: a copy of
the snapshot state, a recovery state when made from the first snapshot, and otherwise a
normal recovery state that is resumed, unlinked, with no recovered addresses and the
recovery cache of `state`. `none` is a failed assertion that the snapshot state has no
guiding constraints and no pending recovery infos. -/
def recoveryStateBase (snap ds : ExecutionState) (ri : RecoveryInfo) : Option ExecutionState :=
  if ri.snapshotIndex = 0 then some { snap with type := RECOVERY_STATE }
  else if snap.guidingConstraints.isEmpty && snap.pendingRecoveryInfos.isEmpty then
    some { snap with
      type := NORMAL_STATE ||| RECOVERY_STATE, suspendStatus := false, recoveryState := none,
      blockingLoadStatus := true, recoveredLoads := fun _ => false,
      recoveryCache := ds.recoveryCache }
  else none

/-- `Executor::startRecoveryState(state, recoveryInfo)`: a new recovery state, copied from the
snapshot, linked to `state` as its dependent; its type, level and originating state follow
from the snapshot index and from `state`; it takes the guiding constraints of the originating
state, a leaf split off `state`'s, a place in `addedStates` and `state`'s history. -/
def startRecoveryState (d : Nat) (ri : RecoveryInfo) : Option Executor := do
  let snap ← e.heap ri.snapshot.state
  let ds ← e.heap d
  let base ← recoveryStateBase snap ds ri
  let orig := if ds.isRecoveryState then ds.originatingState else some d
  let guiding := ((orig.bind e.heap).map (·.guidingConstraints)).getD []
  let r := guiding.foldl ExecutionState.addConstraint { base with
    dependentState := some d, originatingState := orig, recoveryInfo := some ri,
    level := if ds.isRecoveryState then ds.level + 1 else 0 }
  let (e, rid) := e.newState r
  let e := e.modifyState d fun s => { s with recoveryState := some rid }
  let e := e.splitNode ds.ptreeNode rid d
  let e := { e with addedStates := e.addedStates ++ [rid] }
  e.replicateBranchHist d rid

/-- `Executor::notifyDependentState`: resume the dependent state, as an added state when it
is not in `states`. -/
def notifyDependentState (rec : Nat) : Option Executor := do
  let r ← e.heap rec
  let d ← r.dependentState
  e.resumeState d (d ∉ e.states) rec

/-- `Executor::onRecoveryStateExit`: when the dependent state has more recoveries pending, it
takes this recovery state's history and the next one starts; otherwise the dependent state
is resumed. The recovery state is terminated either way. -/
def onRecoveryStateExit (rec : Nat) : Option Executor := do
  let r ← e.heap rec
  let d ← r.dependentState
  let ds ← e.heap d
  let e ← match ds.pendingRecoveryInfos with
    | ri :: rest =>
      let e := e.setState d { ds with pendingRecoveryInfos := rest }
      let e ← e.replicateBranchHist rec d
      e.startRecoveryState d ri
    | [] => e.notifyDependentState rec
  some (e.terminateState rec)

/-- `Executor::executeCall` on a function the options skip: a normal state that is not a
recovery state takes a snapshot (a copy without guiding constraints) when the function has
side effects, and skips the call. Other states execute the call, which the model does not
follow. -/
def executeSkippedCall (id : Nat) (f : Nat) (hasSideEffects : Bool) : Option Executor := do
  let s ← e.heap id
  if s.isNormalState && !s.isRecoveryState && hasSideEffects then
    let (e, sid) := e.newState { s with guidingConstraints := [] }
    some (e.setState id { s with
      snapshots := s.snapshots ++ [{ state := sid, f }], recoveredLoads := fun _ => false })
  else some e

/-- `Executor::onRecoveryStateWrite` for a store of the bytes `v` at `address` by the recovery
state `s`: its dependent state takes a store at the recovered address
(`ExecutionState.onRecoveryStateWrite`). -/
def onRecoveryStateWrite (s : ExecutionState) (address : Nat) (v : List Nat) : Executor :=
  match s.dependentState with
  | some d => e.modifyState d fun ds => s.onRecoveryStateWrite ds address v
  | none => e

/-- `Executor::getAllRecoveryInfo` for a load at `address` by the state `s`: the state after the
cache lookups, with the infos it queues in front of its pending ones (the list the source pushes
them onto). A cached value is written by `executeMemoryOperation`, whose hook hands the store of
a recovery state to its dependent state; the hook of a normal state returns at once, the
instruction being a load. -/
def getAllRecoveryInfo (s : ExecutionState) (address size : Nat) (mods : List (Nat × Nat)) :
    Executor × ExecutionState :=
  let r := s.getAllRecoveryInfo address size mods
  (match r.2.2 with
    | some v => if r.1.isRecoveryState then e.onRecoveryStateWrite r.1 address v else e
    | none => e,
   { r.1 with pendingRecoveryInfos := r.2.1 ++ r.1.pendingRecoveryInfos })

/-- The `Load` case of `Executor::executeInstruction` for a load of `size` bytes at
`address`: in dependent mode, a may-blocking load whose recovery is required collects its
recovery infos; when some are pending the first recovery state starts and the state is
suspended (`handleMayBlockingLoad`). Otherwise the load reads memory
(`onNormalStateRead`). -/
def executeLoad (id : Nat) (mayBlock hasUses : Bool) (address size : Nat)
    (mods : List (Nat × Nat)) : Option Executor := do
  let s ← e.heap id
  let (s, required) :=
    if s.isNormalState && s.isInDependentMode && s.blockingLoadStatus then
      s.isMayBlockingLoad mayBlock hasUses address size
    else (s, false)
  let (e, s) := if required then e.getAllRecoveryInfo s address size mods else (e, s)
  match required, s.pendingRecoveryInfos with
  | true, ri :: rest =>
    let e := e.setState id { s with pendingRecoveryInfos := rest }
    let e ← e.startRecoveryState id ri
    if s.isSuspended then some e else some (e.suspendState id)
  | _, _ => some (e.setState id (if s.isNormalState then s.onNormalStateRead address else s))

/-- A store of the bytes `v` at `address` (`executeMemoryOperation` with `isWrite`): the
state's memory changes; a recovery state copies a store at its recovered address into its
dependent state (`onRecoveryStateWrite`); a normal state records a possibly overriding store
(`onNormalStateWrite`). -/
def executeStore (id : Nat) (address : Nat) (v : List Nat) (mayOverride : Bool) :
    Option Executor := do
  let s ← e.heap id
  let s' := s.write address v
  let e := e.setState id s'
  let e := if s'.isRecoveryState then e.onRecoveryStateWrite s' address v else e
  let e := if s'.isNormalState then
      e.modifyState id fun s => s.onNormalStateWrite true mayOverride address v.length
    else e
  some e

end Executor

end PChop
