import PChop.ExecutionState

/-!
# The recovery engine on one state

The parts of the recovery engine of `Executor.cpp` that read and write one state, or one
recovery state and its dependent state:

* memory as bytes (`read`, `write`);
* `isRecoveryRequired`, which decides from the summary of overwritten addresses whether a
  may-blocking load must wait for skipped functions;
* `getAllRecoveryInfo`, which lists the slices to re-execute, replays a cached value and
  queues the others;
* the write hooks `onNormalStateWrite` (record an overwrite) and `onRecoveryStateWrite`
  (copy a recovered value into the dependent state).

The static analyses are inputs: a load site's approximate modifiers are the list of
`(function, slice id)` pairs `getApproximateModInfos` and `getModInfoToIdMap` give.
-/

namespace PChop

namespace ExecutionState

variable (s : ExecutionState)

/-! ## Memory -/

/-- The `n` bytes at `[a, a + n)`. -/
def read (a n : Nat) : List Nat := (List.range n).map fun i => s.addressSpace (a + i)

/-- A store of the bytes `v` at `a`. -/
def write (a : Nat) (v : List Nat) : ExecutionState :=
  { s with addressSpace := fun x =>
      if a ≤ x ∧ x < a + v.length then v.getD (x - a) 0 else s.addressSpace x }

/-- `ExecutionState::isInDependentMode`: the state has skipped a call. -/
def isInDependentMode : Bool := !s.snapshots.isEmpty

/-- `ExecutionState::addRecoveredAddress`. -/
def addRecoveredAddress (a : Nat) : ExecutionState :=
  { s with recoveredLoads := fun x => x = a || s.recoveredLoads x }

/-! ## Deciding that a load needs recovery -/

/-- `Executor::isRecoveryRequired`: whether a load of `size` bytes at `address` must be
recovered, and the state after the call (which marks the load as unrecovered when the last
overwrite follows the last snapshot). -/
def isRecoveryRequired (address size : Nat) : ExecutionState × Bool :=
  if s.recoveredLoads address then (s, false)
  else
    match s.getWrittenAddressInfo address size with
    | some (info, true) =>
      if s.getCurrentSnapshotIndex = info.snapshotIndex then
        ({ s with blockingLoadStatus := false }, false)
      else (s, true)
    | _ => (s, true)

/-- `Executor::isMayBlockingLoad`: the static hint, a use of the loaded value, and
`isRecoveryRequired`. -/
def isMayBlockingLoad (mayBlock hasUses : Bool) (address size : Nat) : ExecutionState × Bool :=
  if !mayBlock || !hasUses then (s, false) else s.isRecoveryRequired address size

/-! ## Collecting the slices to run -/

/-- The first loop of `getAllRecoveryInfo`: for each snapshot from `index` on (up to the
snapshot a recovery state itself re-executes), the first modifier of the load whose function
is the snapshot's gives one recovery info. -/
def requiredInfos (loadAddr loadSize : Nat) (mods : List (Nat × Nat)) :
    Nat → List Snapshot → List RecoveryInfo
  | _, [] => []
  | index, snapshot :: rest =>
    if s.isRecoveryState && (s.recoveryInfo.map (·.snapshotIndex)) = some index then []
    else
      let tail := requiredInfos loadAddr loadSize mods (index + 1) rest
      match mods.find? (·.1 = snapshot.f) with
      | some (f, sliceId) =>
        { loadAddr, loadSize, f, sliceId, snapshot, snapshotIndex := index } :: tail
      | none => tail

/-- The second loop of `getAllRecoveryInfo`, over the required infos from the last one
back: a slice cached with a value writes that value and stops the walk, a slice cached as
not writing is skipped, and any other slice is marked pending in the cache and queued in
front of the infos queued so far. The last component is the value of a cached write, which
`executeMemoryOperation` also hands to the write hooks (`Executor.getAllRecoveryInfo`). -/
def filterInfos (loadAddr : Nat) : List RecoveryInfo → ExecutionState → List RecoveryInfo →
    ExecutionState × List RecoveryInfo × Option (List Nat)
  | [], s, queued => (s, queued, none)
  | ri :: rest, s, queued =>
    match s.getRecoveredValue ri.snapshotIndex ri.sliceId loadAddr with
    | some (some v) => ((s.addRecoveredAddress loadAddr).write loadAddr v, queued, some v)
    | some none => filterInfos loadAddr rest (s.addRecoveredAddress loadAddr) queued
    | none =>
      filterInfos loadAddr rest
        (s.updateRecoveredValue ri.snapshotIndex ri.sliceId loadAddr none) (ri :: queued)

/-- `Executor::getAllRecoveryInfo` on the state alone, for a load of `loadSize` bytes at
`loadAddr` with the approximate modifiers `mods`: the state after the cache lookups, the infos
it queues, in the order of their snapshots, and the value of a cached write. -/
def getAllRecoveryInfo (loadAddr loadSize : Nat) (mods : List (Nat × Nat)) :
    ExecutionState × List RecoveryInfo × Option (List Nat) :=
  let required := s.requiredInfos loadAddr loadSize mods (s.getStartingIndex loadAddr loadSize)
    (s.snapshots.drop (s.getStartingIndex loadAddr loadSize))
  filterInfos loadAddr required.reverse s []

/-! ## Write hooks -/

/-- `Executor::onNormalStateWrite`: in dependent mode, a store the analysis flags as possibly
overriding records its address, size and the current snapshot index. -/
def onNormalStateWrite (isStore mayOverride : Bool) (address size : Nat) : ExecutionState :=
  if s.isInDependentMode && isStore && mayOverride then
    s.addWrittenAddress address size s.getCurrentSnapshotIndex
  else s

/-- `Executor::onNormalStateRead`: the first read after a recovery marks its address as
recovered. -/
def onNormalStateRead (address : Nat) : ExecutionState :=
  if s.isInDependentMode && !s.blockingLoadStatus then
    { s.addRecoveredAddress address with blockingLoadStatus := true }
  else s

/-- `Executor::onRecoveryStateWrite`, on the dependent state `d` of the recovery state `s`: a
store at exactly the recovered load's address is copied into `d`, and `d`'s cache records the
value for the slice. -/
def onRecoveryStateWrite (d : ExecutionState) (storeAddr : Nat) (v : List Nat) :
    ExecutionState :=
  match s.recoveryInfo with
  | some ri =>
    if storeAddr = ri.loadAddr then
      (d.write storeAddr v).updateRecoveredValue ri.snapshotIndex ri.sliceId storeAddr (some v)
    else d
  | none => d

end ExecutionState

end PChop
