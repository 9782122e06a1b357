import PChop.Executor.Basic

/-!
# Terminating states

`Executor::terminateState` and the functions built on it. A recovery state is terminated
with its whole chain of dependent states (`terminateStateRecursively`); a normal state only by
itself. `terminateStateOnError` also counts the error and halts the node once the error budget
or the table of error locations is used up, and `checkMemoryUsage` kills states over the
memory cap.
-/

namespace PChop

namespace Executor

variable (e : Executor)

/-- `Executor::terminateState`: a state still in `addedStates` never reached the searcher
and is deleted at once with its process-tree leaf; any other state is queued in
`removedStates` for `updateStates`. -/
def terminateState (id : Nat) : Executor :=
  if id ∈ e.addedStates then
    let node := ((e.heap id).map (·.ptreeNode)).getD 0
    ({ e with addedStates := e.addedStates.erase id,
              processTree := e.processTree.remove node }).deleteState id
  else { e with removedStates := e.removedStates ++ [id] }

/-- The dependent state a termination or constraint loop moves to from `id`: the dependent of
a recovery state, none for a normal state. -/
def nextDependent (id : Nat) : Option Nat :=
  match e.heap id with
  | some s => if s.isRecoveryState then s.dependentState else none
  | none => none

/-- `Executor::terminateStateRecursively`: terminate the state and, while the terminated state
is a recovery state, its dependent state. The source loops without a bound; the model gives
the loop `fuel` turns, and `terminateStateRecursively` calls it with one turn per allocated
state. -/
def terminateStateRecursivelyAux : Nat → Executor → Nat → Executor
  | 0, e, _ => e
  | fuel + 1, e, id =>
    match e.nextDependent id with
    | some d => terminateStateRecursivelyAux fuel (e.terminateState id) d
    | none => e.terminateState id

/-- `Executor::terminateStateRecursively`. -/
def terminateStateRecursively (id : Nat) : Executor :=
  terminateStateRecursivelyAux e.nextId e id

/-- How `terminateStateEarly`, `terminateStateOnExit` and `terminateStateOnError` end a
state: a recovery state with its chain, any other state by itself. -/
def terminateStateOrChain (id : Nat) : Executor :=
  match e.heap id with
  | some s => if s.isRecoveryState then e.terminateStateRecursively id else e.terminateState id
  | none => e.terminateState id

/-- `Executor::terminateStateEarly`. -/
def terminateStateEarly (id : Nat) : Executor := e.terminateStateOrChain id

/-- `Executor::terminateStateOnExit`. -/
def terminateStateOnExit (id : Nat) : Executor := e.terminateStateOrChain id

/-- `Executor::shouldExitOn`. -/
def shouldExitOn (termReason : TerminateReason) : Bool := termReason ∈ e.opts.ExitOnErrorType

/-- The base name of a source file: what follows the last `/` or `\`. -/
def baseName (file : String) : String :=
  String.mk (file.toList.reverse.takeWhile fun c => c != '/' && c != '\\').reverse

/-- The error-location table after an error at `line` of `file`: the line is removed from the
entry of the file's base name, and an entry left empty is removed. -/
def eraseErrorLocation (locs : List (String × List Nat)) (file : String) (line : Nat) :
    List (String × List Nat) :=
  match locs.find? (·.1 = baseName file) with
  | some (name, lines) =>
    let lines' := lines.filter (· != line)
    if lines'.isEmpty then locs.filter (·.1 != name)
    else locs.map fun entry => if entry.1 = name then (name, lines') else entry
  | none => locs

/-- The end of `terminateStateOnError`: an error of a reason in `ExitOnErrorType` halts the
node when the error budget or the error-location table is used up, and a worker that empties
the table reports `BUG_FOUND` to the master. -/
def haltOnError (termReason : TerminateReason) (file : String) (line : Nat) :
    Executor × List Message :=
  if !e.shouldExitOn termReason then (e, [])
  else if e.errorLocations.isEmpty then
    if e.opts.maxErrorCount = 0 ∨ e.opts.maxErrorCount = e.errorCount then
      ({ e with haltExecution := true }, [])
    else (e, [])
  else if file = "" then (e, [])
  else
    let e := { e with errorLocations := eraseErrorLocation e.errorLocations file line }
    if e.errorLocations.isEmpty then
      if e.opts.coreId = 0 then ({ e with haltExecution := true, haltFromMaster := true }, [])
      else ({ e with haltExecution := true }, [(.BUG_FOUND, [])])
    else (e, [])

/-- `Executor::terminateStateOnError` for an error with `message` at the instruction
`lastInst` of `line` in `file`: the error is counted the first time it is seen at the
instruction (every time with `EmitAllErrors`), the state is terminated, and the node may halt
(`haltOnError`). -/
def terminateStateOnError (id : Nat) (termReason : TerminateReason) (message : String)
    (lastInst : Nat) (file : String) (line : Nat) : Executor × List Message :=
  let fresh := e.opts.EmitAllErrors || !e.emittedErrors.contains (lastInst, message)
  let e := { e with
    emittedErrors := if e.emittedErrors.contains (lastInst, message) then e.emittedErrors
      else e.emittedErrors ++ [(lastInst, message)],
    errorCount := if fresh && e.shouldExitOn termReason then e.errorCount + 1 else e.errorCount }
  (e.terminateStateOrChain id).haltOnError termReason file line

/-- The states `checkMemoryUsage` may kill: those of `states` that are neither suspended
normal states nor recovery states. -/
def killable : List Nat :=
  e.states.filter fun id =>
    match e.heap id with
    | some s => !(s.isNormalState && s.isSuspended) && !s.isRecoveryState
    | none => true

/-- The kill loop of `checkMemoryUsage`: `toKill` times, while states are left, the state at
`rand() % N` is swapped to the end of the candidates and terminated early. `picks` are the
values of `rand()` (`0` once they run out). -/
def killStates : Nat → List Nat → List Nat → Executor → Executor
  | 0, _, _, e => e
  | _, [], _, e => e
  | toKill + 1, arr, picks, e =>
    let idx := picks.headD 0 % arr.length
    let victim := arr.getD idx 0
    let arr' := (arr.set idx (arr.getD (arr.length - 1) 0)).dropLast
    killStates toKill arr' picks.tail (e.terminateStateEarly victim)

/-- A result of `unsigned` arithmetic: the value modulo `2^32 = 4294967296`. -/
def u32 (n : Nat) : Nat := n % 4294967296

/-- `Executor::checkMemoryUsage`, with `mbs` the memory in use and `picks` the values of
`rand()`: every `0x10000` instructions, over the cap plus 100 MB a share of the killable
states is terminated early, and `atMemoryLimit` records whether the cap is exceeded. The
count of states to kill is computed in `unsigned` arithmetic, as the source computes it:
`MaxMemory`, `mbs` and `numStates` are `unsigned`, their sums, products and differences wrap
modulo `2^32` (the difference as `numStates + 2^32 - q`). -/
def checkMemoryUsage (mbs : Nat) (picks : List Nat) : Executor :=
  if e.opts.MaxMemory = 0 ∨ e.instructions % 0x10000 ≠ 0 then e
  else if mbs > e.opts.MaxMemory then
    let e' :=
      if mbs > u32 (e.opts.MaxMemory + 100) then
        let numStates := u32 e.states.length
        let toKill := max 1 (u32 (numStates + 4294967296 - u32 (numStates * e.opts.MaxMemory) / mbs))
        killStates toKill e.killable picks e
      else e
    { e' with atMemoryLimit := true }
  else { e with atMemoryLimit := false }

end Executor

end PChop
