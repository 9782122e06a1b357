import PChop.Executor.Recovery

/-!
# Forking

`Executor::fork`, the two-way branch on a condition, and `Executor::branch`, the multi-way
branch of a switch. A fork copies the current state (`ExecutionState::branch`), splits its
process-tree leaf, extends both branch histories with `0` and `1` (unless the fork is
internal) and adds the condition to one state and its negation to the other. When the forked
state is a recovery state, its whole chain of dependent states is forked with it
(`forkDependentStates`) and the condition is added along both chains
(`mergeConstraintsForAll`).

On a worker, a state that still has a prefix longer than its depth takes the direction of a
non-internal fork from its prefixes (`branchToTake`): a `0` or `1` forks and suspends the
other side (`rangingSuspendedStates`), a `2` or `3` follows one side without forking, and
prefixes that disagree fork for real and are split between the two states.
-/

namespace PChop

/-- The answers of `Solver::evaluate`. -/
inductive Validity where
  | True | False | Unknown
  deriving DecidableEq, Repr

/-- What one call of `fork` gets from outside the executor: the condition, whether the fork is
internal, the solver's answer (`none` when the query times out) and `theRNG.getBool()`. -/
structure ForkInput where
  condition : Expr
  isInternal : Bool
  evaluate : Option Validity
  rng : Bool
  deriving DecidableEq, Repr

namespace Executor

variable (e : Executor)

/-! ## Chains of dependent states -/

/-- The first loop of `Executor::forkDependentStates`: copy each state of the chain from
`cur` (each must be suspended), link the copy below the previous copy `prev`, split the leaf
of the original between the copy and the original, and return the copy of the normal state
that ends the chain. The source loops without a bound; the model gives it `fuel` turns. -/
def forkChain : Nat → Executor → Nat → Nat → Option (Executor × Nat)
  | 0, _, _, _ => none
  | fuel + 1, e, cur, prev => do
    let cs ← e.heap cur
    if !cs.isSuspended then none else
    let (e, forked) := e.newState cs
    let e := e.modifyState forked fun s => { s with recoveryState := some prev }
    let e := e.modifyState prev fun s => { s with dependentState := some forked }
    let e := e.splitNode cs.ptreeNode forked cur
    if cs.isRecoveryState then
      let next ← cs.dependentState
      forkChain fuel e next forked
    else some (e, forked)

/-- The second loop of `Executor::forkDependentStates`: every recovery state of the chain from
`cur` takes `orig` as its originating state. -/
def setOriginating : Nat → Executor → Nat → Nat → Executor
  | 0, e, _, _ => e
  | fuel + 1, e, cur, orig =>
    match e.heap cur with
    | some cs =>
      if cs.isRecoveryState then
        let e := e.modifyState cur fun s => { s with originatingState := some orig }
        match cs.dependentState with
        | some d => setOriginating fuel e d orig
        | none => e
      else e
    | none => e

/-- `Executor::forkDependentStates(trueState, falseState)`: `falseState`, a fresh copy of the
recovery state `trueState`, gets a copy of `trueState`'s chain of dependent states. -/
def forkDependentStates (t f : Nat) : Option Executor := do
  let ts ← e.heap t
  let d ← ts.dependentState
  let (e', orig) ← forkChain e.nextId e d f
  some (setOriginating e.nextId e' f orig)

/-- The loop of `Executor::mergeConstraintsForAll`: add the condition to each state of the
chain from `cur` (`mergeConstraints`). -/
def mergeChain : Nat → Executor → Nat → Expr → Executor
  | 0, e, _, _ => e
  | fuel + 1, e, cur, c =>
    let e := e.modifyState cur (·.addConstraint c)
    match e.nextDependent cur with
    | some d => mergeChain fuel e d c
    | none => e

/-- `Executor::mergeConstraintsForAll`: the condition is added to every state of the chain
below the recovery state and recorded as a guiding constraint of the originating state. -/
def mergeConstraintsForAll (rec : Nat) (c : Expr) : Option Executor := do
  let r ← e.heap rec
  let d ← r.dependentState
  let o ← r.originatingState
  some ((mergeChain e.nextId e d c).modifyState o (·.addGuidingConstraint c))

/-! ## Two-way branches -/

/-- Forking is inhibited: at the memory cap with `MaxMemoryInhibit`, on a state with forking
disabled, globally, or after `MaxForks` forks. -/
def inhibited (s : ExecutionState) : Bool :=
  (e.opts.MaxMemoryInhibit && e.atMemoryLimit) || s.forkDisabled || e.opts.inhibitForking ||
    match e.opts.MaxForks with
    | some m => decide (e.forks ≥ m)
    | none => false

/-- The direction `fork` takes before a forced choice: the solver's answer on the master, on
a worker that is not ranging and for an internal fork; the prefixes' answer
(`branchToTake`) for a non-internal fork of a ranging worker state. The inner `none` is a
solver timeout, the outer `none` the failed assertion of `branchToTake`. -/
def forkDecision (s : ExecutionState) (fi : ForkInput) : Option (Option (Validity × Bool)) :=
  if e.opts.coreId ≠ 0 && s.shallIRange && !fi.isInternal then
    s.branchToTake.map fun (r, forkAndSuspend) =>
      some (if r = 0 then .True else if r = 1 then .False else .Unknown, forkAndSuspend)
  else some (fi.evaluate.map (·, false))

/-- The forced choice of `fork`: when the answer is unknown and forking is inhibited, the
current state takes the side `theRNG.getBool()` picks and its condition. -/
def forcedChoice (cur : Nat) (s : ExecutionState) (fi : ForkInput) (res : Validity) :
    Executor × Validity :=
  if res = .Unknown && e.inhibited s then
    if fi.rng then (e.modifyState cur (·.addConstraint fi.condition), .True)
    else (e.modifyState cur (·.addConstraint (.createIsZero fi.condition)), .False)
  else (e, res)

/-- Whether `fork` on the state `s` splits its prefixes between the true and the false state
(`removeFalsePrefixes` and `removeTruePrefixes`): on a worker, when the direction is unknown
and no choice is forced. -/
def splitsPrefixes (cur : Nat) (s : ExecutionState) (fi : ForkInput) : Bool :=
  e.opts.coreId ≠ 0 &&
    match e.forkDecision s fi with
    | some (some (res, _)) => (e.forcedChoice cur s fi res).2 == .Unknown
    | _ => false

/-- A branch followed without forking: the history records `c` (`2` or `3`) unless the
branch is internal. -/
def followBranch (cur : Nat) (fi : ForkInput) (c : Char) : Executor :=
  if fi.isInternal then e
  else e.modifyState cur fun s => { s with depth := s.depth + 1, branchHist := s.branchHist ++ [c] }

/-- What the three forking branches of `fork` share: copy the current state, split the
prefixes when `removePrefixes` (`removeFalsePrefixes` on the true state,
`removeTruePrefixes` on the false one), split the leaf between the false and the true state,
extend the histories with `0` and `1` unless the fork is internal, add the condition and its
negation, and fork the dependent chain of a recovery state. `curIsTrue` tells which side the
current state continues. The result is the executor, the true state and the false state. -/
def forkStates (cur : Nat) (fi : ForkInput) (curIsTrue removePrefixes : Bool) :
    Option (Executor × Nat × Nat) := do
  let (e, new) ← e.branchState cur
  let (t, f) := if curIsTrue then (cur, new) else (new, cur)
  let e := if removePrefixes then
      (e.modifyState t (·.removeFalsePrefixes)).modifyState f (·.removeTruePrefixes)
    else e
  let cs ← e.heap cur
  let e := e.splitNode cs.ptreeNode f t
  let e := if fi.isInternal then e
    else (e.modifyState t fun s => { s with depth := s.depth + 1, branchHist := s.branchHist ++ ['0'] }).modifyState
      f fun s => { s with depth := s.depth + 1, branchHist := s.branchHist ++ ['1'] }
  let e := (e.modifyState t (·.addConstraint fi.condition)).modifyState f
    (·.addConstraint (.createIsZero fi.condition))
  if cs.isRecoveryState then
    let e ← e.forkDependentStates cur new
    let e ← e.mergeConstraintsForAll t fi.condition
    let e ← e.mergeConstraintsForAll f (.createIsZero fi.condition)
    some (e, t, f)
  else some (e, t, f)

/-- `Executor::fork(current, condition, isInternal)`, without seeds, replay and the static
fork limits: the executor and the pair of states that follow the true and the false side. -/
def fork (cur : Nat) (fi : ForkInput) : Option (Executor × Option Nat × Option Nat) := do
  let s ← e.heap cur
  let decision ← e.forkDecision s fi
  match decision with
  | none => some (e.terminateStateEarly cur, none, none)
  | some (res, forkAndSuspend) =>
    let (e, res) := e.forcedChoice cur s fi res
    match res, forkAndSuspend with
    | .True, true =>
      let (e, t, f) ← e.forkStates cur fi true false
      some ({ e with rangingSuspendedStates := e.rangingSuspendedStates ++ [f] }, some t, some f)
    | .True, false => some (e.followBranch cur fi '2', some cur, none)
    | .False, true =>
      let (e, t, f) ← { e with forks := e.forks + 1 }.forkStates cur fi false false
      some ({ e with rangingSuspendedStates := e.rangingSuspendedStates ++ [t] }, some t, some f)
    | .False, false => some (e.followBranch cur fi '3', none, some cur)
    | .Unknown, _ =>
      let (e, t, f) ← { e with forks := e.forks + 1 }.forkStates cur fi true (e.opts.coreId ≠ 0)
      some ({ e with addedStates := e.addedStates ++ [f] }, some t, some f)

/-! ## Multi-way branches -/

/-- The first loop of the ranged and the unranged multi-way branch: `n` times, the last state
of `result` is copied, the copy is appended to `result` (and to `addedStates` when
`addStates`), the leaf of the copied state is split between the copy and the state, and the
state's history grows by `0` and the copy's by `1`. -/
def branchCopies : Nat → Executor → List Nat → Bool → Option (Executor × List Nat)
  | 0, e, result, _ => some (e, result)
  | n + 1, e, result, addStates => do
    let es ← result.getLast?
    let (e, ns) ← e.branchState es
    let e := if addStates then { e with addedStates := e.addedStates ++ [ns] } else e
    let s ← e.heap es
    let e := e.splitNode s.ptreeNode ns es
    let e := (e.modifyState es fun s =>
        { s with depth := s.depth + 1, branchHist := s.branchHist ++ ['0'] }).modifyState
      ns fun s => { s with depth := s.depth + 1, branchHist := s.branchHist ++ ['1'] }
    branchCopies n e (result ++ [ns]) addStates

/-- The case test of the ranged multi-way branch: the history of `result[i]` agrees with
`upperBound` from position `result[0]->depth - 1` up to its depth. At depth `0` the loop
index is `-1`, which the comparison with the unsigned depth turns into no iteration. -/
def caseMatches (upperBound : List Char) (d₀ : Nat) (s : ExecutionState) : Bool :=
  d₀ = 0 || (List.range (s.depth - (d₀ - 1))).all fun k =>
    ExecutionState.charAt upperBound (d₀ - 1 + k) == ExecutionState.charAt s.branchHist (d₀ - 1 + k)

/-- The loop that erases the state a ranged switch came with, and its chain of dependent
states, from `states`. `none` is a failed assertion. -/
def eraseChain : Nat → Executor → Nat → Option Executor
  | 0, _, _ => none
  | fuel + 1, e, cur => do
    let next := e.nextDependent cur
    if cur ∉ e.states then none else
    let e := { e with states := e.states.erase cur }
    match next with
    | some d => eraseChain fuel e d
    | none => some e

/-- The end of the ranged multi-way branch: the first case whose history agrees with
`upperBound` continues and the others are suspended for ranging; without such a case the
last (default) case continues. When the continuing state is not the state the switch came
with, that state leaves the searcher and `states` (with its dependent chain when a case
matched). -/
def rangeCases (result : List Nat) : Option Executor := do
  let s₀ ← (result.head?).bind e.heap
  let matching := result.findIdx? fun id =>
    ((e.heap id).map (caseMatches e.upperBound s₀.depth)).getD false
  let r₀ ← result.head?
  match matching with
  | none =>
    let e := { e with
      rangingSuspendedStates := e.rangingSuspendedStates ++ result.dropLast,
      addedStates := e.addedStates ++ [result.getLastD 0] }
    let searcher ← dfsUpdate e.searcher [] [r₀]
    if r₀ ∉ e.states then none else
    some { e with searcher, states := e.states.erase r₀ }
  | some satCase =>
    let others := (result.enum.filter (·.1 ≠ satCase)).map (·.2)
    let e := { e with rangingSuspendedStates := e.rangingSuspendedStates ++ others }
    if satCase = 0 then some e else
    let e := { e with addedStates := e.addedStates ++ [result.getD satCase 0] }
    let searcher ← dfsUpdate e.searcher [] [r₀]
    eraseChain e.nextId { e with searcher } r₀

/-- The two loops at the end of `Executor::branch`: a recovery state of `result` after the
first forks the dependent chain of the state before it, and every state takes its condition
(along its chain when it is a recovery state). -/
def branchTail : List (Option Nat × Expr) → Option Nat → Executor → Option Executor
  | [], _, e => some e
  | (current, _) :: rest, prev, e => do
    let e ← match current with
      | some id => do
        let s ← e.heap id
        let e ← match prev, s.isRecoveryState with
          | some p, true => e.forkDependentStates p id
          | _, _ => some e
        pure e
      | none => some e
    branchTail rest current e

/-- The constraint loop at the end of `Executor::branch`. -/
def branchConstraints : List (Option Nat × Expr) → Executor → Option Executor
  | [], e => some e
  | (current, c) :: rest, e => do
    let e ← match current with
      | some id => do
        let e := e.modifyState id (·.addConstraint c)
        let s ← e.heap id
        if s.isRecoveryState then e.mergeConstraintsForAll id c else some e
      | none => some e
    branchConstraints rest e

/-- `Executor::branch(state, conditions, result)` without seeds: after `MaxForks` forks the
state follows the case `rng % N`; otherwise it is copied into one state per case (one
balanced chain of copies), ranged against `upperBound` on a worker whose state still has a
prefix longer than its depth, and each state takes its case's condition. -/
def branch (cur : Nat) (conditions : List Expr) (rng : Nat) :
    Option (Executor × List (Option Nat)) := do
  let N := conditions.length
  if N = 0 then none else
  let s ← e.heap cur
  let maxed := match e.opts.MaxForks with
    | some m => decide (e.forks ≥ m)
    | none => false
  let (e, result) ← if maxed then
      some (e, (List.range N).map fun i => if i = rng % N then some cur else none)
    else do
      let e := { e with forks := e.forks + (N - 1) }
      if e.opts.coreId = 0 || !s.shallIRange then
        let (e, result) ← branchCopies (N - 1) e [cur] true
        some (e, result.map some)
      else
        let (e, result) ← branchCopies (N - 1) e [cur] false
        let e ← e.rangeCases result
        some (e, result.map some)
  let pairs := result.zip conditions
  let e ← branchTail pairs none e
  let e ← branchConstraints pairs e
  some (e, result)

end Executor

end PChop
