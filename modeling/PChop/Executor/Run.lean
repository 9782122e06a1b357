import PChop.Executor.Fork
import PChop.Offload

/-!
# The run loop of a node

`Executor::run` as a state machine. One step of the inner loop selects a state from the
searcher, prunes it on a worker when it passed the depth bound, or executes one instruction
on it and ends with `updateStates`, which hands the step's new, removed, suspended and resumed
states to the searcher and to `states`, indexes the states suspended for ranging, deletes the
removed states and answers an `OFFLOAD` or `KILL` of the master (`newCheck2Offload`). When
the inner loop ends, a worker reports `FINISH` and waits for the master, who kills it or sends
a new prefix task (`START_PREFIX_TASK`).

An instruction is an `Instr`, the event the executed instruction produces: a branch through
`fork`, a switch through `branch`, a skipped call, a load, a store, or the end of the state.
-/

namespace PChop

/-- What an instruction of the selected state does, as far as the model follows it. -/
inductive Instr where
  /-- An instruction without effect on the modelled fields. -/
  | plain
  /-- A two-way branch: `fork(state, condition, isInternal)`. -/
  | fork (fi : ForkInput)
  /-- A switch on the feasible cases: `branch(state, conditions, result)`. -/
  | switch (conditions : List Expr) (rng : Nat)
  /-- A call of a function the options skip. -/
  | call (f : Nat) (hasSideEffects : Bool)
  /-- A load of `size` bytes at `address`, with the static hints and the modifiers. -/
  | load (mayBlock hasUses : Bool) (address size : Nat) (mods : List (Nat × Nat))
  /-- A store of the bytes `v` at `address`. -/
  | store (address : Nat) (v : List Nat) (mayOverride : Bool)
  /-- The return from the entry function: `terminateStateOnExit`. -/
  | exit
  /-- An error: `terminateStateOnError`. -/
  | error (termReason : TerminateReason) (message : String) (lastInst : Nat) (file : String)
      (line : Nat)
  /-- A query timeout or a model limit: `terminateStateEarly`. -/
  | early
  /-- A load whose address has no single resolution in bounds, the error path of
  `executeMemoryOperation`: an internal fork for the bounds check of each object the address
  may point to (`fis`), and then, for the state the last fork leaves unbound,
  `terminateStateEarly` when the resolution was `incomplete` and `terminateStateOnError` for an
  out-of-bound pointer otherwise. -/
  | resolve (fis : List ForkInput) (incomplete : Bool) (lastInst : Nat) (file : String)
      (line : Nat)
  /-- A recovery state at its exit instruction: `onRecoveryStateExit`. -/
  | recoveryExit
  deriving Repr

/-- The branch history over `01` that indexes a suspended state: `2` reads as `0`, `3` as `1`,
and dashes are dropped. -/
def canonicalPath : List Char → List Char
  | [] => []
  | c :: cs =>
    if c = '2' then '0' :: canonicalPath cs
    else if c = '3' then '1' :: canonicalPath cs
    else if c = '-' then canonicalPath cs
    else c :: canonicalPath cs

namespace Executor

variable (e : Executor)

/-! ## One instruction -/

/-- The loop of `executeMemoryOperation` over the resolutions of an address: the unbound state
forks on the bounds check of each object, internally; the true state takes the access, whose
effect on the memory is not modelled, and the loop goes on with the false state until there is
none. The result is the executor and the state left unbound. -/
def resolveStates : List ForkInput → Executor → Nat → Option (Executor × Option Nat)
  | [], e, unbound => some (e, some unbound)
  | fi :: fis, e, unbound => do
    let (e, _, f) ← e.fork unbound { fi with isInternal := true }
    match f with
    | some unbound => resolveStates fis e unbound
    | none => some (e, none)

/-- The error path of `Executor::executeMemoryOperation` for a load of the state `id`, with the
messages it sends. -/
def executeResolution (id : Nat) (fis : List ForkInput) (incomplete : Bool) (lastInst : Nat)
    (file : String) (line : Nat) : Option (Executor × List Message) := do
  let (e, unbound) ← resolveStates fis e id
  match unbound with
  | some u =>
    if incomplete then some (e.terminateStateEarly u, [])
    else
      some (e.terminateStateOnError u .Ptr "memory error: out of bound pointer" lastInst file line)
  | none => some (e, [])

/-- What every fork of the loop keeps, with the state it leaves unbound, `resolveStates` keeps:
`P` holds of the executor and the unbound state before each fork, `Q` of every executor the
loop reaches. -/
theorem resolveStates_induct (P : Executor → Nat → Prop) (Q : Executor → Prop)
    (hQ : ∀ e cur, P e cur → Q e)
    (hstep : ∀ e cur fi e' t f, P e cur → e.fork cur fi = some (e', t, f) →
      Q e' ∧ ∀ x, f = some x → P e' x) :
    ∀ (fis : List ForkInput) (e : Executor) (cur : Nat) {e' : Executor} {u : Option Nat},
      P e cur → resolveStates fis e cur = some (e', u) → Q e' ∧ ∀ x, u = some x → P e' x
  | [], e, cur, _, _, hP, h => by
    cases h; exact ⟨hQ e cur hP, fun x hx => by cases hx; exact hP⟩
  | fi :: fis, e, cur, e', u, hP, h => by
    simp only [resolveStates] at h
    obtain ⟨⟨e₁, t, f⟩, h₁, h⟩ := Option.bind_eq_some.mp h
    obtain ⟨hQ₁, hP₁⟩ := hstep e cur _ e₁ t f hP h₁
    dsimp only at h
    split at h
    · exact resolveStates_induct P Q hQ hstep fis e₁ _ (hP₁ _ rfl) h
    · cases h; exact ⟨hQ₁, fun x hx => by cases hx⟩

/-- The error path of a load: the loop over the resolutions, and then nothing, an early end or
an error for the state left unbound. -/
theorem executeResolution_cases {id : Nat} {fis : List ForkInput} {incomplete : Bool}
    {lastInst : Nat} {file : String} {line : Nat} {r : Executor × List Message}
    (h : e.executeResolution id fis incomplete lastInst file line = some r) :
    ∃ e₁ u, resolveStates fis e id = some (e₁, u) ∧
      (u = none ∧ r = (e₁, []) ∨ ∃ x, u = some x ∧
        (incomplete = true ∧ r = (e₁.terminateStateEarly x, []) ∨
          incomplete = false ∧
            r = e₁.terminateStateOnError x .Ptr "memory error: out of bound pointer" lastInst file
              line)) := by
  obtain ⟨⟨e₁, u⟩, h₁, h⟩ := Option.bind_eq_some.mp h
  refine ⟨e₁, u, h₁, ?_⟩
  dsimp only at h
  split at h
  · rename_i x
    split at h
    · exact .inr ⟨x, rfl, .inl ⟨‹_›, (Option.some.inj h).symm⟩⟩
    · rename_i hinc
      exact .inr ⟨x, rfl, .inr ⟨by simpa using hinc, (Option.some.inj h).symm⟩⟩
  · exact .inl ⟨rfl, (Option.some.inj h).symm⟩

/-- `Executor::executeInstruction` on the state `id`, for the modelled instructions, with the
messages it sends. -/
def executeInstruction (id : Nat) : Instr → Option (Executor × List Message)
  | .plain => some (e, [])
  | .fork fi => (e.fork id fi).map (·.1, [])
  | .switch conditions rng => (e.branch id conditions rng).map (·.1, [])
  | .call f hasSideEffects => (e.executeSkippedCall id f hasSideEffects).map (·, [])
  | .load mayBlock hasUses address size mods =>
    (e.executeLoad id mayBlock hasUses address size mods).map (·, [])
  | .store address v mayOverride => (e.executeStore id address v mayOverride).map (·, [])
  | .exit => some (e.terminateStateOnExit id, [])
  | .error termReason message lastInst file line =>
    some (e.terminateStateOnError id termReason message lastInst file line)
  | .early => some (e.terminateStateEarly id, [])
  | .resolve fis incomplete lastInst file line =>
    e.executeResolution id fis incomplete lastInst file line
  | .recoveryExit =>
    match e.heap id with
    | some s => if s.isRecoveryState then (e.onRecoveryStateExit id).map (·, []) else some (e, [])
    | none => none

/-! ## updateStates -/

/-- The loop of `updateStates` over `rangingSuspendedStates`: the state loses its prefixes
and is indexed by its canonical history in `prefixSuspendedStatesMap` (unless the key is
taken: `std::map::insert` keeps the old entry) and in the prefix tree. -/
def indexSuspended (id : Nat) : Executor :=
  let path := canonicalPath (((e.heap id).map (·.branchHist)).getD [])
  let e := e.modifyState id (·.clearPrefixes)
  { e with
    prefixSuspendedStatesMap :=
      if e.prefixSuspendedStatesMap.any (·.1 = path) then e.prefixSuspendedStatesMap
      else e.prefixSuspendedStatesMap ++ [(path, id)],
    prefixTree := e.prefixTree.addToTree path }

/-- The loop of `updateStates` over `removedStates`: a state in `states` leaves it and is
deleted with its leaf; a state not in `states` must be a suspended normal state and is
skipped. -/
def removeState (es : Nat) : Option Executor :=
  if es ∈ e.states then
    let node := ((e.heap es).map (·.ptreeNode)).getD 0
    some (({ e with states := e.states.erase es,
                    processTree := e.processTree.remove node }).deleteState es)
  else
    match e.heap es with
    | some s => if s.isNormalState && s.isSuspended then some e else none
    | none => none

/-- `newCheck2Offload` on a worker, with the message the non-blocking probe finds: an
`OFFLOAD` is answered with the composite prefix of the states `offloadFromStatesVector`
selects, which leave the searcher and `states` for ranging (or with `x` when none is
selected); a `KILL` halts. `none` is a failed assertion. -/
def newCheck2Offload : Option Tag → Option (Executor × List Message)
  | some .OFFLOAD =>
    let live := e.states.filterMap fun id => (e.heap id).map (id, ·)
    let r := offloadFromStatesVector e.haltExecution e.haltFromMaster e.ready2Offload
      (live.map (·.2))
    let chosen := ((live.filter fun p => !p.2.isSuspended).take r.1.length).map (·.1)
    if r.1.isEmpty then some (e, [(.OFFLOAD_RESP, ['x'])])
    else do
      let searcher ← dfsUpdate e.searcher [] chosen
      let states ← chosen.foldlM (fun l id => if id ∈ l then some (l.erase id) else none) e.states
      some ({ e with
        searcher, states,
        rangingSuspendedStates := e.rangingSuspendedStates ++ chosen,
        removedStates := e.removedStates.filter (· ∉ chosen) },
        [(.OFFLOAD_RESP, offloadResponse (r.1.map (·.branchHist)) r.2)])
  | some .KILL => some ({ e with haltExecution := true, haltFromMaster := true }, [])
  | _ => some (e, [])

/-- `Executor::updateStates`, with the master's message the probe of `newCheck2Offload`
finds. -/
def updateStates (incoming : Option Tag) : Option (Executor × List Message) := do
  let filtered := e.removedStates.filter fun id =>
    !(match e.heap id with | some s => s.isNormalState && s.isSuspended | none => false)
  let searcher ← dfsUpdate e.searcher e.addedStates filtered
  let searcher ← e.suspendedStates.foldlM (fun v id => dfsUpdate v [] [id]) searcher
  let searcher ← e.resumedStates.foldlM (fun v id => dfsUpdate v [id] []) searcher
  let e := { e with searcher, suspendedStates := [], resumedStates := [],
                    states := e.addedStates.foldl insertState e.states }
  let e := e.rangingSuspendedStates.foldl indexSuspended e
  let e := { e with addedStates := [], rangingSuspendedStates := [] }
  let e ← e.removedStates.foldlM removeState e
  let e := { e with removedStates := [] }
  if e.opts.enableLB then e.newCheck2Offload incoming else some (e, [])

/-! ## The run loop -/

/-- `stepInstruction`: count the instruction, and halt after `StopAfterNInstructions`. -/
def stepInstruction : Executor :=
  { e with instructions := e.instructions + 1,
           haltExecution := e.haltExecution || e.instructions + 1 = e.opts.StopAfterNInstructions }

/-- The hysteresis of a worker that balances load: below four searcher states it tells the
master it cannot offload, from eight on that it can. -/
def updateOffloadReadiness : Executor × List Message :=
  if e.opts.coreId ≠ 0 && e.opts.enableLB && e.prefixDepth ≠ 0 then
    if e.ready2Offload && e.searcher.length < 4 then
      ({ e with ready2Offload := false }, [(.NOT_READY_TO_OFFLOAD, [])])
    else if !e.ready2Offload && e.searcher.length ≥ 8 then
      ({ e with ready2Offload := true }, [(.READY_TO_OFFLOAD, [])])
    else (e, [])
  else (e, [])

/-- The number of states of `states` that are not suspended. -/
def numNotSuspended : Nat :=
  (e.states.filter fun id => match e.heap id with | some s => !s.isSuspended | none => true).length

/-- One turn of the inner loop of `run`, with the instruction the selected state executes,
the memory use and `rand()` values `checkMemoryUsage` sees, and the message
`newCheck2Offload` finds; the result holds the messages the turn sends. The DFS searcher
selects its last state. `none` is a failed assertion. Under `enableBranchHalt` the master
counts the states that are not suspended (`cntNumStates2Offload`) and halts when they reach
its bound; a worker prunes a normal state past the depth bound. -/
def runStep (instr : Instr) (mbs : Nat) (picks : List Nat) (incoming : Option Tag) :
    Option (Executor × List Message) := do
  let sel ← e.searcher.getLast?
  let s ← e.heap sel
  if e.opts.enableBranchHalt && e.opts.coreId = 0 && e.numNotSuspended ≥ e.branchLevel2Halt then
    some ({ e with haltExecution := true, haltFromMaster := true,
                   cntNumStates2Offload := e.numNotSuspended }, [])
  else if e.opts.enableBranchHalt && e.opts.coreId ≠ 0 && !s.isRecoveryState &&
      s.actDepth > e.branchLevel2Halt then
    let searcher ← dfsUpdate e.searcher [] [sel]
    if sel ∉ e.states then none else
    some ({ e with searcher, states := e.states.erase sel }, [])
  else
    let (e₁, sent₁) ← e.stepInstruction.executeInstruction sel instr
    let (e₂, sent₂) ← (e₁.checkMemoryUsage mbs picks).updateStates incoming
    let (e₃, sent₃) := e₂.updateOffloadReadiness
    some ({ e₃ with cntNumStates2Offload :=
        if e.opts.enableBranchHalt && e.opts.coreId = 0 then e.numNotSuspended
        else e.cntNumStates2Offload }, sent₁ ++ sent₂ ++ sent₃)

/-- The end of the master's `run` under `enableBranchHalt`: `workList` is allocated with
`cntNumStates2Offload` slots, and `addState2WorkList` writes the history of each state of
`states` that is not suspended to the next slot. The result is the number of slots and the
histories written. -/
def fillWorkList : Nat × List (List Char) :=
  (e.cntNumStates2Offload,
    (e.states.filter fun id => match e.heap id with | some s => !s.isSuspended | none => true).map
      fun id => ((e.heap id).map (·.branchHist)).getD [])

/-- One prefix of a `START_PREFIX_TASK`: it is added to the suspended state indexed by the
longest part of its canonical path the prefix tree holds, and that state, with its path, joins
the states to resume once. `none` is the failed assertion that the path has a state. -/
def resumePrefix (acc : Executor × List (Nat × List Char)) (recvP : List Char) :
    Option (Executor × List (Nat × List Char)) := do
  let (e, resumed) := acc
  let path := e.prefixTree.getPathToResume (canonicalPath recvP)
  let (_, id) ← e.prefixSuspendedStatesMap.find? (·.1 = path)
  let e := e.modifyState id (·.addPrefix recvP recvP.length)
  some (e, if resumed.any (·.1 = id) then resumed else resumed ++ [(id, path)])

/-- The `START_PREFIX_TASK` handler of `run`: the message becomes the upper bound and its
length the prefix depth; each prefix it holds resumes a suspended state (`resumePrefix`);
the states resumed join `states`, all of `states` is handed to the searcher, and the resumed
paths leave the map. -/
def startPrefixTask (msg : List Char) : Option Executor := do
  let e := { e with upperBound := msg, prefixDepth := msg.length }
  let (e, resumed) ← (decodeStartPrefixTask msg).foldlM resumePrefix (e, [])
  let e := { e with states := (resumed.map Prod.fst).foldl insertState e.states }
  let searcher ← dfsUpdate e.searcher e.states []
  some { e with
    searcher,
    prefixSuspendedStatesMap := e.prefixSuspendedStatesMap.filter fun entry =>
      !resumed.any fun r => r.2 = entry.1 }

end Executor

/-- What the master answers a worker's `FINISH`. -/
inductive Reply where
  | KILL
  | START_PREFIX_TASK (msg : List Char)
  /-- A message the handler does not take (it stays in the queue). -/
  | other
  deriving Repr

/-- A node running `Executor::run`: its executor, the messages it has sent, whether `run`
returned, and the master's work list (its slots and the histories written to it). -/
structure Node where
  e : Executor
  sent : List Message := []
  ended : Bool := false
  workList : Nat × List (List Char) := (0, [])

/-- The moves of the run loop. -/
inductive Event where
  /-- One turn of the inner loop. -/
  | step (instr : Instr) (mbs : Nat) (picks : List Nat) (incoming : Option Tag)
  /-- The inner loop has ended: a worker reports `FINISH` and takes the master's reply. -/
  | finish (reply : Reply)
  /-- `run` returns. -/
  | stop
  deriving Repr

namespace Node

/-- One move of the run loop; `none` when the move is not possible or an assertion fails. -/
def next (n : Node) : Event → Option Node
  | .step instr mbs picks incoming =>
    if n.ended || n.e.haltFromMaster || n.e.states.isEmpty || n.e.haltExecution then none
    else (n.e.runStep instr mbs picks incoming).map fun (e, msgs) => { n with e, sent := n.sent ++ msgs }
  | .finish reply =>
    if n.ended || n.e.haltFromMaster || !(n.e.states.isEmpty || n.e.haltExecution) then none
    else if n.e.opts.coreId = 0 then some n
    else
      let n := { n with sent := n.sent ++ [(.FINISH, [])] }
      match reply with
      | .KILL => some { n with e := { n.e with haltFromMaster := true, haltExecution := true } }
      | .START_PREFIX_TASK msg => (n.e.startPrefixTask msg).map fun e => { n with e }
      | .other => some n
  | .stop =>
    if n.ended || !n.e.haltFromMaster then none
    else
      let workList :=
        if n.e.opts.enableBranchHalt && n.e.opts.coreId = 0 then n.e.fillWorkList else n.workList
      some { n with ended := true, workList }

/-- Moves along a list of events. -/
def run (n : Node) : List Event → Option Node
  | [] => some n
  | ev :: evs => (n.next ev).bind (run · evs)

end Node

/-- The options of a master node left at their defaults. -/
def masterOptions : Options := { coreId := 0 }

/-- The configuration `run` starts from: the initial state (at pointer `0`, on the root leaf
of the process tree) carries the node's prefix `upperBound` of length `prefixDepth`, and it is
the only state of `states` and of the searcher. -/
def Node.init (opts : Options) (upperBound : List Char) (prefixDepth : Nat) : Node :=
  { e := { opts,
           heap := fun id => if id = 0 then
             some (({} : ExecutionState).addPrefix upperBound prefixDepth) else none,
           nextId := 1, states := [0], searcher := [0],
           processTree := { leaves := [(0, 0)], nextNode := 1 },
           upperBound, prefixDepth, branchLevel2Halt := opts.explorationDepth,
           errorLocations := opts.errorLocations } }

/-- The configurations a node reaches from its initial configuration. -/
inductive Reachable (init : Node) : Node → Prop where
  | init : Reachable init init
  | step {n n' : Node} (ev : Event) : Reachable init n → n.next ev = some n' → Reachable init n'

/-- The end of a run of events from a reachable configuration is reachable. -/
theorem Reachable.run {init n n' : Node} (h : Reachable init n) (evs : List Event)
    (hrun : n.run evs = some n') : Reachable init n' := by
  induction evs generalizing n with
  | nil => cases hrun; exact h
  | cons ev evs ih =>
    obtain ⟨m, hm, hrest⟩ := Option.bind_eq_some.mp hrun
    exact ih (h.step ev hm) hrest

end PChop
