import PChop.Verify.Finish
import PChop.Verify.StateTracking
import PChop.Verify.ErrorTable

/-!
# The messages of a node

## Readiness

A worker that balances load tells the master whether it can take an `OFFLOAD`: at the end of a
turn, `READY_TO_OFFLOAD` once its searcher holds eight states and `NOT_READY_TO_OFFLOAD` once it
holds fewer than four, each time setting `ready2Offload` (`updateOffloadReadiness`). The flag
also decides whether `newCheck2Offload` ships states in its `OFFLOAD_RESP`.

No other operation of the run loop writes the flag or the options (`Executor.fixed`, one frame
lemma per operation, which also keeps the instruction count and the halt flag; `Executor.Keeps`
for the operations that may halt the node). So the messages of every run pass the monitor `readinessStep`: the two
readiness messages alternate, from `READY_TO_OFFLOAD` on, an `OFFLOAD_RESP` carries states only
while the last of them was `READY_TO_OFFLOAD`, and the flag the worker holds is the one the
monitor ends with (`Reachable.opts_readiness`).

## Bug reports

A worker reports `BUG_FOUND` when an error empties its table of error locations, and halts in
the same step (`haltOnError`). No other operation reports a bug, and `haltExecution`, once set,
stays set through the rest of the turn and stops the loop. So over every run a node reports at
most one bug, only a worker does, and a worker that has reported one has halted
(`Reachable.reportsOnce`).

## The instruction budget

`stepInstruction` counts each instruction and halts the node at the count
`StopAfterNInstructions`. Every other operation keeps the count and never clears
`haltExecution`, and a turn runs only while it is clear, so a node with a budget never runs more
instructions than it (`Reachable.withinBudget`).
-/

namespace PChop

/-- The monitor of the readiness protocol, reading one message a node sends with the flag the
last readiness message set: `READY_TO_OFFLOAD` comes only while the flag is down and
`NOT_READY_TO_OFFLOAD` only while it is up, each turning it over; an `OFFLOAD_RESP` carries
states only while it is up (`x` is the answer without states); other messages pass. `none` is
a violation. -/
def readinessStep (ready : Bool) : Message → Option Bool
  | (.READY_TO_OFFLOAD, _) => if ready then none else some true
  | (.NOT_READY_TO_OFFLOAD, _) => if ready then some false else none
  | (.OFFLOAD_RESP, msg) => if ready || msg == ['x'] then some ready else none
  | _ => some ready

theorem readinessStep_pass {m : Message} (h₁ : m.1 ≠ .READY_TO_OFFLOAD)
    (h₂ : m.1 ≠ .NOT_READY_TO_OFFLOAD) (h₃ : m.1 ≠ .OFFLOAD_RESP) (ready : Bool) :
    readinessStep ready m = some ready := by
  obtain ⟨t, msg⟩ := m
  cases t <;> simp_all [readinessStep]

theorem foldlM_readinessStep_pass : ∀ {l : List Message} (ready : Bool),
    (∀ m ∈ l, readinessStep ready m = some ready) → l.foldlM readinessStep ready = some ready
  | [], _, _ => rfl
  | m :: l, ready, h => by
    rw [List.foldlM_cons, h m (List.mem_cons_self m l)]
    exact foldlM_readinessStep_pass ready fun m' hm' => h m' (List.mem_cons_of_mem m hm')

/-- `offloadFromStatesVector` selects states only while the node is ready to offload. -/
theorem ready_of_offloadFromStatesVector {haltExecution haltFromMaster ready2Offload : Bool}
    {states : List ExecutionState}
    (h : (offloadFromStatesVector haltExecution haltFromMaster ready2Offload states).1 ≠ []) :
    ready2Offload = true := by
  unfold offloadFromStatesVector at h
  split at h
  · rename_i hc
    simp only [Bool.and_eq_true] at hc
    exact hc.2
  · exact absurd rfl h

namespace Executor

/-- The options, the readiness flag, the instruction count, the halt flag, and the index of
the parked states. -/
def fixed (e : Executor) :
    Options × Bool × Nat × Bool × List (List Char × Nat) × PrefixTree :=
  (e.opts, e.ready2Offload, e.instructions, e.haltExecution, e.prefixSuspendedStatesMap,
    e.prefixTree)

/-- A field update that writes none of the options, the readiness flag, the instruction count,
the halt flag and the index. -/
@[simp] theorem fixed_mk (e : Executor) (heap : Nat → Option ExecutionState) (nextId : Nat)
    (states searcher addedStates removedStates suspendedStates resumedStates
      rangingSuspendedStates : List Nat) (processTree : PTree) (upperBound : List Char)
    (prefixDepth branchLevel2Halt : Nat) (haltFromMaster atMemoryLimit : Bool)
    (forks errorCount : Nat) (errorLocations : List (String × List Nat))
    (emittedErrors : List (Nat × String)) (cntNumStates2Offload : Nat) :
    (Executor.mk e.opts heap nextId states searcher addedStates removedStates suspendedStates
      resumedStates rangingSuspendedStates e.prefixSuspendedStatesMap e.prefixTree processTree
      upperBound prefixDepth branchLevel2Halt e.haltExecution haltFromMaster atMemoryLimit
      e.ready2Offload forks e.instructions errorCount errorLocations emittedErrors
      cntNumStates2Offload).fixed = e.fixed := rfl

/-- What the operations that may halt the node keep: the options, the readiness flag, the
instruction count, and a set `haltExecution`. -/
structure Keeps (e e' : Executor) : Prop where
  opts : e'.opts = e.opts
  ready2Offload : e'.ready2Offload = e.ready2Offload
  instructions : e'.instructions = e.instructions
  halt : e.haltExecution = true → e'.haltExecution = true

/-- What the operations of one instruction keep besides: the index of the parked states. -/
structure KeepsIndex (e e' : Executor) extends Keeps e e' : Prop where
  map : e'.prefixSuspendedStatesMap = e.prefixSuspendedStatesMap
  tree : e'.prefixTree = e.prefixTree

theorem KeepsIndex.of_fixed {e e' : Executor} (h : e'.fixed = e.fixed) : KeepsIndex e e' :=
  ⟨⟨congrArg (·.1) h, congrArg (·.2.1) h, congrArg (·.2.2.1) h,
    fun hh => (congrArg (·.2.2.2.1) h).trans hh⟩, congrArg (·.2.2.2.2.1) h,
    congrArg (·.2.2.2.2.2) h⟩

theorem Keeps.of_fixed {e e' : Executor} (h : e'.fixed = e.fixed) : Keeps e e' :=
  (KeepsIndex.of_fixed h).toKeeps

theorem Keeps.trans {e₁ e₂ e₃ : Executor} (h₁ : Keeps e₁ e₂) (h₂ : Keeps e₂ e₃) : Keeps e₁ e₃ :=
  ⟨h₂.opts.trans h₁.opts, h₂.ready2Offload.trans h₁.ready2Offload,
    h₂.instructions.trans h₁.instructions, fun h => h₂.halt (h₁.halt h)⟩

theorem KeepsIndex.trans {e₁ e₂ e₃ : Executor} (h₁ : KeepsIndex e₁ e₂) (h₂ : KeepsIndex e₂ e₃) :
    KeepsIndex e₁ e₃ :=
  ⟨h₁.toKeeps.trans h₂.toKeeps, h₂.map.trans h₁.map, h₂.tree.trans h₁.tree⟩

variable (e : Executor)

/-! ## The arena and the terminations -/

@[simp] theorem fixed_setState (id : Nat) (s : ExecutionState) :
    (e.setState id s).fixed = e.fixed := rfl

@[simp] theorem fixed_modifyState (id : Nat) (f : ExecutionState → ExecutionState) :
    (e.modifyState id f).fixed = e.fixed := by
  rw [modifyState_eq]; simp

@[simp] theorem fixed_newState (s : ExecutionState) : (e.newState s).1.fixed = e.fixed := rfl

@[simp] theorem fixed_deleteState (id : Nat) : (e.deleteState id).fixed = e.fixed := rfl

@[simp] theorem fixed_splitNode (node a b : Nat) : (e.splitNode node a b).fixed = e.fixed := by
  simp [splitNode]

@[simp] theorem fixed_terminateState (id : Nat) : (e.terminateState id).fixed = e.fixed := by
  unfold terminateState; split <;> simp

@[simp] theorem fixed_terminateStateRecursivelyAux : ∀ (fuel : Nat) (e : Executor) (id : Nat),
    (terminateStateRecursivelyAux fuel e id).fixed = e.fixed
  | 0, _, _ => rfl
  | fuel + 1, e, id => by
    unfold terminateStateRecursivelyAux
    split <;> simp [fixed_terminateStateRecursivelyAux fuel]

@[simp] theorem fixed_terminateStateOrChain (id : Nat) :
    (e.terminateStateOrChain id).fixed = e.fixed := by
  unfold terminateStateOrChain terminateStateRecursively
  split <;> (try split) <;> simp

theorem keeps_haltOnError (termReason : TerminateReason) (file : String) (line : Nat) :
    KeepsIndex e (e.haltOnError termReason file line).1 := by
  unfold haltOnError; dsimp only
  split_ifs <;> first
    | exact ⟨⟨rfl, rfl, rfl, fun h => h⟩, rfl, rfl⟩
    | exact ⟨⟨rfl, rfl, rfl, fun _ => rfl⟩, rfl, rfl⟩

theorem keeps_terminateStateOnError (id : Nat) (termReason : TerminateReason)
    (message : String) (lastInst : Nat) (file : String) (line : Nat) :
    KeepsIndex e (e.terminateStateOnError id termReason message lastInst file line).1 :=
  (KeepsIndex.of_fixed (by simp)).trans (keeps_haltOnError _ _ _ _)

@[simp] theorem fixed_killStates : ∀ (toKill : Nat) (arr picks : List Nat) (e : Executor),
    (killStates toKill arr picks e).fixed = e.fixed
  | 0, _, _, _ => by simp only [killStates]
  | _ + 1, [], _, _ => rfl
  | toKill + 1, a :: arr, picks, e => by
    simp [killStates, fixed_killStates toKill, terminateStateEarly]

@[simp] theorem fixed_checkMemoryUsage (mbs : Nat) (picks : List Nat) :
    (e.checkMemoryUsage mbs picks).fixed = e.fixed := by
  unfold checkMemoryUsage; dsimp only; split_ifs <;> simp

@[simp] theorem fixed_onRecoveryStateWrite (r : ExecutionState) (address : Nat) (v : List Nat) :
    (e.onRecoveryStateWrite r address v).fixed = e.fixed := by
  unfold onRecoveryStateWrite; split <;> simp

@[simp] theorem fixed_getAllRecoveryInfo (s : ExecutionState) (address size : Nat)
    (mods : List (Nat × Nat)) : (e.getAllRecoveryInfo s address size mods).1.fixed = e.fixed := by
  dsimp only [getAllRecoveryInfo]; split <;> (try split) <;> simp

/-! ## Recovery -/

variable {e}

theorem fixed_replicateBranchHist {src dst : Nat} {e' : Executor}
    (h : e.replicateBranchHist src dst = some e') : e'.fixed = e.fixed := by
  simp only [replicateBranchHist, Option.bind_eq_bind', Option.bind_eq_some] at h
  obtain ⟨s, -, d, -, h⟩ := h
  split at h
  · cases h; rfl
  · cases h

@[simp] theorem fixed_suspendState (id : Nat) : (e.suspendState id).fixed = e.fixed := by
  simp [suspendState]

theorem fixed_resumeState {id : Nat} {implicitlyCreated : Bool} {rec : Nat} {e' : Executor}
    (h : e.resumeState id implicitlyCreated rec = some e') : e'.fixed = e.fixed := by
  rw [fixed_replicateBranchHist h]
  split <;> simp

theorem fixed_startRecoveryState {d : Nat} {ri : RecoveryInfo} {e' : Executor}
    (h : e.startRecoveryState d ri = some e') : e'.fixed = e.fixed := by
  simp only [startRecoveryState, Option.bind_eq_bind', Option.bind_eq_some] at h
  obtain ⟨snap, -, ds, -, base, -, h⟩ := h
  rw [fixed_replicateBranchHist h]
  simp

theorem fixed_onRecoveryStateExit {rec : Nat} {e' : Executor}
    (h : e.onRecoveryStateExit rec = some e') : e'.fixed = e.fixed := by
  simp only [onRecoveryStateExit, Option.bind_eq_bind'] at h
  obtain ⟨r, -, h⟩ := Option.bind_eq_some.mp h
  obtain ⟨d, -, h⟩ := Option.bind_eq_some.mp h
  obtain ⟨ds, -, h⟩ := Option.bind_eq_some.mp h
  split at h
  · obtain ⟨e₂, h₂, h⟩ := Option.bind_eq_some.mp h
    obtain ⟨e₁, h₁, h⟩ := Option.bind_eq_some.mp h
    cases h
    rw [fixed_terminateState, fixed_startRecoveryState h₁, fixed_replicateBranchHist h₂,
      fixed_setState]
  · obtain ⟨e₁, h₁, h⟩ := Option.bind_eq_some.mp h
    cases h
    simp only [notifyDependentState, Option.bind_eq_bind', Option.bind_eq_some] at h₁
    obtain ⟨_, -, _, -, h₁⟩ := h₁
    rw [fixed_terminateState, fixed_resumeState h₁]

theorem fixed_executeSkippedCall {id f : Nat} {hasSideEffects : Bool} {e' : Executor}
    (h : e.executeSkippedCall id f hasSideEffects = some e') : e'.fixed = e.fixed := by
  simp only [executeSkippedCall, Option.bind_eq_bind', Option.bind_eq_some] at h
  obtain ⟨s, -, h⟩ := h
  split at h <;> cases h <;> simp

theorem fixed_executeLoad {id : Nat} {mayBlock hasUses : Bool} {address size : Nat}
    {mods : List (Nat × Nat)} {e' : Executor}
    (h : e.executeLoad id mayBlock hasUses address size mods = some e') : e'.fixed = e.fixed := by
  rw [executeLoad, Option.bind_eq_bind'] at h
  obtain ⟨s, -, h⟩ := Option.bind_eq_some.mp h
  generalize (if s.isNormalState && s.isInDependentMode && s.blockingLoadStatus then
      s.isMayBlockingLoad mayBlock hasUses address size else (s, false)) = p at h
  obtain ⟨s₁, req⟩ := p
  cases req
  · cases h; simp
  · simp only [↓reduceIte] at h
    split at h
    · obtain ⟨e₁, h₁, h⟩ := Option.bind_eq_some.mp h
      have h₂ := fixed_startRecoveryState h₁
      split at h <;> cases h <;> simp [h₂]
    · cases h; simp

theorem fixed_executeStore {id : Nat} {address : Nat} {v : List Nat} {mayOverride : Bool}
    {e' : Executor} (h : e.executeStore id address v mayOverride = some e') :
    e'.fixed = e.fixed := by
  simp only [executeStore, Option.bind_eq_bind', Option.bind_eq_some] at h
  obtain ⟨s, -, h⟩ := h
  cases h
  split_ifs <;> simp

/-! ## Forking -/

theorem fixed_forkChain : ∀ (fuel : Nat) (e : Executor) (cur prev : Nat) {e' : Executor}
    {last : Nat}, forkChain fuel e cur prev = some (e', last) → e'.fixed = e.fixed
  | 0, _, _, _, _, _, h => by cases h
  | fuel + 1, e, cur, prev, e', last, h => by
    simp only [forkChain, Option.bind_eq_bind', Option.bind_eq_some] at h
    obtain ⟨cs, -, h⟩ := h
    split at h
    · cases h
    split at h
    · obtain ⟨next, -, h⟩ := Option.bind_eq_some.mp h
      simpa using fixed_forkChain fuel _ _ _ h
    · cases h; simp

@[simp] theorem fixed_setOriginating : ∀ (fuel : Nat) (e : Executor) (cur orig : Nat),
    (setOriginating fuel e cur orig).fixed = e.fixed
  | 0, _, _, _ => rfl
  | fuel + 1, e, cur, orig => by
    simp only [setOriginating]
    split
    · split
      · split <;> simp [fixed_setOriginating fuel]
      · rfl
    · rfl

theorem fixed_forkDependentStates {t f : Nat} {e' : Executor}
    (h : e.forkDependentStates t f = some e') : e'.fixed = e.fixed := by
  simp only [forkDependentStates, Option.bind_eq_bind', Option.bind_eq_some] at h
  obtain ⟨ts, -, d, -, ⟨e₁, orig⟩, h₁, h⟩ := h
  cases h
  simpa using fixed_forkChain _ e _ _ h₁

@[simp] theorem fixed_mergeChain : ∀ (fuel : Nat) (e : Executor) (cur : Nat) (c : Expr),
    (mergeChain fuel e cur c).fixed = e.fixed
  | 0, _, _, _ => rfl
  | fuel + 1, e, cur, c => by
    simp only [mergeChain]
    split <;> simp [fixed_mergeChain fuel]

theorem fixed_mergeConstraintsForAll {rec : Nat} {c : Expr} {e' : Executor}
    (h : e.mergeConstraintsForAll rec c = some e') : e'.fixed = e.fixed := by
  simp only [mergeConstraintsForAll, Option.bind_eq_bind', Option.bind_eq_some] at h
  obtain ⟨_, -, _, -, _, -, h⟩ := h
  cases h
  simp

variable (e) in
@[simp] theorem fixed_forcedChoice (cur : Nat) (s : ExecutionState) (fi : ForkInput)
    (res : Validity) : (e.forcedChoice cur s fi res).1.fixed = e.fixed := by
  unfold forcedChoice; split_ifs <;> simp

variable (e) in
@[simp] theorem fixed_followBranch (cur : Nat) (fi : ForkInput) (c : Char) :
    (e.followBranch cur fi c).fixed = e.fixed := by
  unfold followBranch; split <;> simp

theorem fixed_forkStates {cur : Nat} {fi : ForkInput} {curIsTrue removePrefixes : Bool}
    {e' : Executor} {t f : Nat}
    (h : e.forkStates cur fi curIsTrue removePrefixes = some (e', t, f)) : e'.fixed = e.fixed := by
  rw [forkStates] at h
  obtain ⟨⟨e₁, new⟩, hb, h⟩ := Option.bind_eq_some.mp h
  obtain ⟨cs₀, -, hb⟩ := Option.map_eq_some'.mp hb
  have h₁ : e₁.fixed = e.fixed := by
    rw [← show (e.newState cs₀).1 = e₁ from congrArg Prod.fst hb]; rfl
  dsimp only at h
  generalize (if curIsTrue = true then (cur, new) else (new, cur)) = p at h
  obtain ⟨t₀, f₀⟩ := p
  obtain ⟨cs, -, h⟩ := Option.bind_eq_some.mp h
  split at h
  · obtain ⟨e₃, h₃, h⟩ := Option.bind_eq_some.mp h
    obtain ⟨e₄, h₄, h⟩ := Option.bind_eq_some.mp h
    obtain ⟨e₅, h₅, h⟩ := Option.bind_eq_some.mp h
    cases h
    rw [fixed_mergeConstraintsForAll h₅, fixed_mergeConstraintsForAll h₄,
      fixed_forkDependentStates h₃]
    split_ifs <;> simp [h₁]
  · cases h; split_ifs <;> simp [h₁]

theorem fixed_fork {cur : Nat} {fi : ForkInput} {e' : Executor} {t f : Option Nat}
    (h : e.fork cur fi = some (e', t, f)) : e'.fixed = e.fixed := by
  rw [fork] at h
  obtain ⟨s, -, h⟩ := Option.bind_eq_some.mp h
  obtain ⟨dec, -, h⟩ := Option.bind_eq_some.mp h
  split at h
  · cases h; simp [terminateStateEarly]
  rename_i res forkAndSuspend
  dsimp only at h
  have h₁ := fixed_forcedChoice e cur s fi res
  generalize e.forcedChoice cur s fi res = p at h h₁
  obtain ⟨e₁, res'⟩ := p
  dsimp only at h₁
  split at h <;>
    first
    | (cases h; simp [h₁])
    | (obtain ⟨⟨e₂, t₂, f₂⟩, h₂, h⟩ := Option.bind_eq_some.mp h
       cases h
       simpa [h₁] using fixed_forkStates h₂)

/-! ## Multi-way branches -/

theorem fixed_branchCopies : ∀ (n : Nat) (e : Executor) (result : List Nat)
    (addStates : Bool) {e' : Executor} {result' : List Nat},
    branchCopies n e result addStates = some (e', result') → e'.fixed = e.fixed
  | 0, e, _, _, _, _, h => by cases h; rfl
  | n + 1, e, result, addStates, e', result', h => by
    rw [branchCopies] at h
    obtain ⟨es, -, h⟩ := Option.bind_eq_some.mp h
    obtain ⟨⟨e₁, ns⟩, hb, h⟩ := Option.bind_eq_some.mp h
    obtain ⟨s₀, -, hb⟩ := Option.map_eq_some'.mp hb
    have h₁ : e₁.fixed = e.fixed := by
      rw [← show (e.newState s₀).1 = e₁ from congrArg Prod.fst hb]; rfl
    dsimp only at h
    obtain ⟨s, -, h⟩ := Option.bind_eq_some.mp h
    rw [fixed_branchCopies n _ _ _ h]
    split_ifs <;> simp [h₁]

theorem fixed_eraseChain : ∀ (fuel : Nat) (e e' : Executor) (cur : Nat),
    eraseChain fuel e cur = some e' → e'.fixed = e.fixed
  | 0, _, _, _, h => by cases h
  | fuel + 1, e, e', cur, h => by
    rw [eraseChain] at h
    split at h
    · cases h
    split at h
    · exact (fixed_eraseChain fuel _ e' _ h :)
    · cases h; rfl

theorem fixed_rangeCases {result : List Nat} {e' : Executor}
    (h : e.rangeCases result = some e') : e'.fixed = e.fixed := by
  rw [rangeCases] at h
  obtain ⟨s₀, -, h⟩ := Option.bind_eq_some.mp h
  obtain ⟨r₀, -, h⟩ := Option.bind_eq_some.mp h
  split at h
  · obtain ⟨searcher, -, h⟩ := Option.bind_eq_some.mp h
    split at h
    · cases h
    · cases h; rfl
  · split at h
    · cases h; rfl
    · obtain ⟨searcher, -, h⟩ := Option.bind_eq_some.mp h
      exact (fixed_eraseChain _ _ _ _ h :)

theorem fixed_branchTail : ∀ (pairs : List (Option Nat × Expr)) (prev : Option Nat)
    (e e' : Executor), branchTail pairs prev e = some e' → e'.fixed = e.fixed
  | [], _, e, _, h => by cases h; rfl
  | (current, c) :: rest, prev, e, e', h => by
    simp only [branchTail] at h
    cases current with
    | none => exact fixed_branchTail rest none e e' h
    | some id =>
      obtain ⟨s, -, h⟩ := Option.bind_eq_some.mp h
      split at h
      · obtain ⟨e₁, h₁, h⟩ := Option.bind_eq_some.mp h
        exact (fixed_branchTail rest _ _ _ h).trans (fixed_forkDependentStates h₁)
      · exact fixed_branchTail rest _ e e' h

theorem fixed_branchConstraints : ∀ (pairs : List (Option Nat × Expr)) (e e' : Executor),
    branchConstraints pairs e = some e' → e'.fixed = e.fixed
  | [], e, _, h => by cases h; rfl
  | (none, _) :: rest, e, e', h =>
    fixed_branchConstraints rest e e' (by simpa [branchConstraints] using h)
  | (some id, c) :: rest, e, e', h => by
    simp only [branchConstraints, Option.bind_eq_bind', Option.bind_eq_some] at h
    obtain ⟨s, -, h⟩ := h
    split at h
    · obtain ⟨e₁, h₁, h⟩ := Option.bind_eq_some.mp h
      simpa [fixed_mergeConstraintsForAll h₁] using fixed_branchConstraints rest e₁ e' h
    · exact (fixed_branchConstraints rest _ e' (by simpa using h)).trans (fixed_modifyState e id _)

theorem fixed_branch {cur : Nat} {conditions : List Expr} {rng : Nat} {e' : Executor}
    {result : List (Option Nat)} (h : e.branch cur conditions rng = some (e', result)) :
    e'.fixed = e.fixed := by
  rw [branch] at h
  split at h
  · cases h
  obtain ⟨s, -, h⟩ := Option.bind_eq_some.mp h
  -- the end of `branch`: the last two loops
  have hend : ∀ {e₁ : Executor} {res : List (Option Nat)},
      (do let e ← branchTail (res.zip conditions) none e₁
          let e ← branchConstraints (res.zip conditions) e
          some (e, res)) = some (e', result) → e'.fixed = e₁.fixed := by
    intro e₁ res h
    obtain ⟨e₂, h₂, h⟩ := Option.bind_eq_some.mp h
    obtain ⟨e₃, h₃, h⟩ := Option.bind_eq_some.mp h
    cases h
    exact (fixed_branchConstraints _ _ _ h₃).trans (fixed_branchTail _ _ _ _ h₂)
  dsimp only at h
  split at h
  · obtain ⟨y, hy, h⟩ := Option.bind_eq_some.mp h
    cases hy; exact hend h
  split at h
  · obtain ⟨⟨e₄, res₄⟩, h₄, h⟩ := Option.bind_eq_some.mp h
    obtain ⟨y, hy, h⟩ := Option.bind_eq_some.mp h
    cases hy
    exact (hend h).trans (fixed_branchCopies _ _ _ _ h₄ :)
  · obtain ⟨⟨e₄, res₄⟩, h₄, h⟩ := Option.bind_eq_some.mp h
    obtain ⟨e₅, h₅, h⟩ := Option.bind_eq_some.mp h
    obtain ⟨y, hy, h⟩ := Option.bind_eq_some.mp h
    cases hy
    exact ((hend h).trans (fixed_rangeCases h₅)).trans (fixed_branchCopies _ _ _ _ h₄ :)

/-! ## The run loop -/

/-- The instruction of a turn keeps the options, the readiness flag, the instruction count and
the index; only an error may halt the node. -/
theorem keeps_executeInstruction {id : Nat} {instr : Instr} {r : Executor × List Message}
    (h : e.executeInstruction id instr = some r) : KeepsIndex e r.1 := by
  cases instr with
  | plain => cases h; exact .of_fixed rfl
  | fork fi =>
    obtain ⟨⟨e₁, t, f⟩, h₁, rfl⟩ := Option.map_eq_some'.mp h
    exact .of_fixed (fixed_fork h₁)
  | switch conditions rng =>
    obtain ⟨⟨e₁, res⟩, h₁, rfl⟩ := Option.map_eq_some'.mp h
    exact .of_fixed (fixed_branch h₁)
  | call f hasSideEffects =>
    obtain ⟨e₁, h₁, rfl⟩ := Option.map_eq_some'.mp h
    exact .of_fixed (fixed_executeSkippedCall h₁)
  | load mayBlock hasUses address size mods =>
    obtain ⟨e₁, h₁, rfl⟩ := Option.map_eq_some'.mp h
    exact .of_fixed (fixed_executeLoad h₁)
  | store address v mayOverride =>
    obtain ⟨e₁, h₁, rfl⟩ := Option.map_eq_some'.mp h
    exact .of_fixed (fixed_executeStore h₁)
  | exit => cases h; exact .of_fixed (fixed_terminateStateOrChain e id)
  | error termReason message lastInst file line =>
    cases h; exact keeps_terminateStateOnError e id termReason message lastInst file line
  | early => cases h; exact .of_fixed (fixed_terminateStateOrChain e id)
  | recoveryExit =>
    simp only [executeInstruction] at h
    split at h
    · split at h
      · obtain ⟨e₁, h₁, rfl⟩ := Option.map_eq_some'.mp h
        exact .of_fixed (fixed_onRecoveryStateExit h₁)
      · cases h; exact .of_fixed rfl
    · cases h
  | resolve fis incomplete lastInst file line =>
    obtain ⟨e₁, u, h₁, hr⟩ := executeResolution_cases _ h
    have h₁ := (resolveStates_induct (fun e' _ => e'.fixed = e.fixed) (·.fixed = e.fixed)
      (fun _ _ h => h) (fun _ _ _ _ _ _ h hf =>
        ⟨(fixed_fork hf).trans h, fun _ _ => (fixed_fork hf).trans h⟩) fis e id rfl h₁).1
    rcases hr with ⟨-, rfl⟩ | ⟨x, -, ⟨-, rfl⟩ | ⟨-, rfl⟩⟩
    · exact .of_fixed h₁
    · exact .of_fixed ((fixed_terminateStateOrChain _ x).trans h₁)
    · exact (KeepsIndex.of_fixed h₁).trans (keeps_terminateStateOnError _ x _ _ _ _ _)

variable (e) in
theorem keeps_indexSuspended (id : Nat) : Keeps e (e.indexSuspended id) :=
  (Keeps.of_fixed (fixed_modifyState e id _)).trans ⟨rfl, rfl, rfl, fun h => h⟩

theorem keeps_foldl_indexSuspended : ∀ (l : List Nat) (e : Executor),
    Keeps e (l.foldl indexSuspended e)
  | [], _ => ⟨rfl, rfl, rfl, id⟩
  | id :: l, e => (keeps_indexSuspended e id).trans (keeps_foldl_indexSuspended l _)

theorem fixed_removeState {es : Nat} {e' : Executor} (h : e.removeState es = some e') :
    e'.fixed = e.fixed := by
  unfold removeState at h
  split at h
  · cases h; rfl
  · split at h
    · split at h
      · cases h; rfl
      · cases h
    · cases h

/-- `newCheck2Offload` ships states only while the node is ready to offload. -/
theorem newCheck2Offload_readiness {incoming : Option Tag} {r : Executor × List Message}
    (h : e.newCheck2Offload incoming = some r) :
    KeepsIndex e r.1 ∧ r.2.foldlM readinessStep e.ready2Offload = some e.ready2Offload := by
  unfold newCheck2Offload at h
  dsimp only at h
  split at h
  · split at h
    · cases h; exact ⟨.of_fixed rfl, by simp [readinessStep]⟩
    · rename_i hne
      obtain ⟨_, -, h⟩ := Option.bind_eq_some.mp h
      obtain ⟨_, -, h⟩ := Option.bind_eq_some.mp h
      cases h
      have hr := ready_of_offloadFromStatesVector fun h => hne (List.isEmpty_iff.mpr h)
      exact ⟨.of_fixed rfl, by simp [readinessStep, hr]⟩
  · cases h; exact ⟨⟨⟨rfl, rfl, rfl, fun _ => rfl⟩, rfl, rfl⟩, rfl⟩
  · cases h; exact ⟨.of_fixed rfl, rfl⟩

theorem updateStates_readiness {incoming : Option Tag} {r : Executor × List Message}
    (h : e.updateStates incoming = some r) :
    Keeps e r.1 ∧ r.2.foldlM readinessStep e.ready2Offload = some e.ready2Offload := by
  simp only [updateStates, Option.bind_eq_bind', Option.bind_eq_some] at h
  obtain ⟨_, -, _, -, _, -, e₄, h₄, h⟩ := h
  have hk₄ : Keeps e { e₄ with removedStates := [] } := by
    refine Keeps.trans (foldlM_invariant (Keeps e)
      (fun _ _ _ h hp => hp.trans (.of_fixed (fixed_removeState h))) _ _ _ h₄ ?_) ⟨rfl, rfl, rfl, id⟩
    refine Keeps.trans ?_ ((keeps_foldl_indexSuspended _ _).trans ⟨rfl, rfl, rfl, id⟩)
    exact ⟨rfl, rfl, rfl, id⟩
  split at h
  · obtain ⟨hk, hm⟩ := newCheck2Offload_readiness h
    exact ⟨hk₄.trans hk.toKeeps, hk₄.ready2Offload ▸ hm⟩
  · cases h; exact ⟨hk₄, rfl⟩

variable (e) in
/-- The hysteresis turns the flag over exactly when it sends a readiness message. -/
theorem updateOffloadReadiness_readiness :
    e.updateOffloadReadiness.1.opts = e.opts ∧
      e.updateOffloadReadiness.2.foldlM readinessStep e.ready2Offload =
        some e.updateOffloadReadiness.1.ready2Offload := by
  unfold updateOffloadReadiness
  split_ifs <;> simp_all [readinessStep]

/-- The three ways a turn goes: under `enableBranchHalt` the master halts, or a worker prunes
the selected state; otherwise the selected state executes its instruction, and the updates of
the turn follow. -/
theorem runStep_cases {instr : Instr} {mbs : Nat} {picks : List Nat} {incoming : Option Tag}
    {r : Executor × List Message} (h : e.runStep instr mbs picks incoming = some r) :
    r = ({ e with haltExecution := true, haltFromMaster := true,
                  cntNumStates2Offload := e.numNotSuspended }, []) ∨
      (∃ searcher states, r = ({ e with searcher, states }, [])) ∨
      ∃ sel e₁ sent₁ e₂ sent₂ c,
        e.stepInstruction.executeInstruction sel instr = some (e₁, sent₁) ∧
        (e₁.checkMemoryUsage mbs picks).updateStates incoming = some (e₂, sent₂) ∧
        r = ({ e₂.updateOffloadReadiness.1 with cntNumStates2Offload := c },
          sent₁ ++ sent₂ ++ e₂.updateOffloadReadiness.2) := by
  simp only [runStep, Option.bind_eq_bind', Option.bind_eq_some] at h
  obtain ⟨sel, -, s, -, h⟩ := h
  split at h
  · cases h; exact .inl rfl
  split at h
  · obtain ⟨_, -, h⟩ := Option.bind_eq_some.mp h
    split at h
    · cases h
    · cases h; exact .inr (.inl ⟨_, _, rfl⟩)
  obtain ⟨⟨e₁, sent₁⟩, h₁, h⟩ := Option.bind_eq_some.mp h
  obtain ⟨⟨e₂, sent₂⟩, h₂, h⟩ := Option.bind_eq_some.mp h
  cases h
  exact .inr (.inr ⟨sel, e₁, sent₁, e₂, sent₂, _, h₁, h₂, rfl⟩)

/-- A turn of the inner loop keeps the options, and the messages it sends pass the monitor
from the flag at its top to the flag at its end. -/
theorem runStep_readiness {instr : Instr} {mbs : Nat} {picks : List Nat}
    {incoming : Option Tag} {r : Executor × List Message}
    (h : e.runStep instr mbs picks incoming = some r) :
    r.1.opts = e.opts ∧ r.2.foldlM readinessStep e.ready2Offload = some r.1.ready2Offload := by
  rcases runStep_cases h with rfl | ⟨_, _, rfl⟩ | ⟨_, e₁, sent₁, e₂, sent₂, _, h₁, h₂, rfl⟩
  · exact ⟨rfl, rfl⟩
  · exact ⟨rfl, rfl⟩
  have hk₁ : Keeps e.stepInstruction e₁ := (keeps_executeInstruction h₁).toKeeps
  obtain ⟨hk₂, hm₂⟩ := updateStates_readiness h₂
  have hk : Keeps e.stepInstruction e₂ :=
    (hk₁.trans (.of_fixed (fixed_checkMemoryUsage _ _ _))).trans hk₂
  have hm₁ : sent₁.foldlM readinessStep e.ready2Offload = some e.ready2Offload :=
    foldlM_readinessStep_pass _ fun m hm => by
      have ht := executeInstruction_sent _ h₁ m hm
      exact readinessStep_pass (by simp [ht]) (by simp [ht]) (by simp [ht]) _
  have hr : (e₁.checkMemoryUsage mbs picks).ready2Offload = e.ready2Offload :=
    (Keeps.of_fixed (fixed_checkMemoryUsage _ _ _)).ready2Offload.trans hk₁.ready2Offload
  obtain ⟨ho₃, hm₃⟩ := updateOffloadReadiness_readiness e₂
  rw [hr] at hm₂
  rw [hk.ready2Offload] at hm₃
  refine ⟨ho₃.trans hk.opts, ?_⟩
  simp only [List.foldlM_append, hm₁, hm₂, Option.bind_eq_bind', Option.some_bind]
  exact hm₃

theorem fixed_resumePrefix {acc acc' : Executor × List (Nat × List Char)} {recvP : List Char}
    (h : resumePrefix acc recvP = some acc') : acc'.1.fixed = acc.1.fixed := by
  obtain ⟨e, resumed⟩ := acc
  simp only [resumePrefix, Option.bind_eq_bind', Option.bind_eq_some] at h
  obtain ⟨_, -, h⟩ := h
  cases h
  simp

theorem fixed_foldlM_resumePrefix {l : List (List Char)} {acc acc' : Executor × List (Nat × List Char)}
    (h : l.foldlM resumePrefix acc = some acc') : acc'.1.fixed = acc.1.fixed :=
  foldlM_invariant (fun a : Executor × List (Nat × List Char) => a.1.fixed = acc.1.fixed)
    (fun _ _ _ h hp => (fixed_resumePrefix h).trans hp) _ _ _ h rfl

theorem keeps_startPrefixTask {msg : List Char} {e' : Executor}
    (h : e.startPrefixTask msg = some e') : Keeps e e' := by
  simp only [startPrefixTask] at h
  obtain ⟨⟨e₁, resumed⟩, h₁, h⟩ := Option.bind_eq_some.mp h
  obtain ⟨_, -, h⟩ := Option.bind_eq_some.mp h
  cases h
  refine Keeps.trans ?_ ((Keeps.of_fixed (fixed_foldlM_resumePrefix h₁)).trans ⟨rfl, rfl, rfl, id⟩)
  exact ⟨rfl, rfl, rfl, id⟩

end Executor

namespace Node

variable {n n' : Node}

/-- A turn runs only on a node that has not halted, and sends what `runStep` sends. -/
theorem next_step_cases {instr : Instr} {mbs : Nat} {picks : List Nat} {incoming : Option Tag}
    (h : n.next (.step instr mbs picks incoming) = some n') :
    n.e.haltExecution = false ∧
      ∃ msgs, n.e.runStep instr mbs picks incoming = some (n'.e, msgs) ∧ n'.sent = n.sent ++ msgs := by
  simp only [next] at h
  split at h
  · cases h
  rename_i hguard
  obtain ⟨⟨e', msgs⟩, hr, rfl⟩ := Option.map_eq_some'.mp h
  exact ⟨Bool.eq_false_iff.mpr fun hh => hguard (by simp [hh]), msgs, hr, rfl⟩

/-- The finish move keeps the options, the readiness flag and the instruction count (a `KILL`
halts the node), and sends `FINISH` or nothing. -/
theorem next_finish_cases {reply : Reply} (h : n.next (.finish reply) = some n') :
    Executor.Keeps n.e n'.e ∧ (n'.sent = n.sent ∨ n'.sent = n.sent ++ [(Tag.FINISH, [])]) := by
  simp only [next] at h
  split at h
  · cases h
  split at h
  · cases h; exact ⟨.of_fixed rfl, .inl rfl⟩
  split at h
  · cases h; exact ⟨⟨rfl, rfl, rfl, fun _ => rfl⟩, .inr rfl⟩
  · obtain ⟨e', he', rfl⟩ := Option.map_eq_some'.mp h
    exact ⟨Executor.keeps_startPrefixTask he', .inr rfl⟩
  · cases h; exact ⟨.of_fixed rfl, .inr rfl⟩

theorem next_stop_eq (h : n.next .stop = some n') : n'.e = n.e ∧ n'.sent = n.sent := by
  simp only [next] at h
  split at h
  · cases h
  · cases h; exact ⟨rfl, rfl⟩

/-- One move keeps the options, and the messages it sends pass the monitor from the flag
before it to the flag after it. -/
theorem next_readiness {ev : Event} (h : n.next ev = some n') :
    n'.e.opts = n.e.opts ∧ ∀ ready, n.sent.foldlM readinessStep ready = some n.e.ready2Offload →
      n'.sent.foldlM readinessStep ready = some n'.e.ready2Offload := by
  cases ev with
  | step instr mbs picks incoming =>
    obtain ⟨-, msgs, hr, hs⟩ := next_step_cases h
    obtain ⟨ho, hm⟩ := Executor.runStep_readiness hr
    refine ⟨ho, fun ready hn => ?_⟩
    rw [hs, List.foldlM_append, hn]
    exact hm
  | finish reply =>
    -- the worker reports `FINISH`, which the monitor passes, and takes the reply
    obtain ⟨hk, hs⟩ := next_finish_cases h
    refine ⟨hk.opts, fun ready hn => ?_⟩
    rw [hk.ready2Offload]
    rcases hs with hs | hs <;> rw [hs]
    · exact hn
    · rw [List.foldlM_append, hn]; rfl
  | stop =>
    obtain ⟨he, hs⟩ := next_stop_eq h
    exact ⟨congrArg Executor.opts he, fun _ hn => by rw [he, hs]; exact hn⟩

end Node

/-- In every reachable configuration of a node, the options are those it started with, and the
messages it has sent pass the readiness monitor, which ends with the flag `ready2Offload` the
node holds: the readiness messages alternate from `READY_TO_OFFLOAD` on, and every
`OFFLOAD_RESP` that carries states was sent while the last of them was `READY_TO_OFFLOAD`. -/
theorem Reachable.opts_readiness {opts : Options} {upperBound : List Char} {prefixDepth : Nat}
    {n : Node} (h : Reachable (Node.init opts upperBound prefixDepth) n) :
    n.e.opts = opts ∧ n.sent.foldlM readinessStep false = some n.e.ready2Offload := by
  induction h with
  | init => exact ⟨rfl, rfl⟩
  | step ev _ hn ih =>
    obtain ⟨ho, hm⟩ := Node.next_readiness hn
    exact ⟨ho.trans ih.1, hm false ih.2⟩

/-- The messages every reachable configuration of a node has sent pass the readiness monitor,
which ends with the flag `ready2Offload` the node holds. -/
theorem sent_passes_readinessMonitor {opts : Options} {upperBound : List Char}
    {prefixDepth : Nat} {n : Node} (h : Reachable (Node.init opts upperBound prefixDepth) n) :
    n.sent.foldlM readinessStep false = some n.e.ready2Offload :=
  h.opts_readiness.2

/-- The worker of `offloadTrace` says it is ready, ships two states, and withdraws. -/
theorem sent_passes_readinessMonitor_offloadTrace :
    ∃ n, Reachable (Node.init offloadWorker ['2'] 1) n ∧
      n.sent.map Prod.fst = [.READY_TO_OFFLOAD, .OFFLOAD_RESP, .NOT_READY_TO_OFFLOAD] ∧
      n.sent.foldlM readinessStep false = some n.e.ready2Offload := by
  obtain ⟨n, hn⟩ : ∃ n, (Node.init offloadWorker ['2'] 1).run offloadTrace = some n := ⟨_, rfl⟩
  have h := (Reachable.init : Reachable (Node.init offloadWorker ['2'] 1) _).run offloadTrace hn
  refine ⟨n, h, ?_, sent_passes_readinessMonitor h⟩
  rw [Option.some.inj (hn.symm.trans rfl)]
  rfl

/-! ## Bug reports -/

/-- The bug reports among messages. -/
def bugReports (msgs : List Message) : Nat := msgs.countP (·.1 == .BUG_FOUND)

/-- A node, or the result of a move, with at most one bug report, and one only from a worker
that has halted. -/
def ReportsOnce (r : Executor × List Message) : Prop :=
  bugReports r.2 ≤ 1 ∧ (0 < bugReports r.2 → r.1.haltExecution = true ∧ r.1.opts.coreId ≠ 0)

theorem bugReports_eq_zero {msgs : List Message} (h : ∀ m ∈ msgs, m.1 ≠ .BUG_FOUND) :
    bugReports msgs = 0 :=
  List.countP_eq_zero.mpr fun m hm => by simpa using h m hm

@[simp] theorem bugReports_append (a b : List Message) :
    bugReports (a ++ b) = bugReports a + bugReports b :=
  List.countP_append _ _ _

theorem ReportsOnce.of_nil (e : Executor) : ReportsOnce (e, []) := by simp [ReportsOnce, bugReports]

namespace Executor

variable (e : Executor)

theorem reportsOnce_haltOnError (termReason : TerminateReason) (file : String) (line : Nat) :
    ReportsOnce (e.haltOnError termReason file line) := by
  unfold haltOnError; dsimp only
  split_ifs <;> first
    | exact ReportsOnce.of_nil _
    | exact ⟨Nat.le_refl 1, fun _ => ⟨rfl, ‹_›⟩⟩

@[simp] theorem haltExecution_updateOffloadReadiness :
    e.updateOffloadReadiness.1.haltExecution = e.haltExecution := by
  unfold updateOffloadReadiness; split_ifs <;> rfl

variable {e}

theorem reportsOnce_executeInstruction {id : Nat} {instr : Instr} {r : Executor × List Message}
    (h : e.executeInstruction id instr = some r) : ReportsOnce r := by
  cases instr with
  | error termReason message lastInst file line => cases h; exact reportsOnce_haltOnError _ _ _ _
  | resolve fis incomplete lastInst file line =>
    obtain ⟨e₁, u, -, (⟨-, rfl⟩ | ⟨x, -, ⟨-, rfl⟩ | ⟨-, rfl⟩⟩)⟩ := executeResolution_cases _ h
    · exact ReportsOnce.of_nil _
    · exact ReportsOnce.of_nil _
    · exact reportsOnce_haltOnError _ _ _ _
  | recoveryExit =>
    simp only [executeInstruction] at h
    split at h
    · split at h
      · obtain ⟨_, -, rfl⟩ := Option.map_eq_some'.mp h; exact ReportsOnce.of_nil _
      · cases h; exact ReportsOnce.of_nil _
    · cases h
  | _ =>
    simp only [executeInstruction] at h
    first
      | (obtain ⟨_, -, rfl⟩ := Option.map_eq_some'.mp h; exact ReportsOnce.of_nil _)
      | (cases h; exact ReportsOnce.of_nil _)

/-- A turn of the inner loop reports at most one bug, from the instruction it executes, and
only after halting a worker. -/
theorem reportsOnce_runStep {instr : Instr} {mbs : Nat} {picks : List Nat}
    {incoming : Option Tag} {r : Executor × List Message}
    (h : e.runStep instr mbs picks incoming = some r) : ReportsOnce r := by
  rcases runStep_cases h with rfl | ⟨_, _, rfl⟩ | ⟨_, e₁, sent₁, e₂, sent₂, _, h₁, h₂, rfl⟩
  · exact ReportsOnce.of_nil _
  · exact ReportsOnce.of_nil _
  obtain ⟨hb₁, hh₁⟩ := reportsOnce_executeInstruction h₁
  -- the rest of the turn reports no bug and keeps the halt and the options
  have h₂₀ : bugReports sent₂ = 0 :=
    bugReports_eq_zero fun m hm => by simp [updateStates_sent _ h₂ m hm]
  have h₃₀ : bugReports e₂.updateOffloadReadiness.2 = 0 :=
    bugReports_eq_zero fun m hm => by
      rcases updateOffloadReadiness_sent _ m hm with h | h <;> simp [h]
  have hb : bugReports (sent₁ ++ sent₂ ++ e₂.updateOffloadReadiness.2) = bugReports sent₁ := by
    simp only [bugReports_append, h₂₀, h₃₀, Nat.add_zero]
  have hk : Keeps e₁ e₂ :=
    (Keeps.of_fixed (fixed_checkMemoryUsage _ _ _)).trans (updateStates_readiness h₂).1
  refine ⟨hb ▸ hb₁, fun hpos => ?_⟩
  obtain ⟨hh, hc⟩ := hh₁ (hb ▸ hpos)
  refine ⟨?_, ?_⟩
  · show e₂.updateOffloadReadiness.1.haltExecution = true
    rw [haltExecution_updateOffloadReadiness]
    exact hk.halt hh
  · show e₂.updateOffloadReadiness.1.opts.coreId ≠ 0
    rw [(updateOffloadReadiness_readiness e₂).1, hk.opts]
    exact hc

end Executor

namespace Node

variable {n n' : Node}

/-- One move keeps a node that reports at most one bug, and one only from a worker that has
halted: a turn runs only while the node has not halted, so before it no bug was reported. -/
theorem next_reportsOnce {ev : Event} (h : n.next ev = some n')
    (hn : ReportsOnce (n.e, n.sent)) : ReportsOnce (n'.e, n'.sent) := by
  cases ev with
  | step instr mbs picks incoming =>
    obtain ⟨hh₀, msgs, hr, hs⟩ := next_step_cases h
    have h0 : bugReports n.sent = 0 :=
      Nat.eq_zero_of_not_pos fun hpos => Bool.false_ne_true (hh₀.symm.trans (hn.2 hpos).1)
    obtain ⟨hb, hh⟩ := Executor.reportsOnce_runStep hr
    have hs' : bugReports n'.sent = bugReports msgs := by
      rw [hs, bugReports_append, h0, Nat.zero_add]
    exact ⟨hs' ▸ hb, fun hpos => hh (hs' ▸ hpos)⟩
  | finish reply =>
    -- the worker reports `FINISH` and takes the reply, which keeps the halt and the options
    obtain ⟨hk, hs⟩ := next_finish_cases h
    have hs' : bugReports n'.sent = bugReports n.sent := by
      rcases hs with hs | hs <;> rw [hs]
      rw [bugReports_append]; rfl
    exact ⟨hs' ▸ hn.1, fun hpos => by
      obtain ⟨h₁, h₂⟩ := hn.2 (hs' ▸ hpos)
      exact ⟨hk.halt h₁, hk.opts ▸ h₂⟩⟩
  | stop =>
    obtain ⟨he, hs⟩ := next_stop_eq h
    rw [he, hs]; exact hn

end Node

theorem Reachable.reportsOnce {opts : Options} {upperBound : List Char} {prefixDepth : Nat}
    {n : Node} (h : Reachable (Node.init opts upperBound prefixDepth) n) :
    ReportsOnce (n.e, n.sent) := by
  induction h with
  | init => exact ReportsOnce.of_nil _
  | step ev _ hn ih => exact Node.next_reportsOnce hn ih

/-- Over every run a node reports at most one bug; only a worker reports one, and a worker that
has reported one has halted. -/
theorem bugFound_reported_once {opts : Options} {upperBound : List Char} {prefixDepth : Nat}
    {n : Node} (h : Reachable (Node.init opts upperBound prefixDepth) n) :
    bugReports n.sent ≤ 1 ∧ (0 < bugReports n.sent → opts.coreId ≠ 0 ∧ n.e.haltExecution = true) :=
  ⟨h.reportsOnce.1, fun hpos =>
    ⟨h.opts_readiness.1 ▸ (h.reportsOnce.2 hpos).2, (h.reportsOnce.2 hpos).1⟩⟩

/-- A worker whose one error location is line `7` of `a.c`, with out-of-bound pointer errors
ending execution. -/
def bugWorker : Options :=
  { coreId := 1, ExitOnErrorType := [.Ptr], errorLocations := [("a.c", [7])] }

/-- The worker's error at line `7` of `a.c` empties its table: it reports the bug, halts, and
reports `FINISH`, to which the master answers `KILL`. -/
theorem bugFound_reported_once_bugWorker :
    ∃ n, Reachable (Node.init bugWorker [] 0) n ∧
      n.sent = [(.BUG_FOUND, []), (.FINISH, [])] ∧ bugReports n.sent ≤ 1 ∧
      (0 < bugReports n.sent → bugWorker.coreId ≠ 0 ∧ n.e.haltExecution = true) := by
  obtain ⟨n, hn⟩ : ∃ n, (Node.init bugWorker [] 0).run
      [.step (.error .Ptr "m" 0 "a.c" 7) 0 [] none, .finish .KILL] = some n := ⟨_, rfl⟩
  have h := (Reachable.init : Reachable (Node.init bugWorker [] 0) _).run _ hn
  refine ⟨n, h, ?_, bugFound_reported_once h⟩
  rw [Option.some.inj (hn.symm.trans rfl)]
  rfl


/-! ## The instruction budget -/

/-- The budget `StopAfterNInstructions` of a node: it has run at most that many instructions,
and it has halted once it has run that many. -/
def WithinBudget (e : Executor) : Prop :=
  e.instructions ≤ e.opts.StopAfterNInstructions ∧
    (e.instructions = e.opts.StopAfterNInstructions → e.haltExecution = true)

namespace WithinBudget

variable {e : Executor}

theorem keeps {e' : Executor} (hb : WithinBudget e) (hk : Executor.Keeps e e') :
    WithinBudget e' := by
  unfold WithinBudget
  rw [hk.opts, hk.instructions]
  exact ⟨hb.1, fun h => hk.halt (hb.2 h)⟩

/-- The instruction that uses the budget up halts the node. -/
theorem stepInstruction (hb : WithinBudget e) (hh : e.haltExecution = false) :
    WithinBudget e.stepInstruction := by
  have hlt : e.instructions < e.opts.StopAfterNInstructions :=
    Nat.lt_of_le_of_ne hb.1 fun h => Bool.false_ne_true (hh.symm.trans (hb.2 h))
  refine ⟨hlt, fun h => ?_⟩
  show (e.haltExecution || decide (e.instructions + 1 = e.opts.StopAfterNInstructions)) = true
  rw [Bool.or_eq_true]
  exact .inr (decide_eq_true h)

/-- A turn on a node that has not halted keeps it within its budget. -/
theorem runStep {instr : Instr} {mbs : Nat} {picks : List Nat} {incoming : Option Tag}
    {r : Executor × List Message} (h : e.runStep instr mbs picks incoming = some r)
    (hb : WithinBudget e) (hh : e.haltExecution = false) : WithinBudget r.1 := by
  rcases Executor.runStep_cases h with rfl | ⟨_, _, rfl⟩ | ⟨_, e₁, sent₁, e₂, sent₂, _, h₁, h₂, rfl⟩
  · exact ⟨hb.1, fun _ => rfl⟩
  · exact hb
  have hb₂ : WithinBudget e₂ :=
    ((hb.stepInstruction hh).keeps (Executor.keeps_executeInstruction h₁).toKeeps).keeps
      ((Executor.Keeps.of_fixed (Executor.fixed_checkMemoryUsage _ _ _)).trans
        (Executor.updateStates_readiness h₂).1)
  have hb₃ : WithinBudget e₂.updateOffloadReadiness.1 := by
    unfold Executor.updateOffloadReadiness; split_ifs <;> exact hb₂
  exact hb₃

end WithinBudget

theorem Node.next_withinBudget {n n' : Node} {ev : Event} (h : n.next ev = some n')
    (hb : WithinBudget n.e) : WithinBudget n'.e := by
  cases ev with
  | step instr mbs picks incoming =>
    obtain ⟨hh, msgs, hr, -⟩ := Node.next_step_cases h
    exact hb.runStep hr hh
  | finish reply => exact hb.keeps (Node.next_finish_cases h).1
  | stop => rw [(Node.next_stop_eq h).1]; exact hb

/-- A node started with a budget stays within it over every run. -/
theorem Reachable.withinBudget {opts : Options} {upperBound : List Char} {prefixDepth : Nat}
    {n : Node} (h : Reachable (Node.init opts upperBound prefixDepth) n)
    (hN : opts.StopAfterNInstructions ≠ 0) : WithinBudget n.e := by
  induction h with
  | init => exact ⟨Nat.zero_le _, fun h => absurd h.symm hN⟩
  | step ev _ hn ih => exact Node.next_withinBudget hn ih

/-- A node never runs more instructions than a budget `StopAfterNInstructions` it is started
with: in every reachable configuration it has run at most that many, and once it has run that
many it has halted. -/
theorem instructions_within_budget {opts : Options} {upperBound : List Char} {prefixDepth : Nat}
    {n : Node} (h : Reachable (Node.init opts upperBound prefixDepth) n)
    (hN : opts.StopAfterNInstructions ≠ 0) :
    n.e.instructions ≤ opts.StopAfterNInstructions ∧
      (n.e.instructions = opts.StopAfterNInstructions → n.e.haltExecution = true) := by
  have hb := h.withinBudget hN
  unfold WithinBudget at hb
  rwa [h.opts_readiness.1] at hb

/-- A worker with a budget of two instructions. -/
def budgetWorker : Options := { coreId := 1, StopAfterNInstructions := 2 }

/-- The worker runs two instructions, which use its budget up and halt it. -/
theorem instructions_within_budget_budgetWorker :
    ∃ n, Reachable (Node.init budgetWorker [] 0) n ∧ n.e.instructions = 2 ∧
      (n.e.instructions ≤ budgetWorker.StopAfterNInstructions ∧
        (n.e.instructions = budgetWorker.StopAfterNInstructions → n.e.haltExecution = true)) := by
  obtain ⟨n, hn⟩ : ∃ n, (Node.init budgetWorker [] 0).run
      [.step .plain 0 [] none, .step .plain 0 [] none] = some n := ⟨_, rfl⟩
  have h := (Reachable.init : Reachable (Node.init budgetWorker [] 0) _).run _ hn
  refine ⟨n, h, ?_, instructions_within_budget h (by decide)⟩
  rw [Option.some.inj (hn.symm.trans rfl)]
  rfl

end PChop
