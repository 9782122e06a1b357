import PChop.Executor.Run

/-!
# What the run loop tracks

A node keeps each live state in three places: `states`, the searcher (the states it may
select) and a leaf of the process tree. `updateStates` is meant to keep the three in step.
Two mechanisms let them drift apart, whatever the program:

* `newCheck2Offload` takes states out of `states` and the searcher without touching any state
  (`newCheck2Offload_heap`): an offloaded recovery state leaves its suspended dependent in
  `states`, linked to a state that is no longer there, and the searcher can run empty while
  `states` is not (`offloaded_recovery_empties_searcher`); the states it takes are the first
  states of `states` that are not suspended, recovery states among them, whatever their
  histories (`offload_takes_first_states`);
* `updateStates` skips a removed state that is not in `states` without removing its leaf
  (`removeState_not_mem`): the copies of a dependent state that `forkDependentStates` makes
  are never in `states`, so when the recovery state they depend on ends early their leaves
  stay (`forked_dependent_keeps_leaf`).
-/

namespace PChop

namespace Executor

variable {e e' : Executor}

/-- Offloading and the kill message change no state: only `states`, the searcher and the
buffers move. -/
theorem newCheck2Offload_heap {incoming : Option Tag} {r : Executor × List Message}
    (h : e.newCheck2Offload incoming = some r) : r.1.heap = e.heap := by
  unfold newCheck2Offload at h
  dsimp only at h
  split at h
  · split at h
    · cases h; rfl
    · obtain ⟨_, -, h⟩ := Option.bind_eq_some.mp h
      obtain ⟨_, -, h⟩ := Option.bind_eq_some.mp h
      cases h; rfl
  · cases h; rfl
  · cases h; rfl

/-- A removed state that is not in `states` is skipped: it keeps its heap entry and its leaf. -/
theorem removeState_not_mem {es : Nat} (hes : es ∉ e.states) (h : e.removeState es = some e') :
    e' = e := by
  unfold removeState at h
  rw [if_neg hes] at h
  split at h
  · split at h
    · cases h; rfl
    · cases h
  · cases h

end Executor

/-! ## An offloaded recovery state -/

/-- A worker that balances load, with the other options at their defaults. -/
def offloadWorker : Options := { coreId := 1, enableLB := true }

/-- The worker, started on the prefix `2`, follows it at the first branch, skips a call of
function `7`, and loads from address `100`, which starts the recovery state `2` and suspends
the initial state `0`. The recovery state switches on eight cases, which makes eight recovery
states and tells the master the worker can offload. The master's `OFFLOAD` takes the first
quarter of them, the recovery state `2` among them; the other six end early. -/
def offloadTrace : List Event :=
  [.step (.fork { condition := .cond 0, isInternal := false, evaluate := some .Unknown,
                  rng := false }) 0 [] none,
   .step (.call 7 true) 0 [] none,
   .step (.load true true 100 1 [(7, 0)]) 0 [] none,
   .step (.switch ((List.range 8).map fun i => .cond (i + 1)) 0) 0 [] none,
   .step .plain 0 [] (some .OFFLOAD)] ++ List.replicate 6 (.step .early 0 [] none)

/-- After `offloadTrace`, the suspended state `0` is the only state of `states`, its recovery
state `2` has been offloaded, the searcher is empty and nothing halted the node: the next turn
of the loop fails the assertion that the searcher is not empty. -/
theorem offloaded_recovery_empties_searcher :
    ∃ n, Reachable (Node.init offloadWorker ['2'] 1) n ∧ n.e.states = [0] ∧ n.e.searcher = [] ∧
      n.e.haltExecution = false ∧ n.e.haltFromMaster = false ∧ n.ended = false ∧
      n.e.prefixSuspendedStatesMap.map (·.2) = [2, 3] ∧
      (n.e.heap 0).map (fun s => (s.isSuspended, s.recoveryState)) = some (true, some 2) ∧
      (n.e.runStep .plain 0 [] none).isNone := by
  refine ⟨_, Reachable.init.run offloadTrace rfl, ?_⟩
  decide

/-! ## The states an offload takes -/

/-- After the switch of `offloadTrace`, no state of `states` is a normal state that is not
suspended, yet the `OFFLOAD` of the next turn takes the first quarter of the eight recovery
states, `2` and `3`. The selection follows the order of `states`, not the lengths of the
histories: of four normal states the first is taken, whose history is the longest. -/
theorem offload_takes_first_states :
    (∃ n, Reachable (Node.init offloadWorker ['2'] 1) n ∧ n.e.ready2Offload = true ∧
      n.e.states.filter (fun id =>
        ((n.e.heap id).map fun s => !s.isSuspended && !s.isRecoveryState).getD false) = [] ∧
      (n.next (.step .plain 0 [] (some .OFFLOAD))).map (·.e.rangingSuspendedStates) = some [2, 3] ∧
      (n.e.heap 2).map (·.isRecoveryState) = some true ∧
      (n.e.heap 3).map (·.isRecoveryState) = some true) ∧
    (offloadFromStatesVector false false true
      [({ branchHist := ['0', '1'], depth := 2 } : ExecutionState), {}, {}, {}]).1.map
        (·.branchHist) = [['0', '1']] := by
  refine ⟨⟨_, Reachable.init.run (offloadTrace.take 4) rfl, ?_⟩, by decide⟩
  decide

/-! ## A copied dependent state -/

/-- A master skips a call of function `7` and loads from address `100`, which starts the
recovery state `2` for the suspended state `0`. The recovery state forks on an unknown
condition: the copy `3` of the recovery state gets the copy `4` of the dependent state. The
copy `3` then ends early on a query timeout, with its dependent. -/
def strandedLeafTrace : List Event :=
  [.step (.call 7 true) 0 [] none,
   .step (.load true true 100 1 [(7, 0)]) 0 [] none,
   .step (.fork { condition := .cond 0, isInternal := false, evaluate := some .Unknown,
                  rng := false }) 0 [] none,
   .step (.fork { condition := .cond 1, isInternal := false, evaluate := none,
                  rng := false }) 0 [] none]

/-- After `strandedLeafTrace`, the leaves carry the states `2`, `4` and `0`. The state `4` is
not in `states`, not suspended for ranging, and not the dependent of the one recovery state
`2` (whose dependent is `0`): its own recovery state `3` is gone. -/
theorem forked_dependent_keeps_leaf :
    ∃ n, Reachable (Node.init masterOptions [] 0) n ∧ n.e.states = [0, 2] ∧
      n.e.rangingSuspendedStates = [] ∧ n.e.prefixSuspendedStatesMap = [] ∧
      n.e.processTree.leaves.map (·.2) = [2, 4, 0] ∧
      (n.e.heap 2).bind (·.dependentState) = some 0 ∧ (n.e.heap 3).isNone ∧
      (n.e.heap 4).map (fun s => (s.isSuspended, s.recoveryState)) = some (true, some 3) := by
  refine ⟨_, Reachable.init.run strandedLeafTrace rfl, ?_⟩
  decide

end PChop
