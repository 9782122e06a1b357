import PChop.Verify.Messages

/-!
# The master's work list

Under `enableBranchHalt` the master explores until `cntNumStates2Offload`, the number of states
of `states` that are not suspended, reaches `branchLevel2Halt`; the count is taken at the top of
every turn of the inner loop. When `run` returns it allocates `workList` with
`cntNumStates2Offload` slots and writes the history of every state that is not suspended to the
next slot (`fillWorkList`).

`run` returns right after the turn that ended phase 1, and the work list it writes has as many
slots as states were not suspended at the top of that turn and one history for each state not
suspended at its end (`Node.workList_after_turn`). When the count itself ends phase 1 the turn
changes no state and the histories fill the slots exactly. But an error that uses up the table
of error locations ends phase 1 within a turn, after that turn may have forked: a load that
resolves to two objects forks twice before its error, and `run` writes two histories to a work
list of one slot (`errorHalt_overflows_workList`).
-/

namespace PChop

namespace Executor

variable (e : Executor)

variable {e}

end Executor

namespace Node

end Node

/-! ## An error that ends phase 1 within a turn -/

/-- A master that explores up to five states, with one error location, line `7` of `a.c`, whose
out-of-bound pointer errors end execution. -/
def errorTableMaster : Options :=
  { coreId := 0
    enableBranchHalt := true
    explorationDepth := 5
    ExitOnErrorType := [.Ptr]
    errorLocations := [("a.c", [7])] }

/-- The bounds check of one object an address may point to, with an unknown answer. -/
def unknownBoundsCheck : ForkInput :=
  { condition := .cond 0, isInternal := true, evaluate := some .Unknown, rng := false }

/-- At the top of the turn one state is not suspended, so `cntNumStates2Offload` is `1`. The
load at line `7` of `a.c` may point to two objects: the bounds check of each forks, and the
state left unbound ends on an out-of-bound pointer, which empties the table of error locations
and halts the master. Two states are then not suspended, and `run` writes two histories to the
work list of one slot. -/
theorem errorHalt_overflows_workList :
    ∃ n, (Node.init errorTableMaster [] 0).run
        [.step (.resolve [unknownBoundsCheck, unknownBoundsCheck] false 0 "a.c" 7) 0 [] none,
          .stop] = some n ∧
      Reachable (Node.init errorTableMaster [] 0) n ∧ n.ended = true ∧
      n.workList = (1, [[], []]) ∧ n.workList.1 < n.workList.2.length := by
  obtain ⟨n, hn⟩ : ∃ n, (Node.init errorTableMaster [] 0).run
      [.step (.resolve [unknownBoundsCheck, unknownBoundsCheck] false 0 "a.c" 7) 0 [] none,
        .stop] = some n := ⟨_, rfl⟩
  refine ⟨n, hn, Reachable.init.run _ hn, ?_⟩
  rw [Option.some.inj (hn.symm.trans rfl)]
  decide

end PChop
