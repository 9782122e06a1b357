import PChop.Executor.Run

/-!
# Chains of recovery states

A recovery state points to the state whose load it recovers (its dependent state), which
points back; a recovery state of a recovery state makes a chain that ends at a normal state,
the originating state. A branch that a recovery state commits to must also constrain every
state of its chain, since the dependent state resumes with the memory the recovery state
wrote. `fork` does this through `mergeConstraintsForAll` when it forks or follows a prefix,
but its forced choice (forking inhibited at the memory cap or after `MaxForks` forks) adds the
condition to the current state only (`forcedChoice_heap_of_ne`).
-/

namespace PChop

namespace Executor

variable (e : Executor)

/-- The forced choice of `fork` changes no state but the current one. -/
theorem forcedChoice_heap_of_ne {cur j : Nat} (s : ExecutionState) (fi : ForkInput)
    (res : Validity) (hj : j ≠ cur) : (e.forcedChoice cur s fi res).1.heap j = e.heap j := by
  unfold forcedChoice
  split
  · split <;> simp [modifyState_heap, hj]
  · rfl

end Executor

/-! ## A forced choice in a recovery state -/

/-- A master that may not fork at all (`MaxForks` is `0`). -/
def forkCapMaster : Options := { coreId := 0, MaxForks := some 0 }

/-- The master skips a call of function `7` and loads from address `100`, which starts the
recovery state `2` for the suspended state `0`; the recovery state then reaches a branch on an
unknown condition, and `rand()` picks its true side. -/
def forcedChoiceTrace : List Event :=
  [.step (.call 7 true) 0 [] none,
   .step (.load true true 100 1 [(7, 0)]) 0 [] none,
   .step (.fork { condition := .cond 5, isInternal := false, evaluate := some .Unknown,
                  rng := true }) 0 [] none]

/-- After `forcedChoiceTrace`, the recovery state `2` has committed to the condition, and its
dependent state `0` has not. -/
theorem forced_choice_skips_dependent :
    ∃ n, Reachable (Node.init forkCapMaster [] 0) n ∧
      (n.e.heap 2).map (fun s => (s.isRecoveryState, s.dependentState, s.constraints)) =
        some (true, some 0, [.cond 5]) ∧
      (n.e.heap 0).map (·.constraints) = some [] := by
  refine ⟨_, Reachable.init.run forcedChoiceTrace rfl, ?_⟩
  decide

end PChop
