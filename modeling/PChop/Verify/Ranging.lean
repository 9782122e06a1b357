import PChop.Verify.Chains

/-!
# Test-prefix ranging

A worker explores the part of the tree its prefixes name. At a two-way branch inside a prefix
it follows the prefixes (`branchToTake`): it forks and suspends the side no prefix takes, or
follows a `2` or `3` without forking. A state suspended for ranging is indexed by its
canonical history (`2` read as `0`, `3` as `1`) in `prefixSuspendedStatesMap`, so that a later
`START_PREFIX_TASK` can resume it.

Three facts about these mechanisms, for every executor:

* a multi-way branch copies the prefixes into every case (`branchCopies_prefixes`), and the
  ranged branch picks the continuing case by comparing `upperBound`, which after a
  `START_PREFIX_TASK` is the whole composite message;
* a `2` of a prefix is followed without adding the branch condition (`fork_follows_two`),
  also when the history recorded a choice forced on an unknown condition;
* a state whose canonical history is already a key of the map is not indexed
  (`indexSuspended_of_key_taken`).

Two runs show what the worker reads and asserts. A fork on an unknown condition splits the
prefixes also when they are used up (`fork_of_splitsPrefixes`): a state past the end of its
prefix reads the character after it (`exhausted_prefix_read`). A ranged switch whose matching
case is not the first erases the state it came with and that state's chain of dependents from
`states`, but a dependent copied by `forkDependentStates` was never inserted there, and the
assertion fails (`ranged_switch_asserts_copied_dependent`).
-/

namespace PChop

namespace Executor

variable (e : Executor)

/-! ## Prefixes of the cases of a multi-way branch -/

theorem heap_prefixes_modifyState (id : Nat) {f : ExecutionState → ExecutionState}
    (hf : ∀ s, (f s).prefixes = s.prefixes) (j : Nat) :
    ((e.modifyState id f).heap j).map (·.prefixes) = (e.heap j).map (·.prefixes) := by
  rw [modifyState_heap]
  split
  · subst j; cases e.heap id <;> simp [hf]
  · rfl

theorem heap_prefixes_splitNode (node : Nat) (a b j : Nat) :
    ((e.splitNode node a b).heap j).map (·.prefixes) = (e.heap j).map (·.prefixes) := by
  unfold splitNode
  rw [heap_prefixes_modifyState, heap_prefixes_modifyState] <;> intro <;> rfl

/-- Every case of a multi-way branch holds the prefixes of the state the branch came from: the
copies are made without splitting them. -/
theorem branchCopies_prefixes {n : Nat} {e e' : Executor} {result result' : List Nat}
    {addStates : Bool} {ps : List (List Char × Nat)}
    (h : branchCopies n e result addStates = some (e', result'))
    (hps : ∀ id ∈ result, (e.heap id).map (·.prefixes) = some ps) :
    ∀ id ∈ result', (e'.heap id).map (·.prefixes) = some ps := by
  induction n generalizing e result with
  | zero =>
    simp only [branchCopies, Option.some.injEq, Prod.mk.injEq] at h
    obtain ⟨rfl, rfl⟩ := h; exact hps
  | succ n ih =>
    simp only [branchCopies] at h
    obtain ⟨es, hes, h⟩ := Option.bind_eq_some.mp h
    obtain ⟨⟨e₁, ns⟩, hb, h⟩ := Option.bind_eq_some.mp h
    obtain ⟨c, hc, hb⟩ := Option.map_eq_some'.mp hb
    obtain ⟨rfl, rfl⟩ := Prod.ext_iff.mp hb
    obtain ⟨s, -, h⟩ := Option.bind_eq_some.mp h
    refine ih h fun id hid => ?_
    have hcopy : c.prefixes = ps := by simpa [hc] using hps es (List.mem_of_getLast?_eq_some hes)
    rw [heap_prefixes_modifyState, heap_prefixes_modifyState, heap_prefixes_splitNode]
    rotate_left
    · intro; rfl
    · intro; rfl
    simp only [apply_ite Executor.heap, ite_self, newState_heap, newState_snd]
    rcases List.mem_append.mp hid with hid | hid
    · split
      · simp [hcopy]
      · exact hps id hid
    · obtain rfl := List.mem_singleton.mp hid
      simp [hcopy]

/-! ## Following a `2` -/

/-- A worker state inside its prefixes whose prefixes all read `2` at its depth takes the true
side of a non-internal branch without forking and without adding the condition: it only
records the `2`. -/
theorem fork_follows_two {cur : Nat} {s : ExecutionState} {fi : ForkInput}
    (hs : e.heap cur = some s) (hworker : e.opts.coreId ≠ 0) (hint : fi.isInternal = false)
    (hrange : s.shallIRange = true) (hbt : s.branchToTake = some (0, false)) :
    (e.fork cur fi).map (fun r => (r.1.heap cur).map fun s => (s.branchHist, s.constraints)) =
      some (some (s.branchHist ++ ['2'], s.constraints)) := by
  simp [fork, hs, forkDecision, hworker, hint, hrange, hbt, forcedChoice, followBranch,
    modifyState_heap]

/-! ## Splitting the prefixes -/

/-- A fork that splits the prefixes (`splitsPrefixes`) forks for real with `removePrefixes`
set: the true state takes `removeFalsePrefixes`, the false state `removeTruePrefixes`. -/
theorem fork_of_splitsPrefixes {cur : Nat} {s : ExecutionState} {fi : ForkInput}
    (hs : e.heap cur = some s) (h : e.splitsPrefixes cur s fi = true) :
    e.fork cur fi = ({ e with forks := e.forks + 1 }.forkStates cur fi true true).map
      fun (r : Executor × Nat × Nat) =>
        ({ r.1 with addedStates := r.1.addedStates ++ [r.2.2] }, some r.2.1, some r.2.2) := by
  simp only [splitsPrefixes, Bool.and_eq_true, decide_eq_true_eq] at h
  obtain ⟨hw, h⟩ := h
  rcases hd : e.forkDecision s fi with _ | _ | ⟨res, b⟩ <;> simp only [hd, beq_iff_eq] at h
  · cases h
  · cases h
  · have hf : e.forcedChoice cur s fi res = (e, .Unknown) := by
      unfold forcedChoice at h ⊢
      by_cases hc : (res = .Unknown && e.inhibited s) = true
      · rw [if_pos hc] at h; split at h <;> cases h
      · rw [if_neg hc] at h ⊢; rw [show res = .Unknown from h]
    simp only [fork, hs, hd, hf, hw, Option.bind_eq_bind, Option.some_bind, decide_True,
      decide_not, Bool.not_false]
    rw [Option.map_eq_bind]; rfl

/-! ## The index of suspended states -/

/-- `std::map::insert` keeps the old entry: a state whose canonical history is already a key
is not indexed, and no later `START_PREFIX_TASK` can find it. -/
theorem indexSuspended_of_key_taken {id : Nat}
    (h : e.prefixSuspendedStatesMap.any
      (·.1 = canonicalPath (((e.heap id).map (·.branchHist)).getD [])) = true) :
    (e.indexSuspended id).prefixSuspendedStatesMap = e.prefixSuspendedStatesMap := by
  simp only [indexSuspended, modifyState_eq]
  rw [if_pos h]

end Executor

/-! ## A ranged switch after a composite prefix -/

/-- A worker with the default options. -/
def rangingWorker : Options := { coreId := 1 }

/-- The worker starts on the prefix `0`: at the first branch it continues the true side and
suspends the false side, state `1`, which is indexed at `1`. The true side exits, the worker
reports `FINISH`, and the master sends the composite prefix `1-0-1` (the histories `10` and
`11`), which resumes state `1` with both. State `1` then switches on two cases. -/
def compositeSwitchTrace : List Event :=
  [.step (.fork { condition := .cond 0, isInternal := false, evaluate := some .Unknown,
                  rng := false }) 0 [] none,
   .step .exit 0 [] none,
   .finish (.START_PREFIX_TASK ['1', '-', '0', '-', '1']),
   .step (.switch [.cond 1, .cond 2] 0) 0 [] none]

/-- After `compositeSwitchTrace`, the one schedulable state `2` holds both prefixes `10` and
`11`, but its history `11` disagrees with `10` at position `1`; the case that agrees with `10`,
state `1`, is suspended. -/
theorem ranged_switch_keeps_disagreeing_prefix :
    ∃ n, Reachable (Node.init rangingWorker ['0'] 1) n ∧ n.e.searcher = [2] ∧ n.e.states = [2] ∧
      (n.e.heap 2).map (fun s => (s.prefixes, s.branchHist)) =
        some ([(['1', '0'], 2), (['1', '1'], 2)], ['1', '1']) ∧
      n.e.prefixSuspendedStatesMap = [(['1', '0'], 1)] := by
  refine ⟨_, Reachable.init.run compositeSwitchTrace rfl, ?_⟩
  decide

/-! ## Replaying a forced choice -/

/-- A worker that may not fork at all. -/
def forkCapWorker : Options := { coreId := 1, MaxForks := some 0 }

/-- One branch on an unknown condition, whose true side `rand()` picks when forking is
inhibited. -/
def forcedBranchTrace : List Event :=
  [.step (.fork { condition := .cond 0, isInternal := false, evaluate := some .Unknown,
                  rng := true }) 0 [] none]

/-- On a master that may not fork, `forcedBranchTrace` records the history `2` and adds the
condition; a worker that replays the prefix `2` with the same solver answers reaches the
history `2` without the condition. -/
theorem replay_drops_forced_condition :
    ∃ n m, Reachable (Node.init forkCapMaster [] 0) n ∧
      Reachable (Node.init forkCapWorker ['2'] 1) m ∧
      (n.e.heap 0).map (fun s => (s.branchHist, s.constraints)) = some (['2'], [.cond 0]) ∧
      (m.e.heap 0).map (fun s => (s.branchHist, s.constraints)) = some (['2'], []) := by
  refine ⟨_, _, Reachable.init.run forcedBranchTrace rfl,
    Reachable.init.run forcedBranchTrace rfl, ?_⟩
  decide

/-! ## Two states with one history -/

/-- Two non-internal branches on unknown conditions. -/
def prefixBranches : List Event :=
  (List.range 2).map fun c =>
    .step (.fork { condition := .cond (c + 1), isInternal := false, evaluate := some .Unknown,
                   rng := false }) 0 [] none

/-- A worker on the prefix `20` forks internally on an unknown condition: the states `0` and
`1` share the empty history. Each then follows the `2` and forks at the `0`, suspending its
false side: state `2` from state `1` (state `1` then exits), state `3` from state `0`. -/
def internalForkTrace : List Event :=
  [.step (.fork { condition := .cond 0, isInternal := true, evaluate := some .Unknown,
                  rng := false }) 0 [] none] ++
  prefixBranches ++ [.step .exit 0 [] none] ++ prefixBranches

/-- After `internalForkTrace`, the suspended states `2` and `3` have the same history `21`.
State `2` holds the key `01` of the map; state `3` is in no place `START_PREFIX_TASK` or
`updateStates` looks: not in `states`, not in the map, not pending for the map. -/
theorem duplicate_history_loses_state :
    ∃ n, Reachable (Node.init rangingWorker ['2', '0'] 2) n ∧
      n.e.prefixSuspendedStatesMap = [(['0', '1'], 2)] ∧ n.e.states = [0] ∧
      n.e.rangingSuspendedStates = [] ∧
      (n.e.heap 2).map (·.branchHist) = some ['2', '1'] ∧
      (n.e.heap 3).map (·.branchHist) = some ['2', '1'] := by
  refine ⟨_, Reachable.init.run internalForkTrace rfl, ?_⟩
  decide

/-! ## Reading a used-up prefix -/

/-- A non-internal branch on a condition the solver cannot decide. -/
def unknownBranch (c : Nat) : ForkInput :=
  { condition := .cond c, isInternal := false, evaluate := some .Unknown, rng := false }

/-- A worker on the prefix `2` follows it at its first branch and reaches depth `1`, the length
of the prefix. At its next branch, on an unknown condition, the fork splits the prefixes:
`removeFalsePrefixes` and `removeTruePrefixes` read `prefix[1]` of the one-character prefix. -/
theorem exhausted_prefix_read :
    ∃ n s, Reachable (Node.init rangingWorker ['2'] 1) n ∧ n.e.searcher.getLast? = some 0 ∧
      n.e.heap 0 = some s ∧ s.prefixes = [(['2'], 1)] ∧ s.depth = 1 ∧
      n.e.stepInstruction.splitsPrefixes 0 s (unknownBranch 1) = true ∧
      (n.next (.step (.fork (unknownBranch 1)) 0 [] none)).isSome ∧
      ∃ r ∈ s.removePrefixesReads, r.1 ≤ r.2 := by
  refine ⟨_, _, Reachable.init.run [.step (.fork (unknownBranch 0)) 0 [] none] rfl, rfl, rfl, ?_⟩
  decide

/-! ## A ranged switch in a forked recovery state -/

/-- A worker on the prefix `21` skips a call of function `7` and loads at address `100`, which
starts recovery state `2` with dependent state `0`. State `2` forks internally on an unknown
condition: its copy `3` gets the copy `4` of state `0` as dependent, which is not inserted
into `states`. State `3` then follows the `2` of its prefix. -/
def copiedChainTrace : List Event :=
  [.step (.call 7 true) 0 [] none,
   .step (.load true true 100 1 [(7, 0)]) 0 [] none,
   .step (.fork { condition := .cond 5, isInternal := true, evaluate := some .Unknown,
                  rng := false }) 0 [] none,
   .step (.fork (unknownBranch 6)) 0 [] none]

/-- After `copiedChainTrace`, state `3` switches on two cases. The second case agrees with
the upper bound `21`, so the ranged branch erases state `3` and its chain from `states`: state
`3` is there, but its dependent `4` is not, and the assertion fails. -/
theorem ranged_switch_asserts_copied_dependent :
    ∃ n, Reachable (Node.init rangingWorker ['2', '1'] 2) n ∧ n.e.searcher.getLast? = some 3 ∧
      n.e.nextDependent 3 = some 4 ∧ 3 ∈ n.e.states ∧ 4 ∉ n.e.states ∧ (n.e.heap 4).isSome ∧
      n.next (.step (.switch [.cond 7, .cond 8] 0) 0 [] none) = none := by
  refine ⟨_, Reachable.init.run copiedChainTrace rfl, by decide, by decide, by decide, by decide,
    by decide, Option.isNone_iff_eq_none.mp (by decide)⟩

end PChop
