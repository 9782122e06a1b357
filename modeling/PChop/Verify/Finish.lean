import PChop.Executor.Run

/-!
# When a worker reports `FINISH`

A worker leaves the inner loop of `run` when `states` is empty or when `haltExecution` is set,
and then reports `FINISH` to the master, who treats it as idle. `haltExecution` is set by the
node itself as well: after `StopAfterNInstructions` instructions, or when an error uses up the
error budget or the table of error locations. So a worker can report `FINISH` while it still
holds states (`finish_with_live_state`).

What holds of every move of every run (`finish_only_when_idle_or_halted`): `FINISH` is sent
only from a configuration whose `states` is empty or whose `haltExecution` is set, and a node
whose `haltExecution` is set executes no further instruction, so the states it still holds are
never explored again on that node. The other messages a turn of the loop sends are
`BUG_FOUND`, `OFFLOAD_RESP` and the two readiness messages (`runStep_sent`).
-/

namespace PChop

namespace Executor

variable (e : Executor)

/-! ## The messages of one turn -/

theorem haltOnError_sent (termReason : TerminateReason) (file : String) (line : Nat) :
    ∀ m ∈ (e.haltOnError termReason file line).2, m.1 = .BUG_FOUND := by
  unfold haltOnError
  dsimp only
  split_ifs <;> simp

theorem executeInstruction_sent {id : Nat} {instr : Instr} {r : Executor × List Message}
    (h : e.executeInstruction id instr = some r) : ∀ m ∈ r.2, m.1 = .BUG_FOUND := by
  cases instr with
  | error termReason message lastInst file line =>
    cases h; exact haltOnError_sent _ _ _ _
  | recoveryExit =>
    simp only [executeInstruction] at h
    split at h
    · split at h
      · obtain ⟨_, -, rfl⟩ := Option.map_eq_some'.mp h; simp
      · cases h; simp
    · cases h
  | resolve fis incomplete lastInst file line =>
    obtain ⟨e₁, u, -, (⟨-, rfl⟩ | ⟨x, -, ⟨-, rfl⟩ | ⟨-, rfl⟩⟩)⟩ :=
      executeResolution_cases _ h
    · simp
    · simp
    · exact haltOnError_sent _ _ _ _
  | _ =>
    simp only [executeInstruction] at h
    first
      | (obtain ⟨_, -, rfl⟩ := Option.map_eq_some'.mp h; simp)
      | (cases h; simp)

theorem newCheck2Offload_sent {incoming : Option Tag} {r : Executor × List Message}
    (h : e.newCheck2Offload incoming = some r) : ∀ m ∈ r.2, m.1 = .OFFLOAD_RESP := by
  unfold newCheck2Offload at h
  dsimp only at h
  split at h
  · split at h
    · cases h; simp
    · obtain ⟨_, -, h⟩ := Option.bind_eq_some.mp h
      obtain ⟨_, -, h⟩ := Option.bind_eq_some.mp h
      cases h; simp
  · cases h; simp
  · cases h; simp

theorem updateStates_sent {incoming : Option Tag} {r : Executor × List Message}
    (h : e.updateStates incoming = some r) : ∀ m ∈ r.2, m.1 = .OFFLOAD_RESP := by
  simp only [updateStates, Option.bind_eq_bind', Option.bind_eq_some] at h
  obtain ⟨_, -, _, -, _, -, _, -, h⟩ := h
  split at h
  · exact newCheck2Offload_sent _ h
  · cases h; simp

theorem updateOffloadReadiness_sent :
    ∀ m ∈ e.updateOffloadReadiness.2, m.1 = .NOT_READY_TO_OFFLOAD ∨ m.1 = .READY_TO_OFFLOAD := by
  unfold updateOffloadReadiness
  split_ifs <;> simp

/-- A turn of the inner loop sends no `FINISH`. -/
theorem runStep_sent {instr : Instr} {mbs : Nat} {picks : List Nat} {incoming : Option Tag}
    {r : Executor × List Message} (h : e.runStep instr mbs picks incoming = some r) :
    ∀ m ∈ r.2, m.1 ≠ .FINISH := by
  simp only [runStep, Option.bind_eq_bind', Option.bind_eq_some] at h
  obtain ⟨sel, -, s, -, h⟩ := h
  split at h
  · cases h; simp
  split at h
  · obtain ⟨_, -, h⟩ := Option.bind_eq_some.mp h
    split at h
    · cases h
    · cases h; simp
  obtain ⟨⟨e₁, sent₁⟩, h₁, h⟩ := Option.bind_eq_some.mp h
  obtain ⟨⟨e₂, sent₂⟩, h₂, h⟩ := Option.bind_eq_some.mp h
  cases h
  intro m hm
  simp only [List.mem_append] at hm
  rcases hm with (hm | hm) | hm
  · simp [executeInstruction_sent _ h₁ m hm]
  · simp [updateStates_sent _ h₂ m hm]
  · rcases updateOffloadReadiness_sent _ m hm with h | h <;> simp [h]

/-! ## A new prefix task -/

theorem resumePrefix_node {acc acc' : Executor × List (Nat × List Char)} {recvP : List Char}
    (h : resumePrefix acc recvP = some acc') :
    acc'.1.haltExecution = acc.1.haltExecution ∧ acc'.1.instructions = acc.1.instructions := by
  obtain ⟨e, resumed⟩ := acc
  simp only [resumePrefix, Option.bind_eq_bind', Option.bind_eq_some] at h
  obtain ⟨_, -, h⟩ := h
  cases h
  simp [modifyState_eq]

/-- A `START_PREFIX_TASK` neither clears `haltExecution` nor executes an instruction. -/
theorem startPrefixTask_node {msg : List Char} {e' : Executor}
    (h : e.startPrefixTask msg = some e') :
    e'.haltExecution = e.haltExecution ∧ e'.instructions = e.instructions := by
  simp only [startPrefixTask] at h
  obtain ⟨⟨e₁, resumed⟩, h₁, h⟩ := Option.bind_eq_some.mp h
  obtain ⟨_, -, h⟩ := Option.bind_eq_some.mp h
  cases h
  exact foldlM_invariant (fun acc : Executor × List (Nat × List Char) =>
      acc.1.haltExecution = e.haltExecution ∧ acc.1.instructions = e.instructions)
    (fun _ _ _ h hp => ⟨(resumePrefix_node h).1.trans hp.1, (resumePrefix_node h).2.trans hp.2⟩)
    _ _ _ h₁ ⟨rfl, rfl⟩

end Executor

namespace Node

/-! ## Every move -/

/-- `FINISH` is sent only by a worker whose `states` is empty or whose `haltExecution` is set,
and a node with `haltExecution` set keeps it and executes no further instruction. -/
theorem finish_only_when_idle_or_halted (n n' : Node) (ev : Event) (h : n.next ev = some n') :
    (n.sent.count (.FINISH, []) < n'.sent.count (.FINISH, []) →
      n.e.opts.coreId ≠ 0 ∧ (n.e.states = [] ∨ n.e.haltExecution = true)) ∧
    (n.e.haltExecution = true →
      n'.e.haltExecution = true ∧ n'.e.instructions = n.e.instructions) := by
  cases ev with
  | step instr mbs picks incoming =>
    simp only [next] at h
    split at h
    · cases h
    · rename_i hguard
      obtain ⟨⟨e', msgs⟩, hr, rfl⟩ := Option.map_eq_some'.mp h
      refine ⟨fun hlt => ?_, fun hh => by simp [hh] at hguard⟩
      have : msgs.count (.FINISH, []) = 0 :=
        List.count_eq_zero.mpr fun hm => Executor.runStep_sent _ hr _ hm rfl
      simp [List.count_append, this] at hlt
  | finish reply =>
    simp only [next] at h
    split at h
    · cases h
    · rename_i hguard
      have hidle : n.e.states = [] ∨ n.e.haltExecution = true := by
        cases hs : n.e.states <;> cases hh : n.e.haltExecution <;> simp_all
      split at h
      · cases h; simp
      · refine ⟨fun _ => ⟨by assumption, hidle⟩, fun hh => ?_⟩
        split at h
        · cases h; simp
        · obtain ⟨e', he', rfl⟩ := Option.map_eq_some'.mp h
          obtain ⟨h₁, h₂⟩ := Executor.startPrefixTask_node _ he'
          exact ⟨h₁.trans hh, h₂⟩
        · cases h; exact ⟨hh, rfl⟩
  | stop =>
    simp only [next] at h
    split at h
    · cases h
    · cases h; simp

/-! ## The master after its exploration -/

section MasterEnd

variable {n : Node} (hmaster : n.e.opts.coreId = 0)
  (hend : n.e.states = [] ∨ n.e.haltExecution = true) (hfm : n.e.haltFromMaster = false)
include hmaster hend hfm

/-- A master whose inner loop has ended without `haltFromMaster` has one move left, the end of
the loop, and it changes nothing: the outer loop of `run` only stops on `haltFromMaster`. -/
theorem next_of_master_end {ev : Event} {n' : Node} (h : n.next ev = some n') : n' = n := by
  have hidle : (n.e.states.isEmpty || n.e.haltExecution) = true := by
    rcases hend with h | h <;> simp [h]
  cases ev with
  | step => rcases hend with h' | h' <;> simp [next, h'] at h
  | finish => simp [next, hmaster, hfm, hidle] at h; exact h.2.symm
  | stop => simp [next, hfm] at h

/-- Every run from such a master ends where it started, so `run` never returns. -/
theorem run_of_master_end (evs : List Event) {n' : Node} (h : n.run evs = some n') : n' = n := by
  induction evs generalizing n' with
  | nil => exact (Option.some.inj h).symm
  | cons ev evs ih =>
    obtain ⟨m, hm, hrest⟩ := Option.bind_eq_some.mp h
    cases next_of_master_end hmaster hend hfm hm
    exact ih hrest

end MasterEnd

end Node

/-! ## A worker that halts itself -/

/-- A worker that stops after one instruction. -/
def haltingWorker : Options := { coreId := 1, StopAfterNInstructions := 1 }

/-- After one instruction, `run` has halted the worker with its initial state still in
`states`; leaving the loop, it reports `FINISH`. -/
theorem finish_with_live_state :
    ∃ n, Reachable (Node.init haltingWorker [] 0) n ∧ n.e.states = [0] ∧
      (n.next (.finish .KILL)).map (·.sent) = some [(.FINISH, [])] := by
  refine ⟨_, Reachable.init.run [.step .plain 0 [] none] rfl, ?_⟩
  decide

/-- The finish move of the halting worker: it sends `FINISH` with `haltExecution` set. -/
theorem finish_only_when_idle_or_halted_at_finish :
    ∃ n n', (Node.init haltingWorker [] 0).run [.step .plain 0 [] none] = some n ∧
      n.next (.finish .KILL) = some n' ∧
      n.sent.count (.FINISH, []) < n'.sent.count (.FINISH, []) ∧ n.e.haltExecution = true ∧
      ((n.sent.count (.FINISH, []) < n'.sent.count (.FINISH, []) →
          n.e.opts.coreId ≠ 0 ∧ (n.e.states = [] ∨ n.e.haltExecution = true)) ∧
        (n.e.haltExecution = true →
          n'.e.haltExecution = true ∧ n'.e.instructions = n.e.instructions)) :=
  ⟨_, _, rfl, rfl, by decide, by decide,
    Node.finish_only_when_idle_or_halted _ _ (.finish .KILL) rfl⟩

/-! ## A master whose states all end -/

/-- The master's one state returns from the entry function: `states` is empty, branch-level
halting is off, and `haltFromMaster` stays unset. From there no sequence of moves makes `run`
return. -/
theorem master_spins_after_exploration :
    ∃ n, Reachable (Node.init masterOptions [] 0) n ∧ n.e.states = [] ∧ n.ended = false ∧
      ∀ evs n', n.run evs = some n' → n'.ended = false := by
  refine ⟨_, Reachable.init.run [.step .exit 0 [] none] rfl, rfl, rfl, fun evs n' h => ?_⟩
  rw [Node.run_of_master_end rfl (Or.inl rfl) rfl evs h]
  rfl

end PChop
