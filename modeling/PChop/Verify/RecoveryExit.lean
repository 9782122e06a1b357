import PChop.ControlFlow

/-!
# Where a recovery state exits

The recovery exit test of `executeInstruction` compares only the instruction: a recovery
state ends in `onRecoveryStateExit` exactly when it is about to execute its `exitInst`, at
whatever depth its stack has (`step_eq_onRecoveryStateExit`).

That is the right test when nothing the skipped call runs calls back into the function of the
call site. A recovery state started from a snapshot then stays `Inside` the skipped call:
before it exits, it is at the call, at `exitInst` with the snapshot's stack, or in frames it
pushed, which run other functions and return into other functions (`Inside.step`). So it exits
with the snapshot's stack (`recovery_exits_at_call_depth`).

A callee that calls back into the caller's function can execute the same call site again in
a nested frame and return to the instruction after it, and the recovery state exits there, two
frames deeper than the snapshot (`recovery_exits_in_nested_frame`).
-/

namespace PChop

namespace Control

variable {m : KModule}

/-- The recovery exit test reads only the instruction: a state ends in `onRecoveryStateExit`
exactly when it is a recovery state about to execute its `exitInst`, whatever its stack. -/
theorem step_eq_onRecoveryStateExit {c x : Control} {dir : Bool} :
    c.step m dir = some (.onRecoveryStateExit x) ↔
      c.isRecoveryState = true ∧ c.exitInst = some c.pc ∧ x = c.stepInstruction := by
  unfold step executeInstruction
  by_cases hx : c.isRecoveryState = true ∧ c.exitInst = some c.pc
  · simp [hx, eq_comm]
  · rw [if_neg (by simpa using hx)]
    refine iff_of_false ?_ fun h => hx ⟨h.1, h.2.1⟩
    split <;> simp [Option.map_eq_some']
    -- a return: to the caller, or the end of the entry frame
    split
    · simp
    · split <;> simp

/-! ## Inside the skipped call -/

/-- A frame a recovery state pushed after the first, when it runs no function `g`: it runs
another function and was called from another function. -/
def Inner (g : Nat) (fr : StackFrame) : Prop := fr.kf ≠ g ∧ ∃ k, fr.caller = some k ∧ k.f ≠ g

/-- Where a recovery state started from `snap` can be before it exits, when nothing calls
the function of the call site: with the snapshot's stack, at the skipped call or at
`exitInst`; or in frames it pushed, the first by the skipped call, all running other
functions. -/
structure Inside (snap c : Control) : Prop where
  recovery : c.isRecoveryState = true
  exitInst : c.exitInst = some snap.pc
  frames : (c.stack = snap.stack ∧ (c.pc = snap.prevPC ∨ c.pc = snap.pc)) ∨
    ∃ fr₀ rest, c.stack = snap.stack ++ fr₀ :: rest ∧ fr₀.caller = some snap.prevPC ∧
      fr₀.kf ≠ snap.pc.f ∧ (∀ fr ∈ rest, Inner snap.pc.f fr) ∧ c.pc.f ≠ snap.pc.f

theorem Inside.start (snap : Control) (i : Nat) : Inside snap (startRecovery snap i) :=
  ⟨by unfold startRecovery; split <;> simp [isRecoveryState, RECOVERY_STATE, NORMAL_STATE], rfl,
    .inl ⟨rfl, .inl rfl⟩⟩

/-- A snapshot is taken at a call instruction, of the state stepped past it. -/
theorem step_snapshot {c c' snap : Control} {dir : Bool}
    (h : c.step m dir = some (.next c' (some snap))) :
    ∃ f, m.inst c.pc = some (.call f) ∧ snap = c.stepInstruction := by
  unfold step executeInstruction at h
  split at h
  · simp at h
  split at h
  · rename_i f hf
    refine ⟨f, hf, ?_⟩
    simp only [executeCall, Option.some.injEq, Outcome.next.injEq] at h
    split at h
    · split at h
      · simp only [Option.some.injEq] at h
        exact h.2.symm
      · simp at h
    · simp at h
  · split at h
    · cases h
    · split at h <;> cases h
  all_goals simp [Option.map_eq_some'] at h

theorem transferToBasicBlock_eq {c c' : Control} {dst : Nat}
    (h : c.transferToBasicBlock dst = some c') :
    ∃ fr, c.stack.getLast? = some fr ∧ c' = { c with pc := ⟨fr.kf, dst⟩ } := by
  obtain ⟨fr, hfr, rfl⟩ := Option.map_eq_some'.mp h
  exact ⟨fr, hfr, rfl⟩

/-- A recovery state inside the skipped call exits with the snapshot's stack, about to execute
`exitInst`. -/
theorem Inside.exit {snap c x : Control} {dir : Bool} (hc : Inside snap c)
    (h : c.step m dir = some (.onRecoveryStateExit x)) : x.stack = snap.stack ∧ x.prevPC = snap.pc := by
  obtain ⟨-, hexit, rfl⟩ := step_eq_onRecoveryStateExit.mp h
  rcases hc.frames with ⟨hs, -⟩ | ⟨fr₀, rest, -, -, -, -, hf⟩
  · rw [hc.exitInst, Option.some.injEq] at hexit
    exact ⟨hs, hexit.symm⟩
  · rw [hc.exitInst, Option.some.injEq] at hexit
    exact absurd (congrArg KInst.f hexit) (Ne.symm hf)

section

variable {snap : Control} {f₀ : Nat} (hcall : m.inst snap.prevPC = some (.call f₀))
  (hsite : snap.pc = snap.prevPC.next)
  (hnorec : ∀ k g, m.inst k = some (.call g) → g ≠ snap.pc.f)
include hcall hsite hnorec

/-- A recovery state inside the skipped call stays inside it until it exits. -/
theorem Inside.step {c c' : Control} {dir : Bool} {s : Option Control} (hc : Inside snap c)
    (h : c.step m dir = some (.next c' s)) : Inside snap c' := by
  obtain ⟨hrec, hexit, hframes⟩ := hc
  unfold Control.step executeInstruction at h
  split at h
  · simp at h
  rename_i hnx
  rcases hframes with ⟨hs, hpc | hpc⟩ | ⟨fr₀, rest, hs, h₀, hk₀, hrest, hf⟩
  · -- at the skipped call, which a recovery state executes
    rw [hpc, hcall] at h
    simp only [executeCall, isNormalState_stepInstruction, isRecoveryState_stepInstruction, hrec,
      Bool.not_true, Bool.and_false, Bool.false_and, Bool.false_eq_true, ↓reduceIte,
      Option.some.injEq, Outcome.next.injEq] at h
    obtain ⟨rfl, rfl⟩ := h
    exact ⟨hrec, hexit, .inr ⟨⟨some snap.prevPC, f₀⟩, [], by simp [hs, hpc], rfl,
      hnorec _ _ hcall, by simp, hnorec _ _ hcall⟩⟩
  · -- at the exit instruction, where the exit test holds
    exact absurd (by simp [hrec, hexit, hpc]) hnx
  -- in a frame the recovery state pushed
  have hlast : ∀ fr, c.stack.getLast? = some fr → fr.kf ≠ snap.pc.f := fun fr hfr => by
    rw [hs, List.getLast?_append_of_ne_nil _ (List.cons_ne_nil _ _)] at hfr
    rcases List.mem_cons.mp (List.mem_of_getLast?_eq_some hfr) with rfl | hfr
    · exact hk₀
    · exact (hrest fr hfr).1
  have htransfer : ∀ dst c'', c.stepInstruction.transferToBasicBlock dst = some c'' →
      Inside snap c'' := fun dst c'' ht => by
    obtain ⟨fr, hfr, rfl⟩ := transferToBasicBlock_eq ht
    exact ⟨hrec, hexit, .inr ⟨fr₀, rest, hs, h₀, hk₀, hrest, hlast fr hfr⟩⟩
  split at h
  · -- a call pushes a frame of another function
    rename_i g hg
    simp only [executeCall, isNormalState_stepInstruction, isRecoveryState_stepInstruction, hrec,
      Bool.not_true, Bool.and_false, Bool.false_and, Bool.false_eq_true, ↓reduceIte,
      Option.some.injEq, Outcome.next.injEq] at h
    obtain ⟨rfl, rfl⟩ := h
    refine ⟨hrec, hexit, .inr ⟨fr₀, rest ++ [⟨some c.pc, g⟩], by simp [hs], h₀, hk₀, ?_,
      hnorec _ _ hg⟩⟩
    simp only [List.mem_append, List.mem_singleton]
    rintro fr (hfr | rfl)
    · exact hrest fr hfr
    · exact ⟨hnorec _ _ hg, c.pc, rfl, hf⟩
  · -- a return pops the top frame
    split at h
    · cases h
    simp only [stepInstruction_stack] at h
    rcases List.eq_nil_or_concat rest with rfl | ⟨init, lst, hl⟩
    · -- the skipped call returns, to the exit instruction
      obtain ⟨caller, kf⟩ := fr₀
      cases h₀
      rw [hs, List.getLast?_concat, List.dropLast_concat] at h
      cases h
      exact ⟨hrec, hexit, .inl ⟨rfl, .inr hsite.symm⟩⟩
    · -- an inner call returns, into another function
      rw [List.concat_eq_append] at hl
      subst hl
      obtain ⟨hkf, k, hk, hkg⟩ := hrest lst (by simp)
      obtain ⟨caller, kf⟩ := lst
      cases hk
      have hs' : c.stack = (snap.stack ++ fr₀ :: init) ++ [⟨some k, kf⟩] := by simp [hs]
      rw [hs', List.getLast?_concat, List.dropLast_concat] at h
      cases h
      exact ⟨hrec, hexit, .inr ⟨fr₀, init, rfl, h₀, hk₀, fun fr hfr => hrest fr (by simp [hfr]),
        hkg⟩⟩
  · obtain ⟨c'', ht, hc''⟩ := Option.map_eq_some'.mp h
    cases hc''
    exact htransfer _ _ ht
  · obtain ⟨c'', ht, hc''⟩ := Option.map_eq_some'.mp h
    cases hc''
    exact htransfer _ _ ht
  · -- any other instruction falls through
    cases h
    exact ⟨hrec, hexit, .inr ⟨fr₀, rest, hs, h₀, hk₀, hrest, hf⟩⟩
  · cases h

/-- A run of a recovery state inside the skipped call that ends in its exit ends with the
snapshot's stack, about to execute `exitInst`. -/
theorem Inside.run {c x : Control} (hc : Inside snap c) (dirs : List Bool)
    (h : c.run m dirs = some (.onRecoveryStateExit x)) : x.stack = snap.stack ∧ x.prevPC = snap.pc := by
  induction dirs generalizing c with
  | nil => cases h
  | cons dir dirs ih =>
    unfold Control.run at h
    split at h
    · exact ih (hc.step hcall hsite hnorec ‹_›) h
    · exact hc.exit h

end

/-- When nothing in the module calls the function of a skipped call site, a recovery state
started from the snapshot of the call exits, if it does, with the snapshot's stack, about to
execute the instruction after the call. -/
theorem recovery_exits_at_call_depth {c c' snap : Control} {dir : Bool}
    (hsnap : c.step m dir = some (.next c' (some snap)))
    (hnorec : ∀ k g, m.inst k = some (.call g) → g ≠ c.pc.f) (i : Nat) (dirs : List Bool)
    {x : Control} (hx : (startRecovery snap i).run m dirs = some (.onRecoveryStateExit x)) :
    x.stack = snap.stack ∧ x.prevPC = snap.pc := by
  obtain ⟨f, hf, rfl⟩ := step_snapshot hsnap
  have hnorec' : ∀ k g, m.inst k = some (.call g) → g ≠ c.stepInstruction.pc.f := hnorec
  exact (Inside.start _ i).run hf rfl hnorec' dirs hx

end Control

/-! ## A callee that calls back -/

/-- Function `0` calls function `1` and returns. Function `1` branches to the block that calls
function `0` back and then jumps to its return, or to the block of its return. Calls of
function `1` are skipped, and it has side effects. -/
def recursiveCallee : KModule where
  functions := [[.call 1, .ret], [.condBr 1 3, .call 0, .br 3, .ret]]
  isFunctionToSkip _ f := f == 1
  hasSideEffects _ := true

/-- A normal state in the entry frame of function `0`, at its call of function `1`. -/
def atCallSite : Control := { pc := ⟨0, 0⟩, prevPC := ⟨0, 0⟩, stack := [⟨none, 0⟩] }

/-- The normal state skips the call with a snapshot. The recovery state started from the
snapshot calls function `1`, which calls function `0` back; that frame executes the same call
site, and the second frame of function `1` returns to the instruction after it: the
`exitInst` of the recovery state, which exits there with the two frames it pushed first still
on its stack. -/
theorem recovery_exits_in_nested_frame :
    ∃ snap x, atCallSite.step recursiveCallee true =
        some (.next atCallSite.stepInstruction (some snap)) ∧
      (startRecovery snap 0).run recursiveCallee [true, true, true, true, false, true, true] =
        some (.onRecoveryStateExit x) ∧
      x.prevPC = snap.pc ∧ x.stack = snap.stack ++ [⟨some ⟨0, 0⟩, 1⟩, ⟨some ⟨1, 1⟩, 0⟩] :=
  ⟨atCallSite.stepInstruction,
    { type := RECOVERY_STATE, pc := ⟨0, 2⟩, prevPC := ⟨0, 1⟩,
      stack := [⟨none, 0⟩, ⟨some ⟨0, 0⟩, 1⟩, ⟨some ⟨1, 1⟩, 0⟩], exitInst := some ⟨0, 1⟩ },
    by decide⟩

end PChop
