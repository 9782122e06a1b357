import PChop.ExecutionState

/-!
# Control flow of one state

The fields of `ExecutionState` that move through the code (`pc`, `prevPC`, the call `stack`,
the type bits and `exitInst`), and the part of the interpreter that moves them: the run loop's
`stepInstruction` followed by `executeInstruction` on the instruction it stepped over, with
the recovery exit test at its top, calls (`executeCall`, which skips a call with a snapshot
in a normal state), returns, and branches. `startRecoveryState` starts a recovery state from a
snapshot at the call the snapshot skipped, with the instruction after it as `exitInst`.

An instruction is a `KInst`, the function and the index of the instruction in
`KFunction::instructions`; an `llvm::Instruction*` is determined by it. A branch names the
index of the first instruction of its target block, and a conditional branch is followed to
the side the state takes (`fork` with its solver and ranging choices is modelled in
`PChop.Executor.Fork`). `StackFrame` and `pushFrame`/`popFrame` (`ExecutionState.cpp`, not in
the sources) are modelled from their uses in `Executor.cpp`.
-/

namespace PChop

/-- `KInstIterator`: the function and the index of an instruction. -/
structure KInst where
  f : Nat
  i : Nat
  deriving DecidableEq, Repr

/-- `++pc`: the next instruction of the same function. -/
def KInst.next (k : KInst) : KInst := ⟨k.f, k.i + 1⟩

/-- The instructions whose control flow the model follows. -/
inductive Inst where
  /-- A call of the defined function `f`. -/
  | call (f : Nat)
  | ret
  /-- An unconditional branch to the block starting at index `dst`. -/
  | br (dst : Nat)
  /-- A conditional branch to the blocks starting at `t` and `e`. -/
  | condBr (t e : Nat)
  /-- Any other instruction: execution falls through. -/
  | other
  deriving DecidableEq, Repr

/-- The module as the interpreter sees it: the instructions of each function
(`KFunction::instructions`), `isFunctionToSkip` at a call site, and
`ModRefAnalysis::hasSideEffects`. -/
structure KModule where
  functions : List (List Inst)
  isFunctionToSkip : KInst → Nat → Bool
  hasSideEffects : Nat → Bool

/-- The instruction at `k`, `none` past the end of its function. -/
def KModule.inst (m : KModule) (k : KInst) : Option Inst := (m.functions.getD k.f []).get? k.i

/-- `StackFrame`: the call instruction that pushed the frame (none for the entry frame) and the
function the frame runs. -/
structure StackFrame where
  caller : Option KInst
  kf : Nat
  deriving DecidableEq, Repr

/-- The control fields of `ExecutionState`. -/
structure Control where
  type : Nat := NORMAL_STATE
  pc : KInst
  prevPC : KInst
  stack : List StackFrame
  exitInst : Option KInst := none
  deriving DecidableEq, Repr

namespace Control

variable (c : Control)

def isNormalState : Bool := c.type &&& NORMAL_STATE != 0

def isRecoveryState : Bool := c.type &&& RECOVERY_STATE != 0

/-- `Executor::stepInstruction`: `prevPC = pc; ++pc`. -/
def stepInstruction : Control := { c with prevPC := c.pc, pc := c.pc.next }

/-- `transferToBasicBlock`: the branch target in the function of the top frame. -/
def transferToBasicBlock (dst : Nat) : Option Control :=
  c.stack.getLast?.map fun fr => { c with pc := ⟨fr.kf, dst⟩ }

@[simp] theorem stepInstruction_pc : c.stepInstruction.pc = c.pc.next := rfl

@[simp] theorem stepInstruction_prevPC : c.stepInstruction.prevPC = c.pc := rfl

@[simp] theorem stepInstruction_stack : c.stepInstruction.stack = c.stack := rfl

@[simp] theorem stepInstruction_exitInst : c.stepInstruction.exitInst = c.exitInst := rfl

@[simp] theorem isRecoveryState_stepInstruction :
    c.stepInstruction.isRecoveryState = c.isRecoveryState := rfl

@[simp] theorem isNormalState_stepInstruction :
    c.stepInstruction.isNormalState = c.isNormalState := rfl

end Control

/-- What one turn of the run loop does with a state: it goes on (with the snapshot a skipped
call took), or it ends in `onRecoveryStateExit` or `terminateStateOnExit`. -/
inductive Outcome where
  | next (c : Control) (snapshot : Option Control)
  | onRecoveryStateExit (c : Control)
  | terminateStateOnExit (c : Control)
  deriving DecidableEq, Repr

namespace Control

variable (m : KModule) (c : Control)

/-- `Executor::executeCall` on a defined function: a normal state that is not a recovery
state skips a function to skip, with a snapshot (`createSnapshotState`, a copy of the state)
when the function has side effects; any other call pushes a frame whose caller is the call
instruction and enters the function. -/
def executeCall (f : Nat) : Control × Option Control :=
  if c.isNormalState && !c.isRecoveryState && m.isFunctionToSkip c.prevPC f then
    (c, if m.hasSideEffects f then some c else none)
  else ({ c with stack := c.stack ++ [⟨some c.prevPC, f⟩], pc := ⟨f, 0⟩ }, none)

/-- `Executor::executeInstruction` on the instruction `ki`, after `stepInstruction`, with the
side `dir` a conditional branch takes. A recovery state about to execute its `exitInst`
exits, whatever its stack. `none` is an instruction past the end of its function, an empty
stack, or a frame without caller below the top. -/
def executeInstruction (ki : KInst) (dir : Bool) : Option Outcome :=
  if c.isRecoveryState && c.exitInst == some ki then some (.onRecoveryStateExit c) else
  match m.inst ki with
  | some (.call f) => let r := c.executeCall m f; some (.next r.1 r.2)
  | some .ret =>
    if c.stack.length ≤ 1 then some (.terminateStateOnExit c) else
    match c.stack.getLast? with
    | some ⟨some kcaller, _⟩ => some (.next { c with stack := c.stack.dropLast, pc := kcaller.next } none)
    | _ => none
  | some (.br dst) => (c.transferToBasicBlock dst).map (.next · none)
  | some (.condBr t e) => (c.transferToBasicBlock (if dir then t else e)).map (.next · none)
  | some .other => some (.next c none)
  | none => none

/-- One turn of the run loop on the state: `ki = pc`, `stepInstruction`,
`executeInstruction(ki)`. -/
def step (dir : Bool) : Option Outcome := c.stepInstruction.executeInstruction m c.pc dir

/-- Turns of the run loop, one per side in `dirs`, until the state ends. -/
def run : Control → List Bool → Option Outcome
  | c, [] => some (.next c none)
  | c, dir :: dirs =>
    match c.step m dir with
    | some (.next c' _) => run c' dirs
    | o => o

end Control

/-- The control part of `Executor::startRecoveryState` from the snapshot with index
`snapshotIndex`: a copy of the snapshot state, a recovery state (also a normal state unless
made from the first snapshot), whose `exitInst` is the instruction after the skipped call and
whose `pc` is the call itself (`prevPC`). -/
def startRecovery (snap : Control) (snapshotIndex : Nat) : Control :=
  { snap with
    type := if snapshotIndex = 0 then RECOVERY_STATE else NORMAL_STATE ||| RECOVERY_STATE,
    exitInst := some snap.pc, pc := snap.prevPC }

end PChop
