import PChop.Executor.Run

/-!
# Lazy recovery against eager execution

A skipped call is executed lazily: a later load that may read what the call wrote starts a
recovery state from the call's snapshot, and the stores of the recovery state at the load's
address are copied into the loading (dependent) state by `onRecoveryStateWrite`. Whether a
load needs recovery at all is decided from the summary `writtenAddresses`, which keeps per
base address the largest size ever stored and the latest snapshot index.

The lemmas here say what the two mechanisms do to memory, for every state: a partial
overwrite always asks for recovery from the first snapshot (`isRecoveryRequired_partial`,
`getStartingIndex_partial`), and the copy of a recovered store replaces the dependent's bytes
at the whole stored range, whatever the dependent stored there after the snapshot
(`read_onRecoveryStateWrite`). Together they let a recovered value overwrite a later store:
`lazyRecovery_overwrites_later_store` runs the executor on such a program.
-/

namespace PChop

namespace ExecutionState

variable (s : ExecutionState)

/-! ## Memory -/

theorem read_length (a n : Nat) : (s.read a n).length = n := by simp [read]

theorem write_addressSpace (a : Nat) (v : List Nat) (x : Nat) :
    (s.write a v).addressSpace x =
      if a ≤ x ∧ x < a + v.length then v.getD (x - a) 0 else s.addressSpace x := rfl

/-- A read of exactly the bytes a store wrote returns the stored bytes. -/
theorem read_write_self (a : Nat) (v : List Nat) : (s.write a v).read a v.length = v := by
  refine List.ext_getElem (by simp [read]) fun i h₁ h₂ => ?_
  simp only [read, List.getElem_map, List.getElem_range, write_addressSpace]
  rw [if_pos ⟨Nat.le_add_right a i, by simpa [read] using h₁⟩]
  simp [List.getD_eq_getElem?_getD, List.getElem?_eq_getElem h₂]

/-- A store outside `[a, a + n)` does not change the bytes read there. -/
theorem read_write_of_disjoint {a n b : Nat} {v : List Nat}
    (h : a + n ≤ b ∨ b + v.length ≤ a) : (s.write b v).read a n = s.read a n := by
  simp only [read, List.map_inj_left, List.mem_range, write_addressSpace]
  intro i hi
  rw [if_neg (by omega)]

/-! ## Deciding recovery -/

/-- A state whose summary records a store at the address shorter than the load asks for
recovery, and leaves its flags as they are. -/
theorem isRecoveryRequired_partial {address size : Nat} {info : WrittenAddressInfo}
    (hrec : s.recoveredLoads address = false)
    (hinfo : s.writtenAddresses address = some info) (hsize : info.maxSize < size) :
    s.isRecoveryRequired address size = (s, true) := by
  simp [isRecoveryRequired, getWrittenAddressInfo, hrec, hinfo, Nat.not_le.mpr hsize]

/-- After a partial overwrite the recovery starts from the first snapshot: every skipped
call that may write the address is re-executed, also those the store came after. -/
theorem getStartingIndex_partial {address size : Nat} {info : WrittenAddressInfo}
    (hinfo : s.writtenAddresses address = some info) (hsize : info.maxSize < size) :
    s.getStartingIndex address size = 0 := by
  simp [getStartingIndex, getWrittenAddressInfo, hinfo, Nat.not_le.mpr hsize]

/-- The copy of a recovery state's store at its recovered address replaces the dependent's
bytes at the stored range. -/
theorem read_onRecoveryStateWrite {ri : RecoveryInfo} (hri : s.recoveryInfo = some ri)
    (d : ExecutionState) (v : List Nat) :
    (s.onRecoveryStateWrite d ri.loadAddr v).read ri.loadAddr v.length = v := by
  simp only [onRecoveryStateWrite, hri, if_true]
  exact read_write_self _ _ _

end ExecutionState

/-! ## A store after a skipped call -/

/-- A state skips a call of function `7` that may write four bytes at address `100`, stores
the byte `9` at `100`, and loads four bytes there. The load starts a recovery state, which
re-executes the call's slice (the store of `1, 1, 1, 1` at `100`) and exits; the resumed
state loads again. -/
def overwriteTrace : List Event :=
  [.step (.call 7 true) 0 [] none,
   .step (.store 100 [9] true) 0 [] none,
   .step (.load true true 100 4 [(7, 0)]) 0 [] none,
   .step (.store 100 [1, 1, 1, 1] true) 0 [] none,
   .step .recoveryExit 0 [] none,
   .step (.load true true 100 4 [(7, 0)]) 0 [] none]

/-- The load at the end of `overwriteTrace` reads the call's bytes at all four places, while
executing the call in place and then the store leaves the stored `9` at the first. -/
theorem lazyRecovery_overwrites_later_store :
    ∃ n, Reachable (Node.init masterOptions [] 0) n ∧
      (n.e.heap 0).map (fun s => (s.isSuspended, s.read 100 4)) = some (false, [1, 1, 1, 1]) ∧
      ((({} : ExecutionState).write 100 [1, 1, 1, 1]).write 100 [9]).read 100 4 =
        [9, 1, 1, 1] := by
  refine ⟨_, Reachable.init.run overwriteTrace rfl, ?_⟩
  decide

end PChop
