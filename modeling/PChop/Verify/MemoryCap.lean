import PChop.Executor.Terminate

/-!
# The kill count of `checkMemoryUsage`

Over the memory cap plus 100 MB, `checkMemoryUsage` terminates early `toKill` of the
killable states, or all of them when there are fewer: each turn of its loop swaps a state
drawn at random with the last candidate and pops it (`swapPop_perm`), so the states it
terminates are distinct killable states (`killStates_spec`, `checkMemoryUsage_kills`).

`toKill` is computed in `unsigned` arithmetic: `numStates * MaxMemory` wraps modulo `2^32`,
and a wrapped product gives a small quotient and so a large `toKill`. With `70000` states, a
cap of `64000` MB and `64101` MB in use, the loop terminates `67114` states where the share
the formula states over unbounded integers is `111` (`memoryCap_kill_count_wraps`).
-/

namespace PChop

namespace Executor

/-- Terminating early a live state that is neither a recovery state nor an added state queues
it in `removedStates` and changes nothing else. -/
theorem terminateStateEarly_of_normal {e : Executor} {id : Nat} {s : ExecutionState}
    (hs : e.heap id = some s) (hrec : s.isRecoveryState = false) (hadd : id ∉ e.addedStates) :
    e.terminateStateEarly id = { e with removedStates := e.removedStates ++ [id] } := by
  simp [terminateStateEarly, terminateStateOrChain, hs, hrec, terminateState, hadd]

/-- Swapping the candidate at `idx` with the last one and popping the last removes exactly the
candidate at `idx`. -/
theorem swapPop_perm {arr : List Nat} {idx : Nat} (hnd : arr.Nodup) (hidx : idx < arr.length) :
    List.Perm (arr.set idx (arr.getD (arr.length - 1) 0)).dropLast (arr.erase (arr.getD idx 0)) := by
  obtain ⟨l, z, rfl⟩ : ∃ l z, arr = l ++ [z] := by
    rcases List.eq_nil_or_concat arr with h | ⟨l, z, h⟩
    · subst h; cases hidx
    · exact ⟨l, z, by rw [h, List.concat_eq_append]⟩
  have hz : z ∉ l := fun h => (List.nodup_append.mp hnd).2.2 h (List.mem_singleton_self z)
  have hlast : (l ++ [z]).getD (l ++ [z]).length.pred 0 = z := by simp
  simp only [Nat.pred_eq_sub_one] at hlast
  rw [hlast]
  rcases Nat.lt_or_ge idx l.length with hlt | hge
  · -- a candidate before the last: it is replaced by the last one
    have hv : (l ++ [z]).getD idx 0 = l[idx] := by
      rw [List.getD_eq_getElem?_getD, List.getElem?_append_left hlt, List.getElem?_eq_getElem hlt,
        Option.getD_some]
    rw [List.set_append_left _ _ hlt, List.dropLast_concat, hv,
      List.erase_append_left _ (List.getElem_mem hlt)]
    have hl : l = l.take idx ++ l[idx] :: l.drop (idx + 1) := by
      rw [← List.drop_eq_getElem_cons hlt, List.take_append_drop]
    have hnt : l[idx] ∉ l.take idx := fun h => by
      have hndl := (List.nodup_append.mp hnd).1
      rw [hl] at hndl
      exact (List.nodup_append.mp hndl).2.2 h (List.mem_cons_self _ _)
    rw [List.set_eq_take_append_cons_drop, if_pos hlt]
    generalize l[idx] = v at hl hnt ⊢
    have herase : l.erase v = l.take idx ++ l.drop (idx + 1) := by
      calc l.erase v = (l.take idx ++ v :: l.drop (idx + 1)).erase v := by rw [← hl]
        _ = l.take idx ++ l.drop (idx + 1) := by
          rw [List.erase_append_right _ hnt, List.erase_cons_head]
    rw [herase]
    exact List.perm_middle.trans (List.perm_append_singleton z _).symm
  · -- the last candidate itself
    have hidx' : idx = l.length := by simp at hidx; omega
    subst hidx'
    have hv : (l ++ [z]).getD l.length 0 = z := by simp
    rw [List.set_append_right _ _ (Nat.le_refl _), Nat.sub_self, hv,
      List.erase_append_right _ hz]
    simp

/-- The kill loop over distinct live states that are neither recovery states nor added
states terminates `min toKill arr.length` of them, each once, queued in `removedStates`. -/
theorem killStates_spec : ∀ (toKill : Nat) (arr picks : List Nat) (e : Executor), arr.Nodup →
    (∀ j ∈ arr, (∃ s, e.heap j = some s ∧ s.isRecoveryState = false) ∧ j ∉ e.addedStates) →
    ∃ victims, killStates toKill arr picks e =
        { e with removedStates := e.removedStates ++ victims } ∧
      victims.Nodup ∧ (∀ v ∈ victims, v ∈ arr) ∧ victims.length = min toKill arr.length
  | 0, arr, _, e, _, _ => ⟨[], by simp [killStates], List.nodup_nil, by simp, by simp⟩
  | _ + 1, [], _, e, _, _ => ⟨[], by simp [killStates], List.nodup_nil, by simp, by simp⟩
  | toKill + 1, a :: arr, picks, e, hnd, harr => by
    simp only [killStates]
    have hidx : picks.headD 0 % (a :: arr).length < (a :: arr).length :=
      Nat.mod_lt _ (Nat.succ_pos _)
    generalize picks.headD 0 % (a :: arr).length = idx at hidx ⊢
    have hv : (a :: arr).getD idx 0 ∈ a :: arr := by
      rw [List.getD_eq_getElem?_getD, List.getElem?_eq_getElem hidx]
      exact List.getElem_mem hidx
    obtain ⟨⟨s, hs, hrec⟩, hadd⟩ := harr _ hv
    have hperm := swapPop_perm hnd hidx
    rw [terminateStateEarly_of_normal hs hrec hadd]
    obtain ⟨victims, hk, hvnd, hvmem, hvlen⟩ := killStates_spec toKill _ picks.tail
      { e with removedStates := e.removedStates ++ [(a :: arr).getD idx 0] }
      (hperm.nodup_iff.mpr (hnd.erase _)) fun j hj => harr j (List.mem_of_mem_erase (hperm.subset hj))
    refine ⟨_ :: victims, by rw [hk, List.append_assoc, List.singleton_append], ?_, ?_, ?_⟩
    · refine List.nodup_cons.mpr ⟨fun h => ?_, hvnd⟩
      have := hperm.subset (hvmem _ h)
      exact (hnd.mem_erase_iff.mp this).1 rfl
    · intro v hv'
      rcases List.mem_cons.mp hv' with rfl | hv'
      · exact hv
      · exact List.mem_of_mem_erase (hperm.subset (hvmem v hv'))
    · rw [List.length_cons, hvlen, hperm.length_eq, List.length_erase_of_mem hv]
      simp only [List.length_cons, Nat.add_sub_cancel]
      omega

/-- Over the memory cap plus 100 MB, when the killable states are live and not added states,
`checkMemoryUsage` terminates early `min toKill E` distinct killable states, `E` their number
and `toKill` the count the source computes in `unsigned` arithmetic. -/
theorem checkMemoryUsage_kills (e : Executor) {mbs : Nat} (picks : List Nat)
    (hcap : e.opts.MaxMemory ≠ 0) (hcheck : e.instructions % 0x10000 = 0)
    (hover : mbs > u32 (e.opts.MaxMemory + 100)) (hover' : mbs > e.opts.MaxMemory)
    (hlive : ∀ j ∈ e.killable, (∃ s, e.heap j = some s ∧ s.isRecoveryState = false) ∧
      j ∉ e.addedStates) (hnd : e.states.Nodup) :
    ∃ victims, e.checkMemoryUsage mbs picks =
        { e with removedStates := e.removedStates ++ victims, atMemoryLimit := true } ∧
      victims.Nodup ∧ (∀ v ∈ victims, v ∈ e.killable) ∧
      victims.length = min (max 1 (u32 (u32 e.states.length + 4294967296 -
        u32 (u32 e.states.length * e.opts.MaxMemory) / mbs))) e.killable.length := by
  obtain ⟨victims, hk, hvnd, hvmem, hvlen⟩ := killStates_spec
    (max 1 (u32 (u32 e.states.length + 4294967296 - u32 (u32 e.states.length * e.opts.MaxMemory) / mbs)))
    e.killable picks e (hnd.filter _) hlive
  refine ⟨victims, ?_, hvnd, hvmem, hvlen⟩
  simp only [checkMemoryUsage, hcap, hcheck, ne_eq, not_true_eq_false, or_self, ↓reduceIte,
    gt_iff_lt, hover', hover, hk]

end Executor

/-! ## A crowded master -/

open Executor (u32)

/-- A master holding the `n` live normal states `0, …, n - 1`, with a cap of `64000` MB. -/
def crowdedMaster (n : Nat) : Executor :=
  { opts := { coreId := 0, MaxMemory := 64000 },
    heap := fun id => if id < n then some {} else none,
    nextId := n, states := List.range n, searcher := List.range n,
    processTree := { leaves := [], nextNode := 0 }, upperBound := [], prefixDepth := 0 }

/-- Every state of the crowded master is killable, and over the cap plus 100 MB it terminates
`min toKill n` of them, `toKill` computed in `unsigned` arithmetic. -/
theorem crowdedMaster_kills (n mbs : Nat) (hover : mbs > 64100) :
    (crowdedMaster n).killable.length = n ∧
    ∃ victims, (crowdedMaster n).checkMemoryUsage mbs [] =
        { crowdedMaster n with removedStates := victims, atMemoryLimit := true } ∧
      victims.Nodup ∧ (∀ v ∈ victims, v ∈ (crowdedMaster n).killable) ∧
      victims.length = min (max 1 (u32 (u32 n + 4294967296 - u32 (u32 n * 64000) / mbs))) n := by
  have hheap : ∀ j, j < n → (crowdedMaster n).heap j = some {} := fun j hj => if_pos hj
  have hkill : (crowdedMaster n).killable = List.range n :=
    List.filter_eq_self.mpr fun j hj => by
      simp [hheap j (List.mem_range.mp hj), ExecutionState.isNormalState,
        ExecutionState.isSuspended, ExecutionState.isRecoveryState, NORMAL_STATE, RECOVERY_STATE]
  obtain ⟨victims, hk, hvnd, hvmem, hvlen⟩ := Executor.checkMemoryUsage_kills (crowdedMaster n) []
    (by simp [crowdedMaster]) rfl
    (show mbs > u32 (64000 + 100) by rw [show u32 (64000 + 100) = 64100 by decide]; exact hover)
    (by simp only [crowdedMaster]; omega)
    (fun j hj => ⟨⟨{}, hheap j (List.mem_range.mp (hkill ▸ hj)), rfl⟩, List.not_mem_nil j⟩)
    (List.nodup_range n)
  have hlen : (crowdedMaster n).states.length = n := List.length_range n
  refine ⟨by rw [hkill, List.length_range], victims, by rw [hk]; rfl, hvnd, hvmem, ?_⟩
  rw [hvlen, hkill, List.length_range, hlen]
  rfl

/-- With `70000` states and `64101` MB in use, the product `70000 * 64000` wraps, and
`checkMemoryUsage` terminates `67114` distinct killable states of the `70000`, where
`min (toKill, E)` over unbounded integers is `111`. -/
theorem memoryCap_kill_count_wraps :
    (crowdedMaster 70000).killable.length = 70000 ∧
    ∃ victims, (crowdedMaster 70000).checkMemoryUsage 64101 [] =
        { crowdedMaster 70000 with removedStates := victims, atMemoryLimit := true } ∧
      victims.Nodup ∧ (∀ v ∈ victims, v ∈ (crowdedMaster 70000).killable) ∧
      victims.length = 67114 ∧ min (max 1 (70000 - 70000 * 64000 / 64101)) 70000 = 111 := by
  obtain ⟨hE, victims, hk, hvnd, hvmem, hvlen⟩ := crowdedMaster_kills 70000 64101 (by decide)
  exact ⟨hE, victims, hk, hvnd, hvmem, hvlen.trans (by decide), by decide⟩

end PChop
