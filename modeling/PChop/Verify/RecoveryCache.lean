import PChop.Verify.RecoveryChains

/-!
# The recovery cache

A state's `recoveryCache` memoises the slices it has queued for re-execution: `filterInfos`, the
second loop of `getAllRecoveryInfo`, queues the recovery info of a triple
`(snapshotIndex, sliceId, loadAddr)` only when the cache has no entry for it, and enters the
triple in the cache as pending at that moment (`filterInfos_spec`). The first loop lists the
infos in increasing snapshot index (`requiredInfos_sorted`), and the second walks them from the
last one back, pushing each in front, so one call queues its infos in increasing snapshot
index (`getAllRecoveryInfo_spec`), the order the recovery states start in.

Every move of a node keeps every entry of the cache of every state that lives through it
(`Executor.CacheGrows`, `Node.cacheGrows_run`), so a triple is queued at most once in the
lifetime of a state (`recovery_queue_memoised`).
-/

namespace PChop

namespace ExecutionState

/-- Every entry of the recovery cache of `s` is an entry of that of `s'`. -/
def CacheLe (s s' : ExecutionState) : Prop :=
  ∀ key a, (s.recoveryCache key a).isSome → (s'.recoveryCache key a).isSome

theorem CacheLe.refl (s : ExecutionState) : s.CacheLe s := fun _ _ h => h

theorem CacheLe.trans {s₁ s₂ s₃ : ExecutionState} (h₁ : s₁.CacheLe s₂) (h₂ : s₂.CacheLe s₃) :
    s₁.CacheLe s₃ := fun key a h => h₂ key a (h₁ key a h)

theorem CacheLe.of_eq {s s' : ExecutionState} (h : s'.recoveryCache = s.recoveryCache) :
    s.CacheLe s' := fun _ _ hs => h ▸ hs

theorem recoveryCache_addConstraint (s : ExecutionState) (c : Expr) :
    (s.addConstraint c).recoveryCache = s.recoveryCache := by
  unfold addConstraint addGuidingConstraint; split <;> rfl

@[simp] theorem getRecoveredValue_updateRecoveredValue (s : ExecutionState)
    (index sliceId address : Nat) (v : RecoveredValue) (index' sliceId' address' : Nat) :
    (s.updateRecoveredValue index sliceId address v).getRecoveredValue index' sliceId' address' =
      if index' = index ∧ sliceId' = sliceId ∧ address' = address then some v
      else s.getRecoveredValue index' sliceId' address' := by
  simp [updateRecoveredValue, getRecoveredValue, and_assoc]

theorem cacheLe_updateRecoveredValue (s : ExecutionState) (index sliceId address : Nat)
    (v : RecoveredValue) : s.CacheLe (s.updateRecoveredValue index sliceId address v) :=
  fun key a h => by
    dsimp only [updateRecoveredValue]
    split
    · rfl
    · exact h

@[simp] theorem getRecoveredValue_addRecoveredAddress (s : ExecutionState) (a : Nat) :
    (s.addRecoveredAddress a).getRecoveredValue = s.getRecoveredValue := rfl

@[simp] theorem getRecoveredValue_write (s : ExecutionState) (a : Nat) (v : List Nat) :
    (s.write a v).getRecoveredValue = s.getRecoveredValue := rfl

/-! ## One call of getAllRecoveryInfo -/

/-- The second loop of `getAllRecoveryInfo`: the infos it queues are some of those it walks,
queued in front in reverse order, each of a triple the cache had no entry for; the cache
afterwards has these triples as pending and is otherwise unchanged. -/
theorem filterInfos_spec (loadAddr : Nat) :
    ∀ (ris : List RecoveryInfo) (s : ExecutionState) (queued : List RecoveryInfo),
      ∃ new : List RecoveryInfo, new.Sublist ris ∧
        (filterInfos loadAddr ris s queued).2.1 = new.reverse ++ queued ∧
        (∀ ri ∈ new, s.getRecoveredValue ri.snapshotIndex ri.sliceId loadAddr = none) ∧
        ∀ i sl a, (filterInfos loadAddr ris s queued).1.getRecoveredValue i sl a =
          if a = loadAddr ∧ ∃ ri ∈ new, ri.snapshotIndex = i ∧ ri.sliceId = sl then some none
          else s.getRecoveredValue i sl a
  | [], s, queued => ⟨[], List.Sublist.slnil, rfl, by simp, by simp [filterInfos]⟩
  | ri :: rest, s, queued => by
    unfold filterInfos
    split
    · -- a cached value is written, and the walk stops
      exact ⟨[], List.nil_sublist _, rfl, by simp, by simp⟩
    · -- a slice cached as not writing is skipped
      obtain ⟨new, hsub, hq, hnew, hget⟩ :=
        filterInfos_spec loadAddr rest (s.addRecoveredAddress loadAddr) queued
      exact ⟨new, hsub.cons ri, hq, hnew, hget⟩
    · -- a slice not in the cache is entered as pending and queued
      rename_i hnone
      obtain ⟨new, hsub, hq, hnew, hget⟩ := filterInfos_spec loadAddr rest
        (s.updateRecoveredValue ri.snapshotIndex ri.sliceId loadAddr none) (ri :: queued)
      refine ⟨ri :: new, hsub.cons₂ ri, by simp [hq], fun r hr => ?_, fun i sl a => ?_⟩
      · rcases List.mem_cons.mp hr with rfl | hr
        · exact hnone
        · have := hnew r hr
          rw [getRecoveredValue_updateRecoveredValue] at this
          split at this
          · cases this
          · exact this
      · rw [hget, getRecoveredValue_updateRecoveredValue]
        by_cases ha : a = loadAddr
        · subst ha
          by_cases hri : ri.snapshotIndex = i ∧ ri.sliceId = sl
          · simp [hri]
          · simp only [true_and, List.mem_cons, exists_eq_or_imp, hri, false_or]
            split_ifs <;> simp_all
        · simp [ha]

/-- The first loop of `getAllRecoveryInfo` lists infos of the load's address, of snapshot
indices from `index` on, in increasing order. -/
theorem requiredInfos_sorted (s : ExecutionState) (loadAddr loadSize : Nat)
    (mods : List (Nat × Nat)) : ∀ (index : Nat) (snaps : List Snapshot),
      (∀ ri ∈ s.requiredInfos loadAddr loadSize mods index snaps,
        index ≤ ri.snapshotIndex ∧ ri.loadAddr = loadAddr) ∧
      (s.requiredInfos loadAddr loadSize mods index snaps).Pairwise
        (·.snapshotIndex < ·.snapshotIndex)
  | _, [] => by simp [requiredInfos]
  | index, snap :: rest => by
    obtain ⟨hge, hsorted⟩ := requiredInfos_sorted s loadAddr loadSize mods (index + 1) rest
    have hge' : ∀ ri ∈ s.requiredInfos loadAddr loadSize mods (index + 1) rest,
        index ≤ ri.snapshotIndex ∧ ri.loadAddr = loadAddr :=
      fun ri hri => ⟨Nat.le_of_succ_le (hge ri hri).1, (hge ri hri).2⟩
    unfold requiredInfos
    split
    · simp
    · split
      · -- the info of this snapshot comes before those of the later ones
        refine ⟨fun ri hri => ?_, List.pairwise_cons.mpr ⟨fun ri hri => (hge ri hri).1, hsorted⟩⟩
        rcases List.mem_cons.mp hri with rfl | hri
        · exact ⟨Nat.le_refl _, rfl⟩
        · exact hge' ri hri
      · exact ⟨hge', hsorted⟩

/-- One call of `getAllRecoveryInfo` for a load at `loadAddr`: the infos it queues are of the
load's address, in strictly increasing snapshot index, each of a triple the cache had no entry
for; the cache afterwards has these triples as pending and is otherwise unchanged. -/
theorem getAllRecoveryInfo_spec (s : ExecutionState) (loadAddr loadSize : Nat)
    (mods : List (Nat × Nat)) :
    (s.getAllRecoveryInfo loadAddr loadSize mods).2.1.Pairwise (·.snapshotIndex < ·.snapshotIndex) ∧
      (∀ ri ∈ (s.getAllRecoveryInfo loadAddr loadSize mods).2.1, ri.loadAddr = loadAddr ∧
        s.getRecoveredValue ri.snapshotIndex ri.sliceId loadAddr = none) ∧
      ∀ i sl a, (s.getAllRecoveryInfo loadAddr loadSize mods).1.getRecoveredValue i sl a =
        if a = loadAddr ∧ ∃ ri ∈ (s.getAllRecoveryInfo loadAddr loadSize mods).2.1,
          ri.snapshotIndex = i ∧ ri.sliceId = sl then some none
        else s.getRecoveredValue i sl a := by
  have hsorted := requiredInfos_sorted s loadAddr loadSize mods
    (s.getStartingIndex loadAddr loadSize) (s.snapshots.drop (s.getStartingIndex loadAddr loadSize))
  unfold getAllRecoveryInfo
  generalize s.requiredInfos loadAddr loadSize mods _ _ = required at hsorted ⊢
  obtain ⟨hmem, hlt⟩ := hsorted
  obtain ⟨new, hsub, hq, hnew, hget⟩ := filterInfos_spec loadAddr required.reverse s []
  rw [List.append_nil] at hq
  simp only [hq, List.mem_reverse]
  refine ⟨?_, fun ri hri => ⟨(hmem ri (List.mem_reverse.mp (hsub.subset hri))).2, hnew ri hri⟩,
    hget⟩
  -- the walk goes from the last info back, and pushes each in front
  rw [List.pairwise_reverse]
  exact (List.pairwise_reverse.mpr hlt).sublist hsub

theorem cacheLe_getAllRecoveryInfo (s : ExecutionState) (loadAddr loadSize : Nat)
    (mods : List (Nat × Nat)) : s.CacheLe (s.getAllRecoveryInfo loadAddr loadSize mods).1 :=
  fun key a h => by
    have := (getAllRecoveryInfo_spec s loadAddr loadSize mods).2.2 key.1 key.2 a
    simp only [getRecoveredValue] at this
    rw [this]
    split
    · rfl
    · exact h

/-- What `isMayBlockingLoad` can do: no recovery, no recovery with the load marked as not
blocking, or recovery of the unchanged state. -/
theorem isMayBlockingLoad_cases (s : ExecutionState) (mayBlock hasUses : Bool) (address size : Nat) :
    s.isMayBlockingLoad mayBlock hasUses address size = (s, false) ∨
      s.isMayBlockingLoad mayBlock hasUses address size =
        ({ s with blockingLoadStatus := false }, false) ∨
      s.isMayBlockingLoad mayBlock hasUses address size = (s, true) := by
  unfold isMayBlockingLoad isRecoveryRequired
  split
  · exact .inl rfl
  · split
    · exact .inl rfl
    · split
      · split
        · exact .inr (.inl rfl)
        · exact .inr (.inr rfl)
      · exact .inr (.inr rfl)

theorem recoveryCache_isMayBlockingLoad (s : ExecutionState) (mayBlock hasUses : Bool)
    (address size : Nat) :
    (s.isMayBlockingLoad mayBlock hasUses address size).1.recoveryCache = s.recoveryCache := by
  rcases isMayBlockingLoad_cases s mayBlock hasUses address size with h | h | h <;> rw [h]

theorem pendingRecoveryInfos_filterInfos (loadAddr : Nat) :
    ∀ (ris : List RecoveryInfo) (s : ExecutionState) (queued : List RecoveryInfo),
      (filterInfos loadAddr ris s queued).1.pendingRecoveryInfos = s.pendingRecoveryInfos
  | [], _, _ => rfl
  | ri :: rest, s, queued => by
    unfold filterInfos
    split
    · rfl
    · rw [pendingRecoveryInfos_filterInfos loadAddr rest]; rfl
    · rw [pendingRecoveryInfos_filterInfos loadAddr rest]; rfl

theorem recoveryCache_onNormalStateRead (s : ExecutionState) (address : Nat) :
    (s.onNormalStateRead address).recoveryCache = s.recoveryCache := by
  unfold onNormalStateRead; split <;> rfl

theorem pendingRecoveryInfos_onNormalStateRead (s : ExecutionState) (address : Nat) :
    (s.onNormalStateRead address).pendingRecoveryInfos = s.pendingRecoveryInfos := by
  unfold onNormalStateRead; split <;> rfl

theorem recoveryCache_onNormalStateWrite (s : ExecutionState) (isStore mayOverride : Bool)
    (address size : Nat) :
    (s.onNormalStateWrite isStore mayOverride address size).recoveryCache = s.recoveryCache := by
  unfold onNormalStateWrite; split <;> rfl

theorem cacheLe_onRecoveryStateWrite (r d : ExecutionState) (storeAddr : Nat) (v : List Nat) :
    d.CacheLe (r.onRecoveryStateWrite d storeAddr v) := by
  unfold onRecoveryStateWrite
  split
  · split
    · exact cacheLe_updateRecoveredValue (d.write storeAddr v) _ _ _ _
    · exact CacheLe.refl d
  · exact CacheLe.refl d

end ExecutionState

open ExecutionState (CacheLe)

namespace Executor

/-! ## Every move keeps the cache entries -/

/-- Every state below `nextId` that lives through the move keeps every entry of its recovery
cache, and `nextId` does not go down: the states from the old `nextId` on are new. -/
def CacheGrows (e e' : Executor) : Prop :=
  e.nextId ≤ e'.nextId ∧
    ∀ id s', id < e.nextId → e'.heap id = some s' → ∃ s, e.heap id = some s ∧ s.CacheLe s'

theorem CacheGrows.refl (e : Executor) : CacheGrows e e :=
  ⟨Nat.le_refl _, fun _ s' _ h => ⟨s', h, CacheLe.refl s'⟩⟩

theorem CacheGrows.trans {e₁ e₂ e₃ : Executor} (h₁ : CacheGrows e₁ e₂) (h₂ : CacheGrows e₂ e₃) :
    CacheGrows e₁ e₃ := by
  refine ⟨Nat.le_trans h₁.1 h₂.1, fun id s₃ hid hs₃ => ?_⟩
  obtain ⟨s₂, hs₂, h₂₃⟩ := h₂.2 id s₃ (Nat.lt_of_lt_of_le hid h₁.1) hs₃
  obtain ⟨s₁, hs₁, h₁₂⟩ := h₁.2 id s₂ hid hs₂
  exact ⟨s₁, hs₁, h₁₂.trans h₂₃⟩

/-- A move that changes neither the heap nor `nextId`. -/
theorem CacheGrows.of_heap {e e' : Executor} (hheap : e'.heap = e.heap) (hn : e'.nextId = e.nextId) :
    CacheGrows e e' :=
  ⟨hn.ge, fun _ s' _ h => ⟨s', hheap ▸ h, CacheLe.refl s'⟩⟩

variable (e : Executor)

theorem cacheGrows_setState {id : Nat} {s s' : ExecutionState} (hs : e.heap id = some s)
    (h : s.CacheLe s') : CacheGrows e (e.setState id s') := by
  refine ⟨Nat.le_refl _, fun j t _ ht => ?_⟩
  rw [setState_heap] at ht
  split at ht
  · subst j; cases ht; exact ⟨s, hs, h⟩
  · exact ⟨t, ht, CacheLe.refl t⟩

/-- Replacing a state, after a move that keeps every cache, by one with the entries it had
before the move. -/
theorem CacheGrows.setState {e e₀ : Executor} (h : CacheGrows e e₀) {id : Nat}
    {s s' : ExecutionState} (hs : e.heap id = some s) (hs' : s.CacheLe s') :
    CacheGrows e (e₀.setState id s') := by
  refine ⟨h.1, fun j t hj ht => ?_⟩
  rw [setState_heap] at ht
  split at ht
  · subst j; cases ht; exact ⟨s, hs, hs'⟩
  · exact h.2 j t hj ht

theorem cacheGrows_modifyState (id : Nat) {f : ExecutionState → ExecutionState}
    (hf : ∀ s : ExecutionState, s.CacheLe (f s)) : CacheGrows e (e.modifyState id f) := by
  unfold modifyState
  split
  · exact cacheGrows_setState e ‹_› (hf _)
  · exact CacheGrows.refl e

theorem cacheGrows_newState (s : ExecutionState) : CacheGrows e (e.newState s).1 := by
  refine ⟨Nat.le_succ _, fun j t hj ht => ⟨t, ?_, CacheLe.refl t⟩⟩
  rwa [newState_heap, if_neg (Nat.ne_of_lt hj)] at ht

theorem cacheGrows_deleteState (id : Nat) : CacheGrows e (e.deleteState id) := by
  refine ⟨Nat.le_refl _, fun j t _ ht => ⟨t, ?_, CacheLe.refl t⟩⟩
  rw [deleteState_heap] at ht
  split at ht
  · cases ht
  · exact ht

/-- A field update that keeps the recovery cache. -/
theorem cacheGrows_modifyState_of_eq (id : Nat) {f : ExecutionState → ExecutionState}
    (hf : ∀ s, (f s).recoveryCache = s.recoveryCache) : CacheGrows e (e.modifyState id f) :=
  cacheGrows_modifyState e id fun s => CacheLe.of_eq (hf s)

theorem cacheGrows_splitNode (node a b : Nat) : CacheGrows e (e.splitNode node a b) := by
  unfold splitNode
  refine CacheGrows.trans ?_ (cacheGrows_modifyState_of_eq _ _ fun _ => rfl)
  refine CacheGrows.trans ?_ (cacheGrows_modifyState_of_eq _ _ fun _ => rfl)
  exact CacheGrows.of_heap rfl rfl

/-! ### Terminating states -/

theorem cacheGrows_terminateState (id : Nat) : CacheGrows e (e.terminateState id) := by
  unfold terminateState
  split
  · exact (CacheGrows.of_heap rfl rfl).trans (cacheGrows_deleteState _ id)
  · exact CacheGrows.of_heap rfl rfl

theorem cacheGrows_terminateStateRecursivelyAux :
    ∀ (fuel : Nat) (e : Executor) (id : Nat), CacheGrows e (terminateStateRecursivelyAux fuel e id)
  | 0, e, _ => CacheGrows.refl e
  | fuel + 1, e, id => by
    unfold terminateStateRecursivelyAux
    split
    · exact (cacheGrows_terminateState e id).trans (cacheGrows_terminateStateRecursivelyAux fuel _ _)
    · exact cacheGrows_terminateState e id

theorem cacheGrows_terminateStateOrChain (id : Nat) : CacheGrows e (e.terminateStateOrChain id) := by
  unfold terminateStateOrChain
  split
  · split
    · exact cacheGrows_terminateStateRecursivelyAux _ e id
    · exact cacheGrows_terminateState e id
  · exact cacheGrows_terminateState e id

theorem cacheGrows_haltOnError (termReason : TerminateReason) (file : String) (line : Nat) :
    CacheGrows e (e.haltOnError termReason file line).1 := by
  unfold haltOnError; dsimp only; split_ifs <;> exact CacheGrows.of_heap rfl rfl

theorem cacheGrows_terminateStateOnError (id : Nat) (termReason : TerminateReason)
    (message : String) (lastInst : Nat) (file : String) (line : Nat) :
    CacheGrows e (e.terminateStateOnError id termReason message lastInst file line).1 := by
  unfold terminateStateOnError
  refine CacheGrows.trans ?_ (cacheGrows_haltOnError _ _ _ _)
  refine CacheGrows.trans ?_ (cacheGrows_terminateStateOrChain _ _)
  exact CacheGrows.of_heap rfl rfl

theorem cacheGrows_killStates : ∀ (toKill : Nat) (arr picks : List Nat) (e : Executor),
    CacheGrows e (killStates toKill arr picks e)
  | 0, _, _, e => by simp only [killStates]; exact CacheGrows.refl e
  | _ + 1, [], _, e => CacheGrows.refl e
  | toKill + 1, a :: arr, picks, e =>
    (cacheGrows_terminateStateOrChain e _).trans (cacheGrows_killStates toKill _ _ _)

theorem cacheGrows_checkMemoryUsage (mbs : Nat) (picks : List Nat) :
    CacheGrows e (e.checkMemoryUsage mbs picks) := by
  unfold checkMemoryUsage
  split
  · exact CacheGrows.refl e
  · split
    · refine CacheGrows.trans ?_ (CacheGrows.of_heap rfl rfl)
      split
      · exact cacheGrows_killStates _ _ _ e
      · exact CacheGrows.refl e
    · exact CacheGrows.of_heap rfl rfl

theorem CacheGrows.trans_of_heap {e e₁ e' : Executor} (h : CacheGrows e e₁)
    (hh : e'.heap = e₁.heap) (hn : e'.nextId = e₁.nextId) : CacheGrows e e' :=
  h.trans (CacheGrows.of_heap hh hn)

/-! ### Recovery -/

theorem cacheGrows_replicateBranchHist {src dst : Nat} {e' : Executor}
    (h : e.replicateBranchHist src dst = some e') : CacheGrows e e' := by
  simp only [replicateBranchHist, Option.bind_eq_bind', Option.bind_eq_some] at h
  obtain ⟨s, -, d, hd, h⟩ := h
  split at h
  · cases h; exact cacheGrows_setState e hd (CacheLe.of_eq rfl)
  · cases h

theorem cacheGrows_suspendState (id : Nat) : CacheGrows e (e.suspendState id) := by
  unfold suspendState
  refine CacheGrows.trans_of_heap ?_ rfl rfl
  exact cacheGrows_modifyState_of_eq _ _ fun _ => rfl

theorem cacheGrows_resumeState {id : Nat} {implicitlyCreated : Bool} {rec : Nat} {e' : Executor}
    (h : e.resumeState id implicitlyCreated rec = some e') : CacheGrows e e' := by
  refine CacheGrows.trans ?_ (cacheGrows_replicateBranchHist _ h)
  split <;> refine CacheGrows.trans_of_heap ?_ rfl rfl <;>
    exact cacheGrows_modifyState_of_eq _ _ fun _ => rfl

theorem cacheGrows_startRecoveryState {d : Nat} {ri : RecoveryInfo} {e' : Executor}
    (h : e.startRecoveryState d ri = some e') : CacheGrows e e' := by
  simp only [startRecoveryState, Option.bind_eq_bind', Option.bind_eq_some] at h
  obtain ⟨snap, -, ds, -, base, -, h⟩ := h
  refine CacheGrows.trans ?_ (cacheGrows_replicateBranchHist _ h)
  refine CacheGrows.trans_of_heap ?_ rfl rfl
  refine CacheGrows.trans ?_ (cacheGrows_splitNode _ _ _ _)
  exact (cacheGrows_newState e _).trans (cacheGrows_modifyState_of_eq _ _ fun _ => rfl)

theorem cacheGrows_notifyDependentState {rec : Nat} {e' : Executor}
    (h : e.notifyDependentState rec = some e') : CacheGrows e e' := by
  simp only [notifyDependentState, Option.bind_eq_bind', Option.bind_eq_some] at h
  obtain ⟨r, -, d, -, h⟩ := h
  exact cacheGrows_resumeState e h

theorem cacheGrows_onRecoveryStateExit {rec : Nat} {e' : Executor}
    (h : e.onRecoveryStateExit rec = some e') : CacheGrows e e' := by
  simp only [onRecoveryStateExit, Option.bind_eq_bind'] at h
  obtain ⟨r, -, h⟩ := Option.bind_eq_some.mp h
  obtain ⟨d, -, h⟩ := Option.bind_eq_some.mp h
  obtain ⟨ds, hds, h⟩ := Option.bind_eq_some.mp h
  split at h
  · obtain ⟨e₃, he₃, h⟩ := Option.bind_eq_some.mp h
    obtain ⟨e₁, he₁, h⟩ := Option.bind_eq_some.mp h
    cases h
    refine CacheGrows.trans ?_ (cacheGrows_terminateState e₁ rec)
    refine CacheGrows.trans ?_ (cacheGrows_startRecoveryState _ he₁)
    refine CacheGrows.trans ?_ (cacheGrows_replicateBranchHist _ he₃)
    exact cacheGrows_setState e hds (CacheLe.of_eq rfl)
  · obtain ⟨e₁, he₁, h⟩ := Option.bind_eq_some.mp h
    cases h
    exact (cacheGrows_notifyDependentState e he₁).trans (cacheGrows_terminateState e₁ rec)

theorem cacheGrows_executeSkippedCall {id f : Nat} {hasSideEffects : Bool} {e' : Executor}
    (h : e.executeSkippedCall id f hasSideEffects = some e') : CacheGrows e e' := by
  simp only [executeSkippedCall, Option.bind_eq_bind', Option.bind_eq_some] at h
  obtain ⟨s, hs, h⟩ := h
  split at h
  · cases h
    -- the snapshot is new; the state keeps its cache, also if the snapshot took its pointer
    obtain ⟨s₁, hs₁, hc⟩ : ∃ s₁ : ExecutionState,
        (e.newState { s with guidingConstraints := [] }).1.heap id = some s₁ ∧
          s₁.recoveryCache = s.recoveryCache := by
      rw [newState_heap]
      split
      · exact ⟨_, rfl, rfl⟩
      · exact ⟨s, hs, rfl⟩
    exact (cacheGrows_newState e _).trans (cacheGrows_setState _ hs₁ (CacheLe.of_eq hc.symm))
  · cases h; exact CacheGrows.refl e

theorem cacheGrows_onRecoveryStateWrite (r : ExecutionState) (address : Nat) (v : List Nat) :
    CacheGrows e (e.onRecoveryStateWrite r address v) := by
  unfold onRecoveryStateWrite
  split
  · exact cacheGrows_modifyState _ _ fun ds =>
      ExecutionState.cacheLe_onRecoveryStateWrite r ds address v
  · exact CacheGrows.refl e

theorem cacheGrows_getAllRecoveryInfo (s : ExecutionState) (address size : Nat)
    (mods : List (Nat × Nat)) : CacheGrows e (e.getAllRecoveryInfo s address size mods).1 := by
  dsimp only [getAllRecoveryInfo]
  split
  · split
    · exact cacheGrows_onRecoveryStateWrite ..
    · exact CacheGrows.refl e
  · exact CacheGrows.refl e

theorem cacheGrows_executeLoad {id : Nat} {mayBlock hasUses : Bool} {address size : Nat}
    {mods : List (Nat × Nat)} {e' : Executor}
    (h : e.executeLoad id mayBlock hasUses address size mods = some e') : CacheGrows e e' := by
  rw [executeLoad, Option.bind_eq_bind'] at h
  obtain ⟨s, hs, h⟩ := Option.bind_eq_some.mp h
  generalize hp : (if s.isNormalState && s.isInDependentMode && s.blockingLoadStatus then
      s.isMayBlockingLoad mayBlock hasUses address size else (s, false)) = p at h
  obtain ⟨s₁, req⟩ := p
  have hs₁ : s₁.recoveryCache = s.recoveryCache := by
    split at hp
    · rw [← ExecutionState.recoveryCache_isMayBlockingLoad s mayBlock hasUses address size, hp]
    · cases hp; rfl
  cases req
  · dsimp only at h
    simp only [Bool.false_eq_true, ↓reduceIte] at h
    cases h
    refine cacheGrows_setState e hs (CacheLe.of_eq ?_)
    split
    · exact (ExecutionState.recoveryCache_onNormalStateRead s₁ address).trans hs₁
    · exact hs₁
  · simp only [↓reduceIte] at h
    -- the lookups keep every cache, and the pending infos join the loading state's
    have h₀ := cacheGrows_getAllRecoveryInfo e s₁ address size mods
    have hX : s.CacheLe (e.getAllRecoveryInfo s₁ address size mods).2 :=
      (CacheLe.of_eq hs₁).trans (ExecutionState.cacheLe_getAllRecoveryInfo s₁ address size mods)
    split at h
    · obtain ⟨e₁, he₁, h⟩ := Option.bind_eq_some.mp h
      have h₁ : CacheGrows e e₁ := by
        refine (h₀.setState hs ?_).trans (cacheGrows_startRecoveryState _ he₁)
        exact hX
      split at h
      · cases h; exact h₁
      · cases h; exact h₁.trans (cacheGrows_suspendState e₁ id)
    · cases h
      refine h₀.setState hs (hX.trans (CacheLe.of_eq ?_))
      split
      · exact ExecutionState.recoveryCache_onNormalStateRead _ address
      · rfl

theorem cacheGrows_executeStore {id : Nat} {address : Nat} {v : List Nat} {mayOverride : Bool}
    {e' : Executor} (h : e.executeStore id address v mayOverride = some e') : CacheGrows e e' := by
  simp only [executeStore, Option.bind_eq_bind', Option.bind_eq_some] at h
  obtain ⟨s, hs, h⟩ := h
  cases h
  have hw : CacheGrows e (e.setState id (s.write address v)) :=
    cacheGrows_setState e hs (CacheLe.of_eq rfl)
  -- a recovery state's store may enter a recovered value in its dependent's cache
  have hr := hw.trans (cacheGrows_onRecoveryStateWrite _ (s.write address v) address v)
  have hn := fun s : ExecutionState =>
    ExecutionState.recoveryCache_onNormalStateWrite s true mayOverride address v.length
  split_ifs
  · exact hr.trans (cacheGrows_modifyState_of_eq _ _ hn)
  · exact hw.trans (cacheGrows_modifyState_of_eq _ _ hn)
  · exact hr
  · exact hw

/-! ### The queue of a load -/

theorem heap_replicateBranchHist_of_ne {src dst : Nat} {e' : Executor}
    (h : e.replicateBranchHist src dst = some e') {j : Nat} (hj : j ≠ dst) : e'.heap j = e.heap j := by
  simp only [replicateBranchHist, Option.bind_eq_bind', Option.bind_eq_some] at h
  obtain ⟨_, -, _, -, h⟩ := h
  split at h
  · cases h; simp [hj]
  · cases h

/-- `startRecoveryState d ri` keeps the recovery cache and the pending infos of `d`. -/
theorem startRecoveryState_dependent {d : Nat} {ri : RecoveryInfo} {e' : Executor}
    {ds : ExecutionState} (hd : e.heap d = some ds) (hne : d ≠ e.nextId)
    (h : e.startRecoveryState d ri = some e') : ∃ ds', e'.heap d = some ds' ∧
      ds'.recoveryCache = ds.recoveryCache ∧ ds'.pendingRecoveryInfos = ds.pendingRecoveryInfos := by
  simp only [startRecoveryState, Option.bind_eq_bind', Option.bind_eq_some] at h
  obtain ⟨snap, -, ds₀, hds₀, base, -, h⟩ := h
  cases hd.symm.trans hds₀
  rw [heap_replicateBranchHist_of_ne _ h hne]
  simp [splitNode, modifyState_heap, hne, hd]

/-- A load by the state `id`: when its recovery is required (the checks of the `Load` case
and `isMayBlockingLoad`), it queues the infos of `getAllRecoveryInfo` in front of its pending
ones, takes the cache the call leaves, and pops the first info of the queue to start its
recovery state; otherwise it keeps its cache and its pending infos. -/
theorem executeLoad_queue {id : Nat} {mayBlock hasUses : Bool} {address size : Nat}
    {mods : List (Nat × Nat)} {e' : Executor} {s : ExecutionState} (hs : e.heap id = some s)
    (hne : id ≠ e.nextId) (h : e.executeLoad id mayBlock hasUses address size mods = some e') :
    ∃ s₁, e'.heap id = some s₁ ∧
      if s.isNormalState && s.isInDependentMode && s.blockingLoadStatus &&
          (s.isMayBlockingLoad mayBlock hasUses address size).2 then
        s₁.recoveryCache = (s.getAllRecoveryInfo address size mods).1.recoveryCache ∧
          s₁.pendingRecoveryInfos =
            ((s.getAllRecoveryInfo address size mods).2.1 ++ s.pendingRecoveryInfos).tail
      else s₁.recoveryCache = s.recoveryCache ∧ s₁.pendingRecoveryInfos = s.pendingRecoveryInfos := by
  rw [executeLoad, Option.bind_eq_bind'] at h
  obtain ⟨s₀, hs₀, h⟩ := Option.bind_eq_some.mp h
  cases hs.symm.trans hs₀
  generalize hp : (if s.isNormalState && s.isInDependentMode && s.blockingLoadStatus then
      s.isMayBlockingLoad mayBlock hasUses address size else (s, false)) = p at h
  -- the statement's test is the flag the load computes
  have hreq : (s.isNormalState && s.isInDependentMode && s.blockingLoadStatus &&
      (s.isMayBlockingLoad mayBlock hasUses address size).2) = p.2 := by
    rw [← hp]
    cases hc : (s.isNormalState && s.isInDependentMode && s.blockingLoadStatus) <;> simp [hc]
  rw [hreq]
  have hp' : p = (s, false) ∨ p = ({ s with blockingLoadStatus := false }, false) ∨ p = (s, true) := by
    rw [← hp]
    split
    · exact ExecutionState.isMayBlockingLoad_cases ..
    · exact .inl rfl
  -- the state the load reads memory with keeps its cache and its queue
  have hread : ∀ (e₀ : Executor) (x : ExecutionState), ∃ s₁,
      (e₀.setState id (if x.isNormalState then x.onNormalStateRead address else x)).heap id =
        some s₁ ∧ s₁.recoveryCache = x.recoveryCache ∧
          s₁.pendingRecoveryInfos = x.pendingRecoveryInfos := fun e₀ x => by
    refine ⟨_, (setState_heap e₀ id _ id).trans (if_pos rfl), ?_⟩
    split
    · exact ⟨ExecutionState.recoveryCache_onNormalStateRead x address,
        ExecutionState.pendingRecoveryInfos_onNormalStateRead x address⟩
    · exact ⟨rfl, rfl⟩
  rcases hp' with rfl | rfl | rfl
  · simp only [Bool.false_eq_true, ↓reduceIte] at h ⊢
    cases h
    exact hread e s
  · simp only [Bool.false_eq_true, ↓reduceIte] at h ⊢
    cases h
    exact hread e { s with blockingLoadStatus := false }
  · simp only [↓reduceIte] at h ⊢
    have hq : (s.getAllRecoveryInfo address size mods).1.pendingRecoveryInfos =
        s.pendingRecoveryInfos := ExecutionState.pendingRecoveryInfos_filterInfos _ _ _ _
    have hne₀ : id ≠ (e.getAllRecoveryInfo s address size mods).1.nextId := fun h =>
      hne (h.trans (congrArg Skel.nextId (skel_getAllRecoveryInfo e s address size mods)))
    split at h
    · -- the first info of the queue starts its recovery state
      rename_i ri rest _ hqueue
      obtain ⟨e₁, he₁, h⟩ := Option.bind_eq_some.mp h
      obtain ⟨ds', hds', hc, hp⟩ := startRecoveryState_dependent _
        ((setState_heap _ id _ id).trans (if_pos rfl)) hne₀ he₁
      have hrest : rest = ((s.getAllRecoveryInfo address size mods).2.1 ++
          s.pendingRecoveryInfos).tail := by
        rw [← hq]
        exact (congrArg List.tail hqueue).symm
      split at h
      · cases h; exact ⟨ds', hds', hc, hp.trans hrest⟩
      · cases h
        exact ⟨{ ds' with suspendStatus := true }, by simp [suspendState, modifyState_heap, hds'],
          hc, hp.trans hrest⟩
    · -- nothing to queue: the load reads memory
      rename_i hnone
      have hnil : (e.getAllRecoveryInfo s address size mods).2.pendingRecoveryInfos = [] := by
        cases hl : (e.getAllRecoveryInfo s address size mods).2.pendingRecoveryInfos with
        | nil => rfl
        | cons ri rest => exact (hnone ri rest rfl hl).elim
      cases h
      obtain ⟨s₁, h₁, hc, hq₁⟩ := hread _ _
      refine ⟨s₁, h₁, hc, hq₁.trans (hnil.trans ?_)⟩
      rw [← hq]
      exact (congrArg List.tail hnil).symm

/-! ### Forking -/

theorem cacheGrows_forkChain : ∀ (fuel : Nat) (e : Executor) (cur prev : Nat) {e' : Executor}
    {last : Nat}, forkChain fuel e cur prev = some (e', last) → CacheGrows e e'
  | 0, _, _, _, _, _, h => by cases h
  | fuel + 1, e, cur, prev, e', last, h => by
    simp only [forkChain, Option.bind_eq_bind', Option.bind_eq_some] at h
    obtain ⟨cs, -, h⟩ := h
    split at h
    · cases h
    -- one turn: a copy at a new pointer and link updates, which keep every cache
    have hturn : ∀ a b, CacheGrows e ((((e.newState cs).1.modifyState a fun s =>
        { s with recoveryState := some prev }).modifyState prev fun s =>
          { s with dependentState := some a }).splitNode cs.ptreeNode a b) := fun a b => by
      refine CacheGrows.trans ?_ (cacheGrows_splitNode _ _ _ _)
      refine CacheGrows.trans ?_ (cacheGrows_modifyState_of_eq _ _ fun _ => rfl)
      exact (cacheGrows_newState e cs).trans (cacheGrows_modifyState_of_eq _ _ fun _ => rfl)
    split at h
    · obtain ⟨next, -, h⟩ := Option.bind_eq_some.mp h
      exact (hturn _ _).trans (cacheGrows_forkChain fuel _ next _ h)
    · cases h; exact hturn _ _

theorem cacheGrows_setOriginating : ∀ (fuel : Nat) (e : Executor) (cur orig : Nat),
    CacheGrows e (setOriginating fuel e cur orig)
  | 0, e, _, _ => CacheGrows.refl e
  | fuel + 1, e, cur, orig => by
    simp only [setOriginating]
    split
    · split
      · split
        · refine CacheGrows.trans ?_ (cacheGrows_setOriginating fuel _ _ _)
          exact cacheGrows_modifyState_of_eq _ _ fun _ => rfl
        · exact cacheGrows_modifyState_of_eq _ _ fun _ => rfl
      · exact CacheGrows.refl e
    · exact CacheGrows.refl e

theorem cacheGrows_forkDependentStates {t f : Nat} {e' : Executor}
    (h : e.forkDependentStates t f = some e') : CacheGrows e e' := by
  simp only [forkDependentStates, Option.bind_eq_bind', Option.bind_eq_some] at h
  obtain ⟨ts, -, d, -, ⟨e₁, orig⟩, h₁, h⟩ := h
  cases h
  exact (cacheGrows_forkChain _ e _ _ h₁).trans (cacheGrows_setOriginating _ _ _ _)

theorem cacheGrows_mergeChain : ∀ (fuel : Nat) (e : Executor) (cur : Nat) (c : Expr),
    CacheGrows e (mergeChain fuel e cur c)
  | 0, e, _, _ => CacheGrows.refl e
  | fuel + 1, e, cur, c => by
    have h₁ := cacheGrows_modifyState_of_eq e cur (f := (·.addConstraint c))
      fun s => ExecutionState.recoveryCache_addConstraint s c
    simp only [mergeChain]
    split
    · exact h₁.trans (cacheGrows_mergeChain fuel _ _ c)
    · exact h₁

theorem cacheGrows_mergeConstraintsForAll {rec : Nat} {c : Expr} {e' : Executor}
    (h : e.mergeConstraintsForAll rec c = some e') : CacheGrows e e' := by
  simp only [mergeConstraintsForAll, Option.bind_eq_bind', Option.bind_eq_some] at h
  obtain ⟨_, -, _, -, _, -, h⟩ := h
  cases h
  exact (cacheGrows_mergeChain _ e _ c).trans (cacheGrows_modifyState_of_eq _ _ fun _ => rfl)

theorem cacheGrows_forcedChoice (cur : Nat) (s : ExecutionState) (fi : ForkInput)
    (res : Validity) : CacheGrows e (e.forcedChoice cur s fi res).1 := by
  unfold forcedChoice
  split
  · split <;> exact cacheGrows_modifyState_of_eq _ _ fun s => ExecutionState.recoveryCache_addConstraint s _
  · exact CacheGrows.refl e

theorem cacheGrows_followBranch (cur : Nat) (fi : ForkInput) (c : Char) :
    CacheGrows e (e.followBranch cur fi c) := by
  unfold followBranch
  split
  · exact CacheGrows.refl e
  · exact cacheGrows_modifyState_of_eq _ _ fun _ => rfl

theorem cacheGrows_forkStates {cur : Nat} {fi : ForkInput} {curIsTrue removePrefixes : Bool}
    {e' : Executor} {t f : Nat}
    (h : e.forkStates cur fi curIsTrue removePrefixes = some (e', t, f)) : CacheGrows e e' := by
  rw [forkStates] at h
  obtain ⟨⟨e₁, new⟩, hb, h⟩ := Option.bind_eq_some.mp h
  obtain ⟨cs₀, -, hb⟩ := Option.map_eq_some'.mp hb
  have h₁ : CacheGrows e e₁ := by
    rw [← show (e.newState cs₀).1 = e₁ from congrArg Prod.fst hb]; exact cacheGrows_newState e cs₀
  dsimp only at h
  generalize (if curIsTrue = true then (cur, new) else (new, cur)) = p at h
  obtain ⟨t₀, f₀⟩ := p
  generalize hep : (if removePrefixes = true then _ else e₁) = ep at h
  have hp : CacheGrows e₁ ep := by
    rw [← hep]
    split
    · refine CacheGrows.trans ?_ (cacheGrows_modifyState_of_eq _ _ fun _ => rfl)
      exact cacheGrows_modifyState_of_eq _ _ fun _ => rfl
    · exact CacheGrows.refl e₁
  obtain ⟨cs, -, h⟩ := Option.bind_eq_some.mp h
  generalize hed : Executor.modifyState
    (Executor.modifyState (if fi.isInternal = true then _ else _) _ _) _ _ = ed at h
  have hd : CacheGrows ep ed := by
    rw [← hed]
    refine CacheGrows.trans ?_
      (cacheGrows_modifyState_of_eq _ _ fun s => ExecutionState.recoveryCache_addConstraint s _)
    refine CacheGrows.trans ?_
      (cacheGrows_modifyState_of_eq _ _ fun s => ExecutionState.recoveryCache_addConstraint s _)
    split
    · exact cacheGrows_splitNode ep _ _ _
    · refine CacheGrows.trans ?_ (cacheGrows_modifyState_of_eq _ _ fun _ => rfl)
      refine CacheGrows.trans ?_ (cacheGrows_modifyState_of_eq _ _ fun _ => rfl)
      exact cacheGrows_splitNode ep _ _ _
  have h₂ := h₁.trans (hp.trans hd)
  split at h
  · -- a recovery state's chain is copied, and both chains take the condition
    obtain ⟨e₃, h₃, h⟩ := Option.bind_eq_some.mp h
    obtain ⟨e₄, h₄, h⟩ := Option.bind_eq_some.mp h
    obtain ⟨e₅, h₅, h⟩ := Option.bind_eq_some.mp h
    cases h
    exact ((h₂.trans (cacheGrows_forkDependentStates _ h₃)).trans
      (cacheGrows_mergeConstraintsForAll _ h₄)).trans (cacheGrows_mergeConstraintsForAll _ h₅)
  · cases h; exact h₂

theorem cacheGrows_fork {cur : Nat} {fi : ForkInput} {e' : Executor} {t f : Option Nat}
    (h : e.fork cur fi = some (e', t, f)) : CacheGrows e e' := by
  rw [fork] at h
  obtain ⟨s, -, h⟩ := Option.bind_eq_some.mp h
  obtain ⟨dec, -, h⟩ := Option.bind_eq_some.mp h
  split at h
  · cases h; exact cacheGrows_terminateStateOrChain e cur
  rename_i res forkAndSuspend
  dsimp only at h
  have h₁ := cacheGrows_forcedChoice e cur s fi res
  generalize e.forcedChoice cur s fi res = p at h h₁
  obtain ⟨e₁, res'⟩ := p
  split at h
  · obtain ⟨⟨e₂, t₂, f₂⟩, h₂, h⟩ := Option.bind_eq_some.mp h
    cases h
    exact (h₁.trans (cacheGrows_forkStates _ h₂)).trans_of_heap rfl rfl
  · cases h; exact h₁.trans (cacheGrows_followBranch _ _ _ _)
  · obtain ⟨⟨e₂, t₂, f₂⟩, h₂, h⟩ := Option.bind_eq_some.mp h
    cases h
    have h₃ := cacheGrows_forkStates _ h₂
    exact (h₁.trans ((CacheGrows.of_heap rfl rfl).trans h₃)).trans_of_heap rfl rfl
  · cases h; exact h₁.trans (cacheGrows_followBranch _ _ _ _)
  · obtain ⟨⟨e₂, t₂, f₂⟩, h₂, h⟩ := Option.bind_eq_some.mp h
    cases h
    have h₃ := cacheGrows_forkStates _ h₂
    exact (h₁.trans ((CacheGrows.of_heap rfl rfl).trans h₃)).trans_of_heap rfl rfl

/-! ### Multi-way branches -/

theorem cacheGrows_branchCopies : ∀ (n : Nat) (e : Executor) (result : List Nat)
    (addStates : Bool) {e' : Executor} {result' : List Nat},
    branchCopies n e result addStates = some (e', result') → CacheGrows e e'
  | 0, e, _, _, _, _, h => by cases h; exact CacheGrows.refl e
  | n + 1, e, result, addStates, e', result', h => by
    rw [branchCopies] at h
    obtain ⟨es, -, h⟩ := Option.bind_eq_some.mp h
    obtain ⟨⟨e₁, ns⟩, hb, h⟩ := Option.bind_eq_some.mp h
    obtain ⟨s₀, -, hb⟩ := Option.map_eq_some'.mp hb
    have h₁ : CacheGrows e e₁ := by
      rw [← show (e.newState s₀).1 = e₁ from congrArg Prod.fst hb]; exact cacheGrows_newState e s₀
    dsimp only at h
    generalize he₂ : (if addStates = true then _ else e₁) = e₂ at h
    have h₂ : CacheGrows e₁ e₂ := by
      rw [← he₂]; split
      · exact CacheGrows.of_heap rfl rfl
      · exact CacheGrows.refl e₁
    obtain ⟨s, -, h⟩ := Option.bind_eq_some.mp h
    refine (h₁.trans h₂).trans (CacheGrows.trans ?_ (cacheGrows_branchCopies n _ _ _ h))
    refine CacheGrows.trans ?_ (cacheGrows_modifyState_of_eq _ _ fun _ => rfl)
    refine CacheGrows.trans ?_ (cacheGrows_modifyState_of_eq _ _ fun _ => rfl)
    exact cacheGrows_splitNode e₂ _ _ _

theorem cacheGrows_eraseChain : ∀ (fuel : Nat) (e e' : Executor) (cur : Nat),
    eraseChain fuel e cur = some e' → CacheGrows e e'
  | 0, _, _, _, h => by cases h
  | fuel + 1, e, e', cur, h => by
    rw [eraseChain] at h
    split at h
    · cases h
    split at h
    · have h₁ := cacheGrows_eraseChain fuel _ e' _ h
      exact (CacheGrows.of_heap rfl rfl).trans h₁
    · cases h; exact CacheGrows.of_heap rfl rfl

theorem cacheGrows_rangeCases {result : List Nat} {e' : Executor}
    (h : e.rangeCases result = some e') : CacheGrows e e' := by
  rw [rangeCases] at h
  obtain ⟨s₀, -, h⟩ := Option.bind_eq_some.mp h
  obtain ⟨r₀, -, h⟩ := Option.bind_eq_some.mp h
  split at h
  · obtain ⟨searcher, -, h⟩ := Option.bind_eq_some.mp h
    split at h
    · cases h
    · cases h; exact CacheGrows.of_heap rfl rfl
  · split at h
    · cases h; exact CacheGrows.of_heap rfl rfl
    · obtain ⟨searcher, -, h⟩ := Option.bind_eq_some.mp h
      have h₁ := cacheGrows_eraseChain _ _ _ _ h
      exact (CacheGrows.of_heap rfl rfl).trans h₁

theorem cacheGrows_branchTail : ∀ (pairs : List (Option Nat × Expr)) (prev : Option Nat)
    (e e' : Executor), branchTail pairs prev e = some e' → CacheGrows e e'
  | [], _, e, _, h => by cases h; exact CacheGrows.refl e
  | (current, c) :: rest, prev, e, e', h => by
    simp only [branchTail] at h
    cases current with
    | none => exact cacheGrows_branchTail rest none e e' h
    | some id =>
      obtain ⟨s, -, h⟩ := Option.bind_eq_some.mp h
      split at h
      · obtain ⟨e₁, h₁, h⟩ := Option.bind_eq_some.mp h
        exact (cacheGrows_forkDependentStates e h₁).trans (cacheGrows_branchTail rest _ _ _ h)
      · exact cacheGrows_branchTail rest _ e e' h

theorem cacheGrows_branchConstraints : ∀ (pairs : List (Option Nat × Expr)) (e e' : Executor),
    branchConstraints pairs e = some e' → CacheGrows e e'
  | [], e, _, h => by cases h; exact CacheGrows.refl e
  | (none, _) :: rest, e, e', h =>
    cacheGrows_branchConstraints rest e e' (by simpa [branchConstraints] using h)
  | (some id, c) :: rest, e, e', h => by
    simp only [branchConstraints, Option.bind_eq_bind', Option.bind_eq_some] at h
    obtain ⟨s, -, h⟩ := h
    have hm := cacheGrows_modifyState_of_eq e id (f := (·.addConstraint c))
      fun s => ExecutionState.recoveryCache_addConstraint s c
    split at h
    · obtain ⟨e₁, h₁, h⟩ := Option.bind_eq_some.mp h
      exact (hm.trans (cacheGrows_mergeConstraintsForAll _ h₁)).trans
        (cacheGrows_branchConstraints rest e₁ e' h)
    · exact hm.trans (cacheGrows_branchConstraints rest _ e' (by simpa using h))

theorem cacheGrows_branch {cur : Nat} {conditions : List Expr} {rng : Nat} {e' : Executor}
    {result : List (Option Nat)} (h : e.branch cur conditions rng = some (e', result)) :
    CacheGrows e e' := by
  rw [branch] at h
  split at h
  · cases h
  obtain ⟨s, -, h⟩ := Option.bind_eq_some.mp h
  -- the end of `branch`: the last two loops
  have hend : ∀ {e₁ : Executor} {res : List (Option Nat)},
      (do let e ← branchTail (res.zip conditions) none e₁
          let e ← branchConstraints (res.zip conditions) e
          some (e, res)) = some (e', result) → CacheGrows e₁ e' := by
    intro e₁ res h
    obtain ⟨e₂, h₂, h⟩ := Option.bind_eq_some.mp h
    obtain ⟨e₃, h₃, h⟩ := Option.bind_eq_some.mp h
    cases h
    exact (cacheGrows_branchTail _ _ _ _ h₂).trans (cacheGrows_branchConstraints _ _ _ h₃)
  dsimp only at h
  split at h
  · obtain ⟨y, hy, h⟩ := Option.bind_eq_some.mp h
    cases hy; exact hend h
  -- one copy per case, ranged on a worker with a prefix to follow
  split at h
  · obtain ⟨⟨e₄, res₄⟩, h₄, h⟩ := Option.bind_eq_some.mp h
    obtain ⟨y, hy, h⟩ := Option.bind_eq_some.mp h
    cases hy
    have h₄ := cacheGrows_branchCopies _ _ _ _ h₄
    exact ((CacheGrows.of_heap rfl rfl).trans h₄).trans (hend h)
  · obtain ⟨⟨e₄, res₄⟩, h₄, h⟩ := Option.bind_eq_some.mp h
    obtain ⟨e₅, h₅, h⟩ := Option.bind_eq_some.mp h
    obtain ⟨y, hy, h⟩ := Option.bind_eq_some.mp h
    cases hy
    have h₄ := cacheGrows_branchCopies _ _ _ _ h₄
    exact (((CacheGrows.of_heap rfl rfl).trans h₄).trans (cacheGrows_rangeCases _ h₅)).trans (hend h)

/-! ### The run loop -/

theorem cacheGrows_executeInstruction {id : Nat} {instr : Instr} {r : Executor × List Message}
    (h : e.executeInstruction id instr = some r) : CacheGrows e r.1 := by
  cases instr with
  | plain => cases h; exact CacheGrows.refl e
  | fork fi =>
    obtain ⟨⟨e₁, t, f⟩, h₁, rfl⟩ := Option.map_eq_some'.mp h
    exact cacheGrows_fork e h₁
  | switch conditions rng =>
    obtain ⟨⟨e₁, res⟩, h₁, rfl⟩ := Option.map_eq_some'.mp h
    exact cacheGrows_branch e h₁
  | call f hasSideEffects =>
    obtain ⟨e₁, h₁, rfl⟩ := Option.map_eq_some'.mp h
    exact cacheGrows_executeSkippedCall e h₁
  | load mayBlock hasUses address size mods =>
    obtain ⟨e₁, h₁, rfl⟩ := Option.map_eq_some'.mp h
    exact cacheGrows_executeLoad e h₁
  | store address v mayOverride =>
    obtain ⟨e₁, h₁, rfl⟩ := Option.map_eq_some'.mp h
    exact cacheGrows_executeStore e h₁
  | exit => cases h; exact cacheGrows_terminateStateOrChain e id
  | error termReason message lastInst file line =>
    cases h; exact cacheGrows_terminateStateOnError e id termReason message lastInst file line
  | early => cases h; exact cacheGrows_terminateStateOrChain e id
  | recoveryExit =>
    simp only [executeInstruction] at h
    split at h
    · split at h
      · obtain ⟨e₁, h₁, rfl⟩ := Option.map_eq_some'.mp h
        exact cacheGrows_onRecoveryStateExit e h₁
      · cases h; exact CacheGrows.refl e
    · cases h
  | resolve fis incomplete lastInst file line =>
    obtain ⟨e₁, u, h₁, hr⟩ := executeResolution_cases _ h
    have h₁ := (resolveStates_induct (fun e' _ => CacheGrows e e') (CacheGrows e)
      (fun _ _ h => h) (fun _ _ _ _ _ _ h hf => ⟨h.trans (cacheGrows_fork _ hf), fun _ _ =>
        h.trans (cacheGrows_fork _ hf)⟩) fis e id (CacheGrows.refl e) h₁).1
    rcases hr with ⟨-, rfl⟩ | ⟨x, -, ⟨-, rfl⟩ | ⟨-, rfl⟩⟩
    · exact h₁
    · exact h₁.trans (cacheGrows_terminateStateOrChain _ x)
    · exact h₁.trans (cacheGrows_terminateStateOnError _ x _ _ _ _ _)

theorem cacheGrows_foldl_indexSuspended :
    ∀ (l : List Nat) (e : Executor), CacheGrows e (l.foldl indexSuspended e)
  | [], e => CacheGrows.refl e
  | id :: l, e => by
    refine CacheGrows.trans ?_ (cacheGrows_foldl_indexSuspended l _)
    unfold indexSuspended
    refine CacheGrows.trans_of_heap ?_ rfl rfl
    exact cacheGrows_modifyState_of_eq _ _ fun _ => rfl

theorem cacheGrows_removeState {es : Nat} {e' : Executor} (h : e.removeState es = some e') :
    CacheGrows e e' := by
  unfold removeState at h
  split at h
  · cases h; exact (CacheGrows.of_heap rfl rfl).trans (cacheGrows_deleteState _ es)
  · split at h
    · split at h
      · cases h; exact CacheGrows.refl e
      · cases h
    · cases h

theorem cacheGrows_newCheck2Offload {incoming : Option Tag} {r : Executor × List Message}
    (h : e.newCheck2Offload incoming = some r) : CacheGrows e r.1 := by
  unfold newCheck2Offload at h
  split at h
  · dsimp only at h
    split at h
    · cases h; exact CacheGrows.refl e
    · obtain ⟨_, -, h⟩ := Option.bind_eq_some.mp h
      obtain ⟨_, -, h⟩ := Option.bind_eq_some.mp h
      cases h; exact CacheGrows.of_heap rfl rfl
  · cases h; exact CacheGrows.of_heap rfl rfl
  · cases h; exact CacheGrows.refl e

theorem cacheGrows_updateStates {incoming : Option Tag} {r : Executor × List Message}
    (h : e.updateStates incoming = some r) : CacheGrows e r.1 := by
  rw [updateStates] at h
  obtain ⟨_, -, h⟩ := Option.bind_eq_some.mp h
  obtain ⟨_, -, h⟩ := Option.bind_eq_some.mp h
  obtain ⟨_, -, h⟩ := Option.bind_eq_some.mp h
  dsimp only at h
  generalize he₂ : e.rangingSuspendedStates.foldl indexSuspended _ = e₂ at h
  have h₂ : CacheGrows e e₂ := by
    rw [← he₂]
    refine CacheGrows.trans ?_ (cacheGrows_foldl_indexSuspended _ _)
    exact CacheGrows.of_heap rfl rfl
  obtain ⟨e₄, h₄, h⟩ := Option.bind_eq_some.mp h
  -- the removed states are deleted one by one
  have h₄ : CacheGrows e e₄ := foldlM_invariant (fun a => CacheGrows e a)
    (fun a _ _ h hp => hp.trans (cacheGrows_removeState a h)) _ _ _ h₄ (h₂.trans_of_heap rfl rfl)
  split at h
  · have h₅ := cacheGrows_newCheck2Offload _ h
    exact (h₄.trans_of_heap rfl rfl).trans h₅
  · cases h; exact h₄.trans_of_heap rfl rfl

theorem cacheGrows_updateOffloadReadiness : CacheGrows e e.updateOffloadReadiness.1 := by
  unfold updateOffloadReadiness
  split_ifs <;> exact CacheGrows.of_heap rfl rfl

theorem cacheGrows_runStep {instr : Instr} {mbs : Nat} {picks : List Nat}
    {incoming : Option Tag} {r : Executor × List Message}
    (h : e.runStep instr mbs picks incoming = some r) : CacheGrows e r.1 := by
  rw [runStep] at h
  obtain ⟨sel, -, h⟩ := Option.bind_eq_some.mp h
  obtain ⟨s, -, h⟩ := Option.bind_eq_some.mp h
  split at h
  · cases h; exact CacheGrows.of_heap rfl rfl
  split at h
  · -- the worker prunes the selected state, which stays in the heap
    obtain ⟨_, -, h⟩ := Option.bind_eq_some.mp h
    split at h
    · cases h
    · cases h; exact CacheGrows.of_heap rfl rfl
  · -- the selected state executes an instruction
    obtain ⟨⟨e₁, sent₁⟩, h₁, h⟩ := Option.bind_eq_some.mp h
    obtain ⟨⟨e₃, sent₂⟩, h₃, h⟩ := Option.bind_eq_some.mp h
    cases h
    have h₁ := cacheGrows_executeInstruction _ h₁
    exact ((((CacheGrows.of_heap rfl rfl).trans h₁).trans (cacheGrows_checkMemoryUsage _ mbs picks)).trans
      (cacheGrows_updateStates _ h₃)).trans (cacheGrows_updateOffloadReadiness e₃)

theorem cacheGrows_resumePrefix {acc acc' : Executor × List (Nat × List Char)} {recvP : List Char}
    (h : resumePrefix acc recvP = some acc') : CacheGrows acc.1 acc'.1 := by
  obtain ⟨e, resumed⟩ := acc
  simp only [resumePrefix, Option.bind_eq_bind', Option.bind_eq_some] at h
  obtain ⟨_, -, h⟩ := h
  cases h
  exact cacheGrows_modifyState_of_eq _ _ fun _ => rfl

theorem cacheGrows_startPrefixTask {msg : List Char} {e' : Executor}
    (h : e.startPrefixTask msg = some e') : CacheGrows e e' := by
  simp only [startPrefixTask] at h
  obtain ⟨⟨e₁, resumed⟩, h₁, h⟩ := Option.bind_eq_some.mp h
  obtain ⟨_, -, h⟩ := Option.bind_eq_some.mp h
  cases h
  have h₁ : CacheGrows e e₁ := foldlM_invariant (fun acc => CacheGrows e acc.1)
    (fun _ _ _ h hp => hp.trans (cacheGrows_resumePrefix h)) _ _ _ h₁ (CacheGrows.of_heap rfl rfl)
  exact h₁.trans_of_heap rfl rfl

end Executor

namespace Node

open Executor (CacheGrows)

/-- Every move of the run loop keeps the cache entries of every state that lives through it. -/
theorem cacheGrows_next {n n' : Node} {ev : Event} (h : n.next ev = some n') :
    CacheGrows n.e n'.e := by
  cases ev with
  | step instr mbs picks incoming =>
    simp only [next] at h
    split at h
    · cases h
    · obtain ⟨⟨e', msgs⟩, hr, rfl⟩ := Option.map_eq_some'.mp h
      exact Executor.cacheGrows_runStep _ hr
  | finish reply =>
    simp only [next] at h
    split at h
    · cases h
    split at h
    · cases h; exact CacheGrows.refl _
    split at h
    · cases h; exact CacheGrows.of_heap rfl rfl
    · obtain ⟨e', he', rfl⟩ := Option.map_eq_some'.mp h
      exact Executor.cacheGrows_startPrefixTask _ he'
    · cases h; exact CacheGrows.refl _
  | stop =>
    simp only [next] at h
    split at h
    · cases h
    · cases h; exact CacheGrows.refl _

theorem cacheGrows_run : ∀ (n : Node) (evs : List Event) {n' : Node}, n.run evs = some n' →
    CacheGrows n.e n'.e
  | n, [], _, h => by cases h; exact CacheGrows.refl n.e
  | n, ev :: evs, n', h => by
    obtain ⟨m, hm, hrest⟩ := Option.bind_eq_some.mp h
    exact (cacheGrows_next hm).trans (cacheGrows_run m evs hrest)

end Node

/-! ## The lifetime of a state -/

/-- From any configuration a node reaches to any later one, for a state that lives at both: a
call of `getAllRecoveryInfo` on the later state queues infos of the load's address in strictly
increasing snapshot index, each of a triple that the state's cache had no entry for then nor
at the earlier configuration, and enters each triple in the cache as pending. A load the state
executes there makes that call exactly when its recovery is required: it then queues exactly
these infos in front of its pending ones, takes the cache the call leaves and pops the first;
otherwise it keeps the cache and the queue. A triple a load queues is thus never queued again
in the state's life. -/
theorem recovery_queue_memoised {opts : Options} {upperBound : List Char} {prefixDepth : Nat}
    {n n' : Node} (h : Reachable (Node.init opts upperBound prefixDepth) n) (evs : List Event)
    (hrun : n.run evs = some n') (id : Nat) {s s' : ExecutionState} (hs : n.e.heap id = some s)
    (hs' : n'.e.heap id = some s') (mayBlock hasUses : Bool) (loadAddr loadSize : Nat)
    (mods : List (Nat × Nat)) :
    (s'.getAllRecoveryInfo loadAddr loadSize mods).2.1.Pairwise
        (·.snapshotIndex < ·.snapshotIndex) ∧
      (∀ ri ∈ (s'.getAllRecoveryInfo loadAddr loadSize mods).2.1, ri.loadAddr = loadAddr ∧
        s.getRecoveredValue ri.snapshotIndex ri.sliceId loadAddr = none ∧
        s'.getRecoveredValue ri.snapshotIndex ri.sliceId loadAddr = none ∧
        (s'.getAllRecoveryInfo loadAddr loadSize mods).1.getRecoveredValue ri.snapshotIndex
          ri.sliceId loadAddr = some none) ∧
      ∀ e₁, n'.e.executeLoad id mayBlock hasUses loadAddr loadSize mods = some e₁ →
        ∃ s₁, e₁.heap id = some s₁ ∧
          if s'.isNormalState && s'.isInDependentMode && s'.blockingLoadStatus &&
              (s'.isMayBlockingLoad mayBlock hasUses loadAddr loadSize).2 then
            s₁.recoveryCache = (s'.getAllRecoveryInfo loadAddr loadSize mods).1.recoveryCache ∧
              s₁.pendingRecoveryInfos =
                ((s'.getAllRecoveryInfo loadAddr loadSize mods).2.1 ++
                  s'.pendingRecoveryInfos).tail
          else s₁.recoveryCache = s'.recoveryCache ∧
            s₁.pendingRecoveryInfos = s'.pendingRecoveryInfos := by
  have hlive : ∀ {m : Node} {t : ExecutionState}, Reachable (Node.init opts upperBound prefixDepth) m →
      m.e.heap id = some t → id < m.e.nextId := by
    intro m t hm ht
    exact Skel.lt_of_live hm.inv.fresh ⟨t.links, by simp [Executor.skel, Executor.linkView, ht]⟩
  -- the cache of the later state has every entry of the earlier one
  obtain ⟨s₀, hs₀, hle⟩ := (Node.cacheGrows_run n evs hrun).2 id s' (hlive h hs) hs'
  cases hs.symm.trans hs₀
  obtain ⟨hsorted, hnew, hget⟩ :=
    ExecutionState.getAllRecoveryInfo_spec s' loadAddr loadSize mods
  refine ⟨hsorted, fun ri hri => ⟨(hnew ri hri).1, ?_, (hnew ri hri).2, ?_⟩, fun e₁ he₁ =>
    Executor.executeLoad_queue _ hs' (hlive (h.run evs hrun) hs').ne he₁⟩
  · have hnone := (hnew ri hri).2
    simp only [ExecutionState.getRecoveredValue] at hnone ⊢
    exact Option.not_isSome_iff_eq_none.mp fun hsome => by
      simpa [hnone] using hle (ri.snapshotIndex, ri.sliceId) loadAddr hsome
  · rw [hget, if_pos ⟨rfl, ri, hri, rfl, rfl⟩]

/-- State `0` of the master after it skipped a call of function `7`, for the load of
`recoveryTrace` at address `100`: the call queues one info, and the load queues it. -/
theorem recovery_queue_memoised_skippedCall : ∃ n s,
    Reachable (Node.init masterOptions [] 0) n ∧ n.e.heap 0 = some s ∧
    (s.getAllRecoveryInfo 100 1 [(7, 0)]).2.1.length = 1 ∧
    ((s.getAllRecoveryInfo 100 1 [(7, 0)]).2.1.Pairwise (·.snapshotIndex < ·.snapshotIndex) ∧
      (∀ ri ∈ (s.getAllRecoveryInfo 100 1 [(7, 0)]).2.1, ri.loadAddr = 100 ∧
        s.getRecoveredValue ri.snapshotIndex ri.sliceId 100 = none ∧
        s.getRecoveredValue ri.snapshotIndex ri.sliceId 100 = none ∧
        (s.getAllRecoveryInfo 100 1 [(7, 0)]).1.getRecoveredValue ri.snapshotIndex ri.sliceId 100 =
          some none) ∧
      ∀ e₁, n.e.executeLoad 0 true true 100 1 [(7, 0)] = some e₁ →
        ∃ s₁, e₁.heap 0 = some s₁ ∧
          if s.isNormalState && s.isInDependentMode && s.blockingLoadStatus &&
              (s.isMayBlockingLoad true true 100 1).2 then
            s₁.recoveryCache = (s.getAllRecoveryInfo 100 1 [(7, 0)]).1.recoveryCache ∧
              s₁.pendingRecoveryInfos =
                ((s.getAllRecoveryInfo 100 1 [(7, 0)]).2.1 ++ s.pendingRecoveryInfos).tail
          else s₁.recoveryCache = s.recoveryCache ∧
            s₁.pendingRecoveryInfos = s.pendingRecoveryInfos) := by
  have h := (Reachable.init : Reachable (Node.init masterOptions [] 0) _).run
    (recoveryTrace.take 1) rfl
  exact ⟨_, _, h, rfl, rfl, recovery_queue_memoised h [] rfl 0 rfl rfl true true 100 1 [(7, 0)]⟩

end PChop
