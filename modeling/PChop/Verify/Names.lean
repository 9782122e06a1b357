import PChop.Verify.RecoveryCache

/-!
# The states the executor names

A state is reached by the moves of a node only through a name: a list of the executor
(`states`, the searcher, the buffers of a turn, the states suspended for ranging and those
indexed for a prefix task) or the dependent-state pointer of a state (`Executor.Named`). The
copy a snapshot points to (`Executor.SnapId`) is made at a fresh pointer that nothing names,
and no move names it afterwards: every name a move adds is a name it had or a pointer it
allocates (`Executor.Tracks`, one lemma per operation, `Node.inert_next`). So in every
configuration a node reaches, no snapshot state is named (`Executor.Inert`,
`Reachable.inert`): no move forks, selects or resumes it.
-/

namespace PChop

namespace ExecutionState

/-- The fields of a state that the names and the branch histories read. -/
structure HistView where
  depth : Nat
  branchHist : List Char
  snapshots : List Snapshot
  pendingRecoveryInfos : List RecoveryInfo
  type : Nat
  dependentState : Option Nat

/-- The fields of `s` that the names and the branch histories read. -/
def histView (s : ExecutionState) : HistView :=
  ⟨s.depth, s.branchHist, s.snapshots, s.pendingRecoveryInfos, s.type, s.dependentState⟩

section
variable {s s' : ExecutionState} (h : s'.histView = s.histView)
include h

theorem depth_eq_of_histView : s'.depth = s.depth := congrArg HistView.depth h
theorem branchHist_eq_of_histView : s'.branchHist = s.branchHist := congrArg HistView.branchHist h
theorem snapshots_eq_of_histView : s'.snapshots = s.snapshots := congrArg HistView.snapshots h
theorem pendingRecoveryInfos_eq_of_histView : s'.pendingRecoveryInfos = s.pendingRecoveryInfos :=
  congrArg HistView.pendingRecoveryInfos h
theorem type_eq_of_histView : s'.type = s.type := congrArg HistView.type h
theorem dependentState_eq_of_histView : s'.dependentState = s.dependentState :=
  congrArg HistView.dependentState h

end

theorem names_of_histView {s s' : ExecutionState} (h : s'.histView = s.histView) :
    s'.dependentState = s.dependentState ∧ s'.snapshots = s.snapshots :=
  ⟨dependentState_eq_of_histView h, snapshots_eq_of_histView h⟩

theorem histView_addConstraint (s : ExecutionState) (c : Expr) :
    (s.addConstraint c).histView = s.histView := by
  unfold addConstraint addGuidingConstraint; split <;> rfl

theorem histView_foldl_addConstraint (cs : List Expr) (s : ExecutionState) :
    (cs.foldl addConstraint s).histView = s.histView := by
  induction cs generalizing s with
  | nil => rfl
  | cons c cs ih => rw [List.foldl_cons, ih, histView_addConstraint]

@[simp] theorem dependentState_foldl_addConstraint (cs : List Expr) (s : ExecutionState) :
    (cs.foldl addConstraint s).dependentState = s.dependentState :=
  dependentState_eq_of_histView (histView_foldl_addConstraint cs s)

@[simp] theorem snapshots_foldl_addConstraint (cs : List Expr) (s : ExecutionState) :
    (cs.foldl addConstraint s).snapshots = s.snapshots :=
  snapshots_eq_of_histView (histView_foldl_addConstraint cs s)

theorem histView_isMayBlockingLoad (s : ExecutionState) (mayBlock hasUses : Bool)
    (address size : Nat) : (s.isMayBlockingLoad mayBlock hasUses address size).1.histView =
      s.histView := by
  rcases isMayBlockingLoad_cases s mayBlock hasUses address size with h | h | h <;> rw [h]
  all_goals rfl

theorem histView_filterInfos (loadAddr : Nat) :
    ∀ (ris : List RecoveryInfo) (s : ExecutionState) (queued : List RecoveryInfo),
      (filterInfos loadAddr ris s queued).1.histView = s.histView
  | [], _, _ => rfl
  | ri :: rest, s, queued => by
    unfold filterInfos
    split
    · rfl
    · rw [histView_filterInfos loadAddr rest]; rfl
    · rw [histView_filterInfos loadAddr rest]; rfl

theorem histView_getAllRecoveryInfo (s : ExecutionState) (address size : Nat)
    (mods : List (Nat × Nat)) : (s.getAllRecoveryInfo address size mods).1.histView = s.histView :=
  histView_filterInfos _ _ _ _

theorem histView_onNormalStateRead (s : ExecutionState) (address : Nat) :
    (s.onNormalStateRead address).histView = s.histView := by
  unfold onNormalStateRead; split <;> rfl

theorem histView_onNormalStateWrite (s : ExecutionState) (isStore mayOverride : Bool)
    (address size : Nat) :
    (s.onNormalStateWrite isStore mayOverride address size).histView = s.histView := by
  unfold onNormalStateWrite; split <;> rfl

theorem histView_onRecoveryStateWrite (r d : ExecutionState) (storeAddr : Nat) (v : List Nat) :
    (r.onRecoveryStateWrite d storeAddr v).histView = d.histView := by
  unfold onRecoveryStateWrite; split
  · split <;> rfl
  · rfl

end ExecutionState

namespace Executor

variable (e : Executor)

/-- The pointers the lists of the executor hold. -/
def listed : List Nat :=
  e.states ++ e.searcher ++ e.addedStates ++ e.removedStates ++ e.suspendedStates ++
    e.resumedStates ++ e.rangingSuspendedStates ++ e.prefixSuspendedStatesMap.map Prod.snd

/-- The executor names `j`: a list holds it, or a state has it as its dependent state. -/
def Named (j : Nat) : Prop := j ∈ e.listed ∨ ∃ r s, e.heap r = some s ∧ s.dependentState = some j

/-- `j` holds the state a snapshot of some state points to. -/
def SnapId (j : Nat) : Prop := ∃ r s, e.heap r = some s ∧ ∃ sn ∈ s.snapshots, sn.state = j

/-- No name points past `nextId`, and no snapshot state is named. -/
structure Inert : Prop where
  named_lt : ∀ j, e.Named j → j < e.nextId
  snap_lt : ∀ j, e.SnapId j → j < e.nextId
  snap_not_named : ∀ j, e.SnapId j → ¬ e.Named j

/-- `j` is named in `e₀`, or allocated between `e₀` and `e`. -/
def Known (e₀ : Executor) (j : Nat) : Prop := e₀.Named j ∨ (e₀.nextId ≤ j ∧ j < e.nextId)

/-- From `e₀` to `e`: `nextId` does not go down, every name of `e` is known, and every
snapshot state of `e` is one of `e₀`. -/
def Tracks (e₀ e : Executor) : Prop :=
  e₀.nextId ≤ e.nextId ∧ (∀ j, e.Named j → e.Known e₀ j) ∧ ∀ j, e.SnapId j → e₀.SnapId j

@[simp] theorem mem_listed {j : Nat} : j ∈ e.listed ↔ j ∈ e.states ∨ j ∈ e.searcher ∨
    j ∈ e.addedStates ∨ j ∈ e.removedStates ∨ j ∈ e.suspendedStates ∨ j ∈ e.resumedStates ∨
    j ∈ e.rangingSuspendedStates ∨ j ∈ e.prefixSuspendedStatesMap.map Prod.snd := by
  simp only [listed, List.mem_append, or_assoc]

theorem Named.dep {r d : Nat} {s : ExecutionState} (hs : e.heap r = some s)
    (hd : s.dependentState = some d) : e.Named d := .inr ⟨r, s, hs, hd⟩

/-! Every list names the pointers it holds. -/

theorem Named.of_states {j : Nat} (h : j ∈ e.states) : e.Named j :=
  .inl ((mem_listed e).mpr (.inl h))

theorem Named.of_searcher {j : Nat} (h : j ∈ e.searcher) : e.Named j :=
  .inl ((mem_listed e).mpr (.inr (.inl h)))

theorem Named.of_added {j : Nat} (h : j ∈ e.addedStates) : e.Named j :=
  .inl ((mem_listed e).mpr (.inr (.inr (.inl h))))

theorem Named.of_resumed {j : Nat} (h : j ∈ e.resumedStates) : e.Named j :=
  .inl ((mem_listed e).mpr (.inr (.inr (.inr (.inr (.inr (.inl h)))))))

theorem Named.of_ranging {j : Nat} (h : j ∈ e.rangingSuspendedStates) : e.Named j :=
  .inl ((mem_listed e).mpr (.inr (.inr (.inr (.inr (.inr (.inr (.inl h))))))))

theorem Named.of_indexed {j : Nat} (h : j ∈ e.prefixSuspendedStatesMap.map Prod.snd) :
    e.Named j :=
  .inl ((mem_listed e).mpr (.inr (.inr (.inr (.inr (.inr (.inr (.inr h))))))))

theorem SnapId.of_mem {r : Nat} {s : ExecutionState} (hs : e.heap r = some s) {sn : Snapshot}
    (hsn : sn ∈ s.snapshots) : e.SnapId sn.state := ⟨r, s, hs, sn, hsn, rfl⟩

variable {e}

theorem Known.mono {e₀ e' : Executor} {j : Nat} (h : e.Known e₀ j) (hn : e.nextId ≤ e'.nextId) :
    e'.Known e₀ j :=
  h.imp_right fun h => ⟨h.1, Nat.lt_of_lt_of_le h.2 hn⟩

theorem Inert.tracks {e' : Executor} (hi : e.Inert) (h : Tracks e e') : e'.Inert where
  named_lt j hj := (h.2.1 j hj).elim (fun hn => Nat.lt_of_lt_of_le (hi.named_lt j hn) h.1) And.right
  snap_lt j hj := Nat.lt_of_lt_of_le (hi.snap_lt j (h.2.2 j hj)) h.1
  snap_not_named j hj hn := (h.2.1 j hn).elim (hi.snap_not_named j (h.2.2 j hj))
    fun hf => Nat.not_lt.mpr hf.1 (hi.snap_lt j (h.2.2 j hj))

theorem Tracks.refl (e : Executor) : Tracks e e :=
  ⟨Nat.le_refl _, fun _ hj => .inl hj, fun _ hj => hj⟩

theorem Tracks.trans {e₀ e₁ e₂ : Executor} (h₁ : Tracks e₀ e₁) (h₂ : Tracks e₁ e₂) :
    Tracks e₀ e₂ := by
  refine ⟨Nat.le_trans h₁.1 h₂.1, fun j hj => ?_, fun j hj => h₁.2.2 j (h₂.2.2 j hj)⟩
  rcases h₂.2.1 j hj with hj | ⟨hlo, hhi⟩
  · exact (h₁.2.1 j hj).mono h₂.1
  · exact .inr ⟨Nat.le_trans h₁.1 hlo, hhi⟩

/-! ## Primitive operations -/

variable {e₀ : Executor}

theorem Tracks.setState (h : Tracks e₀ e) (id : Nat) {s' : ExecutionState}
    (hdep : ∀ d, s'.dependentState = some d → e.Known e₀ d)
    (hsn : ∀ sn ∈ s'.snapshots, e₀.SnapId sn.state) : Tracks e₀ (e.setState id s') := by
  refine ⟨h.1, fun j hj => ?_, fun j ⟨r, t, ht, sn, hsn', hj⟩ => ?_⟩
  · rcases hj with hj | ⟨r, t, ht, hd⟩
    · exact h.2.1 j (.inl hj)
    · rw [setState_heap] at ht
      split at ht
      · cases ht; exact hdep j hd
      · exact h.2.1 j (Named.dep e ht hd)
  · rw [setState_heap] at ht
    split at ht
    · cases ht; exact hj ▸ hsn sn hsn'
    · exact h.2.2 j (hj ▸ SnapId.of_mem e ht hsn')

/-- A field update that keeps the dependent state and the snapshots. -/
theorem Tracks.modifyState (h : Tracks e₀ e) (id : Nat) {f : ExecutionState → ExecutionState}
    (hf : ∀ s, (f s).dependentState = s.dependentState ∧ (f s).snapshots = s.snapshots) :
    Tracks e₀ (e.modifyState id f) := by
  unfold Executor.modifyState
  split
  · rename_i s hs
    refine h.setState id (fun d hd => h.2.1 d (Named.dep e hs ((hf s).1 ▸ hd))) fun sn hsn => ?_
    exact h.2.2 _ (SnapId.of_mem e hs ((hf s).2 ▸ hsn))
  · exact h

/-- A field update that keeps the view of every state. -/
theorem Tracks.modifyState_of_histView (h : Tracks e₀ e) (id : Nat)
    {f : ExecutionState → ExecutionState} (hf : ∀ s, (f s).histView = s.histView) :
    Tracks e₀ (e.modifyState id f) :=
  h.modifyState id fun s => ExecutionState.names_of_histView (hf s)

theorem Tracks.newState (h : Tracks e₀ e) (s : ExecutionState)
    (hdep : ∀ d, s.dependentState = some d → e.Known e₀ d)
    (hsn : ∀ sn ∈ s.snapshots, e₀.SnapId sn.state) : Tracks e₀ (e.newState s).1 := by
  refine ⟨Nat.le_succ_of_le h.1, fun j hj => ?_, fun j ⟨r, t, ht, sn, hsn', hj⟩ => ?_⟩
  · rcases hj with hj | ⟨r, t, ht, hd⟩
    · exact (h.2.1 j (.inl hj)).mono (Nat.le_succ _)
    · rw [newState_heap] at ht
      split at ht
      · cases ht; exact (hdep j hd).mono (Nat.le_succ _)
      · exact (h.2.1 j (Named.dep e ht hd)).mono (Nat.le_succ _)
  · rw [newState_heap] at ht
    split at ht
    · cases ht; exact hj ▸ hsn sn hsn'
    · exact h.2.2 j (hj ▸ SnapId.of_mem e ht hsn')

theorem Tracks.deleteState (h : Tracks e₀ e) (id : Nat) : Tracks e₀ (e.deleteState id) := by
  refine ⟨h.1, fun j hj => ?_, fun j ⟨r, t, ht, sn, hsn, hj⟩ => ?_⟩
  · rcases hj with hj | ⟨r, t, ht, hd⟩
    · exact h.2.1 j (.inl hj)
    · rw [deleteState_heap] at ht
      split at ht
      · cases ht
      · exact h.2.1 j (Named.dep e ht hd)
  · rw [deleteState_heap] at ht
    split at ht
    · cases ht
    · exact h.2.2 j (hj ▸ SnapId.of_mem e ht hsn)

/-- A move of the lists alone, each pointer it lists being listed before or known. -/
theorem Tracks.of_lists (h : Tracks e₀ e) {e' : Executor} (hheap : e'.heap = e.heap)
    (hn : e'.nextId = e.nextId) (hl : ∀ j ∈ e'.listed, j ∈ e.listed ∨ e.Known e₀ j) :
    Tracks e₀ e' := by
  refine ⟨hn ▸ h.1, fun j hj => ?_, fun j ⟨r, t, ht, hsn⟩ => h.2.2 j ⟨r, t, hheap ▸ ht, hsn⟩⟩
  rw [Known, hn]
  rcases hj with hj | ⟨r, t, ht, hd⟩
  · exact (hl j hj).elim (fun hj => h.2.1 j (.inl hj)) id
  · exact h.2.1 j (Named.dep e (hheap ▸ ht) hd)

/-- Replacing a state by one with the same dependent state and snapshots. -/
theorem Tracks.setState_of (h : Tracks e₀ e) {id : Nat} {s s' : ExecutionState}
    (hs : e.heap id = some s) (hd : s'.dependentState = s.dependentState)
    (hsn : s'.snapshots = s.snapshots) : Tracks e₀ (e.setState id s') :=
  h.setState id (fun d h' => h.2.1 d (Named.dep e hs (hd ▸ h'))) fun _ h' =>
    h.2.2 _ (SnapId.of_mem e hs (hsn ▸ h'))

/-- Replacing a state, after a move that tracks, by one with the dependent state and the
snapshots it had before the move. -/
theorem Tracks.setState_after (h : Tracks e₀ e) {e₁ : Executor} (h₁ : Tracks e e₁) {id : Nat}
    {s s' : ExecutionState} (hs : e.heap id = some s) (hd : s'.dependentState = s.dependentState)
    (hsn : s'.snapshots = s.snapshots) : Tracks e₀ (e₁.setState id s') :=
  (h.trans h₁).setState id (fun d h' => (h.2.1 d (Named.dep e hs (hd ▸ h'))).mono h₁.1)
    fun _ h' => h.2.2 _ (SnapId.of_mem e hs (hsn ▸ h'))

/-! Moves of the lists, field by field: each pointer a list holds afterwards it held before, or
it is known. -/

theorem mem_or_of_mem {P : Nat → Prop} {l : List Nat} : ∀ j ∈ l, j ∈ l ∨ P j :=
  fun _ hj => .inl hj

theorem mem_or_of_mem_append {P : Nat → Prop} {l xs : List Nat} (hx : ∀ x ∈ xs, P x) :
    ∀ j ∈ l ++ xs, j ∈ l ∨ P j :=
  fun j hj => (List.mem_append.mp hj).imp_right (hx j)

theorem mem_or_of_mem_erase {P : Nat → Prop} {l : List Nat} {a : Nat} :
    ∀ j ∈ l.erase a, j ∈ l ∨ P j :=
  fun _ hj => .inl (List.mem_of_mem_erase hj)

theorem Tracks.of_fields (h : Tracks e₀ e) {e' : Executor} (hheap : e'.heap = e.heap)
    (hn : e'.nextId = e.nextId)
    (hs : ∀ j ∈ e'.states, j ∈ e.states ∨ e.Known e₀ j)
    (hse : ∀ j ∈ e'.searcher, j ∈ e.searcher ∨ e.Known e₀ j)
    (ha : ∀ j ∈ e'.addedStates, j ∈ e.addedStates ∨ e.Known e₀ j)
    (hr : ∀ j ∈ e'.removedStates, j ∈ e.removedStates ∨ e.Known e₀ j)
    (hsu : ∀ j ∈ e'.suspendedStates, j ∈ e.suspendedStates ∨ e.Known e₀ j)
    (hre : ∀ j ∈ e'.resumedStates, j ∈ e.resumedStates ∨ e.Known e₀ j)
    (hra : ∀ j ∈ e'.rangingSuspendedStates, j ∈ e.rangingSuspendedStates ∨ e.Known e₀ j)
    (hm : ∀ j ∈ e'.prefixSuspendedStatesMap.map Prod.snd,
      j ∈ e.prefixSuspendedStatesMap.map Prod.snd ∨ e.Known e₀ j) : Tracks e₀ e' := by
  refine h.of_lists hheap hn fun j hj => ?_
  rw [mem_listed] at hj ⊢
  rcases hj with hj | hj | hj | hj | hj | hj | hj | hj
  · exact (hs j hj).imp_left .inl
  · exact (hse j hj).imp_left (.inr <| .inl ·)
  · exact (ha j hj).imp_left (.inr <| .inr <| .inl ·)
  · exact (hr j hj).imp_left (.inr <| .inr <| .inr <| .inl ·)
  · exact (hsu j hj).imp_left (.inr <| .inr <| .inr <| .inr <| .inl ·)
  · exact (hre j hj).imp_left (.inr <| .inr <| .inr <| .inr <| .inr <| .inl ·)
  · exact (hra j hj).imp_left (.inr <| .inr <| .inr <| .inr <| .inr <| .inr <| .inl ·)
  · exact (hm j hj).imp_left (.inr <| .inr <| .inr <| .inr <| .inr <| .inr <| .inr ·)

/-! Appending one known pointer to a list. -/

section
variable (h : Tracks e₀ e) {x : Nat} (hx : e.Known e₀ x)
include h hx

theorem Tracks.pushAdded : Tracks e₀ { e with addedStates := e.addedStates ++ [x] } :=
  h.of_fields rfl rfl mem_or_of_mem mem_or_of_mem (mem_or_of_mem_append (by simpa using hx))
    mem_or_of_mem mem_or_of_mem mem_or_of_mem mem_or_of_mem mem_or_of_mem

theorem Tracks.pushRemoved : Tracks e₀ { e with removedStates := e.removedStates ++ [x] } :=
  h.of_fields rfl rfl mem_or_of_mem mem_or_of_mem mem_or_of_mem
    (mem_or_of_mem_append (by simpa using hx)) mem_or_of_mem mem_or_of_mem mem_or_of_mem
    mem_or_of_mem

theorem Tracks.pushSuspended : Tracks e₀ { e with suspendedStates := e.suspendedStates ++ [x] } :=
  h.of_fields rfl rfl mem_or_of_mem mem_or_of_mem mem_or_of_mem mem_or_of_mem
    (mem_or_of_mem_append (by simpa using hx)) mem_or_of_mem mem_or_of_mem mem_or_of_mem

theorem Tracks.pushResumed : Tracks e₀ { e with resumedStates := e.resumedStates ++ [x] } :=
  h.of_fields rfl rfl mem_or_of_mem mem_or_of_mem mem_or_of_mem mem_or_of_mem mem_or_of_mem
    (mem_or_of_mem_append (by simpa using hx)) mem_or_of_mem mem_or_of_mem

theorem Tracks.pushRanging :
    Tracks e₀ { e with rangingSuspendedStates := e.rangingSuspendedStates ++ [x] } :=
  h.of_fields rfl rfl mem_or_of_mem mem_or_of_mem mem_or_of_mem mem_or_of_mem mem_or_of_mem
    mem_or_of_mem (mem_or_of_mem_append (by simpa using hx)) mem_or_of_mem

end

theorem Tracks.splitNode (h : Tracks e₀ e) (node a b : Nat) : Tracks e₀ (e.splitNode node a b) := by
  unfold Executor.splitNode
  refine Tracks.modifyState (Tracks.modifyState ?_ _ ?_) _ ?_
  · exact h.of_lists rfl rfl fun _ hj => .inl hj
  all_goals exact fun _ => ⟨rfl, rfl⟩

/-! ## Terminating states -/

theorem Tracks.terminateState (h : Tracks e₀ e) {id : Nat} (hid : e.Known e₀ id) :
    Tracks e₀ (e.terminateState id) := by
  unfold Executor.terminateState
  split
  · refine Tracks.deleteState ?_ id
    exact h.of_fields rfl rfl mem_or_of_mem mem_or_of_mem mem_or_of_mem_erase
      mem_or_of_mem mem_or_of_mem mem_or_of_mem mem_or_of_mem mem_or_of_mem
  · exact h.pushRemoved hid

theorem Named.nextDependent {id d : Nat} (h : e.nextDependent id = some d) : e.Named d := by
  unfold Executor.nextDependent at h
  split at h
  · split at h
    · exact Named.dep e ‹_› h
    · cases h
  · cases h

theorem Tracks.terminateStateRecursivelyAux :
    ∀ (fuel : Nat) {e : Executor} {id : Nat}, Tracks e₀ e → e.Known e₀ id →
      Tracks e₀ (terminateStateRecursivelyAux fuel e id)
  | 0, _, _, h, _ => h
  | fuel + 1, e, id, h, hid => by
    unfold Executor.terminateStateRecursivelyAux
    split
    · rename_i d hd
      exact Tracks.terminateStateRecursivelyAux fuel (h.terminateState hid)
        ((h.2.1 d (Named.nextDependent hd)).mono (cacheGrows_terminateState e id).1)
    · exact h.terminateState hid

theorem Tracks.terminateStateOrChain (h : Tracks e₀ e) {id : Nat} (hid : e.Known e₀ id) :
    Tracks e₀ (e.terminateStateOrChain id) := by
  unfold Executor.terminateStateOrChain
  split
  · split
    · exact Tracks.terminateStateRecursivelyAux _ h hid
    · exact h.terminateState hid
  · exact h.terminateState hid

theorem Tracks.haltOnError (h : Tracks e₀ e) (termReason : TerminateReason) (file : String)
    (line : Nat) : Tracks e₀ (e.haltOnError termReason file line).1 := by
  unfold Executor.haltOnError; dsimp only; split_ifs <;> exact h.of_lists rfl rfl fun _ hj => .inl hj

theorem Tracks.terminateStateOnError (h : Tracks e₀ e) {id : Nat} (hid : e.Known e₀ id)
    (termReason : TerminateReason) (message : String) (lastInst : Nat) (file : String)
    (line : Nat) :
    Tracks e₀ (e.terminateStateOnError id termReason message lastInst file line).1 := by
  unfold Executor.terminateStateOnError
  dsimp only
  refine Tracks.haltOnError (Tracks.terminateStateOrChain ?_ ?_) _ _ _
  · exact h.of_lists rfl rfl fun _ hj => .inl hj
  · exact hid

theorem Tracks.killStates : ∀ (toKill : Nat) (arr picks : List Nat) {e : Executor},
    Tracks e₀ e → (∀ j ∈ arr, e.Known e₀ j) → Tracks e₀ (killStates toKill arr picks e)
  | 0, _, _, _, h, _ => by rw [Executor.killStates]; exact h
  | _ + 1, [], _, _, h, _ => by simp only [Executor.killStates]; exact h
  | toKill + 1, a :: arr, picks, e, h, harr => by
    simp only [Executor.killStates]
    have hv := harr _ (getD_mem_of_lt (Nat.mod_lt (picks.headD 0) (Nat.succ_pos arr.length)))
    refine Tracks.killStates toKill _ _ (h.terminateStateOrChain hv) fun j hj => ?_
    refine (harr j ?_).mono (cacheGrows_terminateStateOrChain e _).1
    rcases List.mem_or_eq_of_mem_set (List.dropLast_subset _ hj) with hj | heq
    · exact hj
    · rw [heq]; exact getD_mem_of_lt (by simp)

theorem Tracks.checkMemoryUsage (h : Tracks e₀ e) (mbs : Nat) (picks : List Nat) :
    Tracks e₀ (e.checkMemoryUsage mbs picks) := by
  unfold Executor.checkMemoryUsage
  split
  · exact h
  · split
    · refine Tracks.of_lists ?_ rfl rfl fun _ hj => .inl hj
      split
      · exact Tracks.killStates _ _ _ h fun j hj =>
          h.2.1 j (Named.of_states e (List.mem_filter.mp hj).1)
      · exact h
    · exact h.of_lists rfl rfl fun _ hj => .inl hj

/-! ## Recovery -/

theorem Tracks.replicateBranchHist (h : Tracks e₀ e) {src dst : Nat} {e' : Executor}
    (he : e.replicateBranchHist src dst = some e') : Tracks e₀ e' := by
  simp only [Executor.replicateBranchHist, Option.bind_eq_bind', Option.bind_eq_some] at he
  obtain ⟨s, -, d, hd, he⟩ := he
  split at he
  · cases he; exact h.setState_of hd rfl rfl
  · cases he

theorem Tracks.suspendState (h : Tracks e₀ e) {id : Nat} (hid : e.Known e₀ id) :
    Tracks e₀ (e.suspendState id) := by
  unfold Executor.suspendState
  have h₁ := h.modifyState id (f := fun s => { s with suspendStatus := true }) fun _ => ⟨rfl, rfl⟩
  rw [modifyState_eq] at h₁ ⊢
  exact h₁.pushSuspended hid

theorem Tracks.resumeState (h : Tracks e₀ e) {id : Nat} (hid : e.Known e₀ id)
    {implicitlyCreated : Bool} {rec : Nat} {e' : Executor}
    (he : e.resumeState id implicitlyCreated rec = some e') : Tracks e₀ e' := by
  refine Tracks.replicateBranchHist ?_ he
  have h₁ := h.modifyState id (f := fun s =>
    { s with suspendStatus := false, recoveryState := none, blockingLoadStatus := false })
    fun _ => ⟨rfl, rfl⟩
  split
  · exact h₁.pushAdded (hid.mono (by simp))
  · exact h₁.pushResumed (hid.mono (by simp))

/-- What a new recovery state takes from the snapshot state. -/
theorem recoveryStateBase_eq {snap ds base : ExecutionState} {ri : RecoveryInfo}
    (h : recoveryStateBase snap ds ri = some base) : base.depth = snap.depth ∧
      base.branchHist = snap.branchHist ∧ base.snapshots = snap.snapshots ∧
      base.pendingRecoveryInfos = snap.pendingRecoveryInfos := by
  unfold recoveryStateBase at h
  split at h
  · cases h; exact ⟨rfl, rfl, rfl, rfl⟩
  · split at h
    · cases h; exact ⟨rfl, rfl, rfl, rfl⟩
    · cases h

theorem Tracks.startRecoveryState (h : Tracks e₀ e) {d : Nat} {ri : RecoveryInfo} {e' : Executor}
    (hd : e.Known e₀ d) (he : e.startRecoveryState d ri = some e') : Tracks e₀ e' := by
  simp only [Executor.startRecoveryState, Option.bind_eq_bind', Option.bind_eq_some] at he
  obtain ⟨snap, hsnap, ds, -, base, hbase, he⟩ := he
  refine Tracks.replicateBranchHist ?_ he
  refine Tracks.pushAdded (Tracks.splitNode (Tracks.modifyState ?_ _ ?_) _ _ _) ?_
  · refine h.newState _ (fun j hj => ?_) fun sn hsn => ?_
    · rw [ExecutionState.dependentState_foldl_addConstraint] at hj; cases hj; exact hd
    · rw [ExecutionState.snapshots_foldl_addConstraint, (recoveryStateBase_eq hbase).2.2.1] at hsn
      exact h.2.2 _ (SnapId.of_mem e hsnap hsn)
  · exact fun _ => ⟨rfl, rfl⟩
  · exact .inr ⟨h.1, by simp⟩

theorem Tracks.notifyDependentState (h : Tracks e₀ e) {rec : Nat} {e' : Executor}
    (he : e.notifyDependentState rec = some e') : Tracks e₀ e' := by
  simp only [Executor.notifyDependentState, Option.bind_eq_bind', Option.bind_eq_some] at he
  obtain ⟨r, hr, d, hd, he⟩ := he
  exact h.resumeState (h.2.1 d (Named.dep e hr hd)) he

theorem Tracks.onRecoveryStateExit (h : Tracks e₀ e) {rec : Nat} (hrec : e.Known e₀ rec)
    {e' : Executor} (he : e.onRecoveryStateExit rec = some e') : Tracks e₀ e' := by
  simp only [Executor.onRecoveryStateExit, Option.bind_eq_bind'] at he
  obtain ⟨r, hr, he⟩ := Option.bind_eq_some.mp he
  obtain ⟨d, hd, he⟩ := Option.bind_eq_some.mp he
  obtain ⟨ds, hds, he⟩ := Option.bind_eq_some.mp he
  have hdk := h.2.1 d (Named.dep e hr hd)
  split at he
  · obtain ⟨e₃, he₃, he⟩ := Option.bind_eq_some.mp he
    obtain ⟨e₁, he₁, he⟩ := Option.bind_eq_some.mp he
    cases he
    have hn₃ := (cacheGrows_replicateBranchHist _ he₃).1
    have hn₁ := (cacheGrows_startRecoveryState _ he₁).1
    refine Tracks.terminateState (Tracks.startRecoveryState
      (Tracks.replicateBranchHist (h.setState_of hds ?_ ?_) he₃) (hdk.mono hn₃) he₁)
      (hrec.mono (Nat.le_trans hn₃ hn₁)) <;> rfl
  · obtain ⟨e₁, he₁, he⟩ := Option.bind_eq_some.mp he
    cases he
    exact (h.notifyDependentState he₁).terminateState
      (hrec.mono (cacheGrows_notifyDependentState e he₁).1)

theorem Tracks.onRecoveryStateWrite (h : Tracks e₀ e) (r : ExecutionState) (address : Nat)
    (v : List Nat) : Tracks e₀ (e.onRecoveryStateWrite r address v) := by
  unfold Executor.onRecoveryStateWrite
  split
  · exact h.modifyState_of_histView _ fun ds =>
      ExecutionState.histView_onRecoveryStateWrite r ds address v
  · exact h

theorem Tracks.getAllRecoveryInfo (h : Tracks e₀ e) (s : ExecutionState) (address size : Nat)
    (mods : List (Nat × Nat)) : Tracks e₀ (e.getAllRecoveryInfo s address size mods).1 := by
  dsimp only [Executor.getAllRecoveryInfo]
  split
  · split
    · exact h.onRecoveryStateWrite ..
    · exact h
  · exact h

theorem Tracks.executeLoad (h : Tracks e₀ e) {id : Nat} (hid : e.Known e₀ id) {mayBlock hasUses : Bool}
    {address size : Nat} {mods : List (Nat × Nat)} {e' : Executor}
    (he : e.executeLoad id mayBlock hasUses address size mods = some e') : Tracks e₀ e' := by
  rw [Executor.executeLoad, Option.bind_eq_bind'] at he
  obtain ⟨s, hs, he⟩ := Option.bind_eq_some.mp he
  generalize hp : (if s.isNormalState && s.isInDependentMode && s.blockingLoadStatus then
      s.isMayBlockingLoad mayBlock hasUses address size else (s, false)) = p at he
  obtain ⟨s₁, req⟩ := p
  have hs₁ : s₁.histView = s.histView := by
    split at hp
    · rw [← ExecutionState.histView_isMayBlockingLoad s mayBlock hasUses address size, hp]
    · cases hp; rfl
  have hX := ExecutionState.names_of_histView
    ((ExecutionState.histView_getAllRecoveryInfo s₁ address size mods).trans hs₁)
  cases req
  · dsimp only at he
    simp only [Bool.false_eq_true, ↓reduceIte] at he
    cases he
    have hn := ExecutionState.names_of_histView hs₁
    split
    · have hr := ExecutionState.names_of_histView (ExecutionState.histView_onNormalStateRead s₁ address)
      exact h.setState_of hs (hr.1.trans hn.1) (hr.2.trans hn.2)
    · exact h.setState_of hs hn.1 hn.2
  · simp only [↓reduceIte] at he
    -- the lookups, with the store of a cached value, keep every name
    have h₀ := (Tracks.refl e).getAllRecoveryInfo s₁ address size mods
    split at he
    · obtain ⟨e₁, he₁, he⟩ := Option.bind_eq_some.mp he
      have h₁ : Tracks e₀ e₁ := Tracks.startRecoveryState
        (h.setState_after h₀ hs (by exact hX.1) (by exact hX.2)) (hid.mono h₀.1) he₁
      split at he
      · cases he; exact h₁
      · cases he
        exact h₁.suspendState (hid.mono (Nat.le_trans h₀.1 (cacheGrows_startRecoveryState _ he₁).1))
    · cases he
      split
      · have hr := ExecutionState.names_of_histView
          (ExecutionState.histView_onNormalStateRead (e.getAllRecoveryInfo s₁ address size mods).2
            address)
        exact h.setState_after h₀ hs (hr.1.trans hX.1) (hr.2.trans hX.2)
      · exact h.setState_after h₀ hs hX.1 hX.2

theorem Tracks.executeStore (h : Tracks e₀ e) {id : Nat} {address : Nat} {v : List Nat}
    {mayOverride : Bool} {e' : Executor} (he : e.executeStore id address v mayOverride = some e') :
    Tracks e₀ e' := by
  simp only [Executor.executeStore, Option.bind_eq_bind', Option.bind_eq_some] at he
  obtain ⟨s, hs, he⟩ := he
  cases he
  have hw : Tracks e₀ (e.setState id (s.write address v)) := h.setState_of hs rfl rfl
  have hn := fun s : ExecutionState =>
    ExecutionState.histView_onNormalStateWrite s true mayOverride address v.length
  split_ifs
  · exact (hw.onRecoveryStateWrite ..).modifyState_of_histView _ hn
  · exact hw.modifyState_of_histView _ hn
  · exact hw.onRecoveryStateWrite ..
  · exact hw

/-- A skipped call makes a snapshot state at a fresh pointer, which nothing names. -/
theorem Inert.executeSkippedCall (hi : e.Inert) {id f : Nat} {hasSideEffects : Bool}
    {e' : Executor} (hid : e.Named id) (he : e.executeSkippedCall id f hasSideEffects = some e') :
    e'.Inert := by
  simp only [Executor.executeSkippedCall, Option.bind_eq_bind', Option.bind_eq_some] at he
  obtain ⟨s, hs, he⟩ := he
  split at he
  · cases he
    have hne : id ≠ e.nextId := Nat.ne_of_lt (hi.named_lt id hid)
    -- every name is one of `e`; every snapshot state one of `e` or the new one
    have hnamed : ∀ j, Named ((e.newState { s with guidingConstraints := [] }).1.setState id
        { s with snapshots := s.snapshots ++ [{ state := e.nextId, f }],
                 recoveredLoads := fun _ => false }) j → e.Named j := by
      rintro j (hj | ⟨r, t, ht, hd⟩)
      · exact .inl hj
      · simp only [setState_heap, newState_heap] at ht
        split_ifs at ht with h₁ h₂
        · cases ht; exact Named.dep e hs hd
        · cases ht; exact Named.dep e hs hd
        · exact Named.dep e ht hd
    have hsnap : ∀ j, SnapId ((e.newState { s with guidingConstraints := [] }).1.setState id
        { s with snapshots := s.snapshots ++ [{ state := e.nextId, f }],
                 recoveredLoads := fun _ => false }) j → e.SnapId j ∨ j = e.nextId := by
      rintro j ⟨r, t, ht, sn, hsn, rfl⟩
      simp only [setState_heap, newState_heap] at ht
      split_ifs at ht with h₁ h₂
      · cases ht
        rcases List.mem_append.mp hsn with hsn | hsn
        · exact .inl (SnapId.of_mem e hs hsn)
        · rw [List.mem_singleton.mp hsn]; exact .inr rfl
      · cases ht; exact .inl (SnapId.of_mem e hs hsn)
      · exact .inl (SnapId.of_mem e ht hsn)
    refine ⟨fun j hj => Nat.lt_succ_of_lt (hi.named_lt j (hnamed j hj)), fun j hj => ?_,
      fun j hj hn => ?_⟩
    · rcases hsnap j hj with hj | rfl
      · exact Nat.lt_succ_of_lt (hi.snap_lt j hj)
      · exact Nat.lt_succ_self _
    · rcases hsnap j hj with hj | rfl
      · exact hi.snap_not_named j hj (hnamed j hn)
      · exact Nat.lt_irrefl _ (hi.named_lt _ (hnamed _ hn))
  · cases he; exact hi

/-! ## Forking -/

/-- `prev` takes a known dependent state. -/
theorem Tracks.setDependent (h : Tracks e₀ e) (prev : Nat) {x : Nat} (hx : e.Known e₀ x) :
    Tracks e₀ (e.modifyState prev fun s => { s with dependentState := some x }) := by
  unfold Executor.modifyState
  split
  · rename_i s hs
    refine h.setState prev (fun d hd => ?_) fun sn hsn => h.2.2 _ (SnapId.of_mem e hs hsn)
    cases hd; exact hx
  · exact h

/-- One turn of `forkChain`: a copy of `cs` at a new pointer, linked below `prev`. -/
theorem Tracks.forkTurn (h : Tracks e₀ e) {cur : Nat} {cs : ExecutionState}
    (hcs : e.heap cur = some cs) (prev : Nat) :
    Tracks e₀ ((((e.newState cs).1.modifyState (e.newState cs).2 fun s =>
      { s with recoveryState := some prev }).modifyState prev fun s =>
        { s with dependentState := some (e.newState cs).2 }).splitNode cs.ptreeNode
          (e.newState cs).2 cur) := by
  have h₁ := h.newState cs (fun d hd => h.2.1 d (Named.dep e hcs hd))
    fun sn hsn => h.2.2 _ (SnapId.of_mem e hcs hsn)
  refine Tracks.splitNode (Tracks.setDependent (h₁.modifyState _ ?_) _ ?_) _ _ _
  · exact fun _ => ⟨rfl, rfl⟩
  · exact .inr ⟨h.1, by simp⟩

theorem Tracks.forkChain : ∀ (fuel : Nat) {e : Executor} (cur prev : Nat) {e' : Executor}
    {last : Nat}, Tracks e₀ e → forkChain fuel e cur prev = some (e', last) → Tracks e₀ e'
  | 0, _, _, _, _, _, _, he => by cases he
  | fuel + 1, e, cur, prev, e', last, h, he => by
    simp only [Executor.forkChain, Option.bind_eq_bind', Option.bind_eq_some] at he
    obtain ⟨cs, hcs, he⟩ := he
    split at he
    · cases he
    split at he
    · obtain ⟨next, -, he⟩ := Option.bind_eq_some.mp he
      exact Tracks.forkChain fuel _ _ (h.forkTurn hcs prev) he
    · cases he; exact h.forkTurn hcs prev

theorem Tracks.setOriginating : ∀ (fuel : Nat) {e : Executor} (cur orig : Nat),
    Tracks e₀ e → Tracks e₀ (setOriginating fuel e cur orig)
  | 0, _, _, _, h => h
  | fuel + 1, e, cur, orig, h => by
    simp only [Executor.setOriginating]
    split
    · split
      · have h₁ := h.modifyState cur (f := fun s => { s with originatingState := some orig })
          fun _ => ⟨rfl, rfl⟩
        split
        · exact Tracks.setOriginating fuel _ _ h₁
        · exact h₁
      · exact h
    · exact h

theorem Tracks.forkDependentStates (h : Tracks e₀ e) {t f : Nat} {e' : Executor}
    (he : e.forkDependentStates t f = some e') : Tracks e₀ e' := by
  simp only [Executor.forkDependentStates, Option.bind_eq_bind', Option.bind_eq_some] at he
  obtain ⟨ts, -, d, -, ⟨e₁, orig⟩, h₁, he⟩ := he
  cases he
  exact Tracks.setOriginating _ _ _ (Tracks.forkChain _ _ _ h h₁)

theorem Tracks.mergeChain : ∀ (fuel : Nat) {e : Executor} (cur : Nat) (c : Expr),
    Tracks e₀ e → Tracks e₀ (mergeChain fuel e cur c)
  | 0, _, _, _, h => h
  | fuel + 1, e, cur, c, h => by
    have h₁ := h.modifyState_of_histView cur (f := (·.addConstraint c))
      fun s => ExecutionState.histView_addConstraint s c
    simp only [Executor.mergeChain]
    split
    · exact Tracks.mergeChain fuel _ c h₁
    · exact h₁

theorem Tracks.mergeConstraintsForAll (h : Tracks e₀ e) {rec : Nat} {c : Expr} {e' : Executor}
    (he : e.mergeConstraintsForAll rec c = some e') : Tracks e₀ e' := by
  simp only [Executor.mergeConstraintsForAll, Option.bind_eq_bind', Option.bind_eq_some] at he
  obtain ⟨_, -, _, -, _, -, he⟩ := he
  cases he
  exact (Tracks.mergeChain _ _ c h).modifyState _ fun _ => ⟨rfl, rfl⟩

theorem Tracks.forcedChoice (h : Tracks e₀ e) (cur : Nat) (s : ExecutionState) (fi : ForkInput)
    (res : Validity) : Tracks e₀ (e.forcedChoice cur s fi res).1 := by
  unfold Executor.forcedChoice
  split
  · split <;> exact h.modifyState_of_histView _ fun s => ExecutionState.histView_addConstraint s _
  · exact h

theorem Tracks.followBranch (h : Tracks e₀ e) (cur : Nat) (fi : ForkInput) (c : Char) :
    Tracks e₀ (e.followBranch cur fi c) := by
  unfold Executor.followBranch
  split
  · exact h
  · exact h.modifyState _ fun _ => ⟨rfl, rfl⟩

/-- `forkStates` names the current state and the copy it allocates. -/
theorem Tracks.forkStates (h : Tracks e₀ e) {cur : Nat} (hcur : e.Known e₀ cur) {fi : ForkInput}
    {curIsTrue removePrefixes : Bool} {e' : Executor} {t f : Nat}
    (he : e.forkStates cur fi curIsTrue removePrefixes = some (e', t, f)) :
    Tracks e₀ e' ∧ e'.Known e₀ t ∧ e'.Known e₀ f := by
  rw [Executor.forkStates] at he
  obtain ⟨⟨e₁, new⟩, hb, he⟩ := Option.bind_eq_some.mp he
  obtain ⟨cs₀, hcs₀, hb⟩ := Option.map_eq_some'.mp hb
  have h₁ : Tracks e₀ e₁ := by
    rw [← show (e.newState cs₀).1 = e₁ from congrArg Prod.fst hb]
    exact h.newState cs₀ (fun d hd => h.2.1 d (Named.dep e hcs₀ hd))
      fun sn hsn => h.2.2 _ (SnapId.of_mem e hcs₀ hsn)
  have hnew : new = e.nextId := (congrArg Prod.snd hb).symm
  have hn₁ : e.nextId < e₁.nextId := by rw [← show (e.newState cs₀).1 = e₁ from congrArg Prod.fst hb]; simp
  -- the current state and the copy are known from the copy on
  have hids : ∀ x, x = cur ∨ x = new → ∀ e'' : Executor, e₁.nextId ≤ e''.nextId →
      e''.Known e₀ x := by
    rintro x (rfl | rfl) e'' hn
    · exact hcur.mono (Nat.le_of_lt (Nat.lt_of_lt_of_le hn₁ hn))
    · exact .inr ⟨hnew ▸ h.1, hnew ▸ Nat.lt_of_lt_of_le hn₁ hn⟩
  dsimp only at he
  have htf : (if curIsTrue = true then (cur, new) else (new, cur)).1 = cur ∨
      (if curIsTrue = true then (cur, new) else (new, cur)).1 = new := by split <;> simp
  have hft : (if curIsTrue = true then (cur, new) else (new, cur)).2 = cur ∨
      (if curIsTrue = true then (cur, new) else (new, cur)).2 = new := by split <;> simp
  generalize (if curIsTrue = true then (cur, new) else (new, cur)) = p at he htf hft
  obtain ⟨t₀, f₀⟩ := p
  generalize hep : (if removePrefixes = true then _ else e₁) = ep at he
  have hp : Tracks e₀ ep := by
    rw [← hep]
    split
    · exact (h₁.modifyState_of_histView _ (by intro; rfl)).modifyState_of_histView _ (by intro; rfl)
    · exact h₁
  have hnp : e₁.nextId ≤ ep.nextId := by rw [← hep]; split <;> simp
  obtain ⟨cs, -, he⟩ := Option.bind_eq_some.mp he
  generalize hed : Executor.modifyState
    (Executor.modifyState (if fi.isInternal = true then _ else _) _ _) _ _ = ed at he
  have hd : Tracks e₀ ed ∧ ep.nextId ≤ ed.nextId := by
    rw [← hed]
    refine ⟨Tracks.modifyState_of_histView (Tracks.modifyState_of_histView ?_ _ ?_) _ ?_, ?_⟩
    · split
      · exact hp.splitNode _ _ _
      · exact ((hp.splitNode _ _ _).modifyState _ (by intro; exact ⟨rfl, rfl⟩)).modifyState _
          (by intro; exact ⟨rfl, rfl⟩)
    · exact fun s => ExecutionState.histView_addConstraint s _
    · exact fun s => ExecutionState.histView_addConstraint s _
    · split <;> simp
  have hknown : ∀ e'' : Executor, ed.nextId ≤ e''.nextId →
      e''.Known e₀ t₀ ∧ e''.Known e₀ f₀ := fun e'' hn =>
    ⟨hids t₀ htf e'' (hnp.trans (hd.2.trans hn)), hids f₀ hft e'' (hnp.trans (hd.2.trans hn))⟩
  split at he
  · -- a recovery state's chain is copied, and both chains take the condition
    obtain ⟨e₃, h₃, he⟩ := Option.bind_eq_some.mp he
    obtain ⟨e₄, h₄, he⟩ := Option.bind_eq_some.mp he
    obtain ⟨e₅, h₅, he⟩ := Option.bind_eq_some.mp he
    cases he
    refine ⟨((hd.1.forkDependentStates h₃).mergeConstraintsForAll h₄).mergeConstraintsForAll h₅,
      hknown _ ?_⟩
    exact ((cacheGrows_forkDependentStates _ h₃).trans ((cacheGrows_mergeConstraintsForAll _ h₄).trans
      (cacheGrows_mergeConstraintsForAll _ h₅))).1
  · cases he; exact ⟨hd.1, hknown _ le_rfl⟩

/-- `fork` names every state it returns: the state it leaves to continue on the false side is
known. -/
theorem Tracks.fork (h : Tracks e₀ e) {cur : Nat} (hcur : e.Known e₀ cur) {fi : ForkInput}
    {e' : Executor} {t f : Option Nat} (he : e.fork cur fi = some (e', t, f)) :
    Tracks e₀ e' ∧ ∀ x, f = some x → e'.Known e₀ x := by
  rw [Executor.fork] at he
  obtain ⟨s, -, he⟩ := Option.bind_eq_some.mp he
  obtain ⟨dec, -, he⟩ := Option.bind_eq_some.mp he
  split at he
  · cases he; exact ⟨h.terminateStateOrChain hcur, fun _ h => by cases h⟩
  rename_i res forkAndSuspend
  dsimp only at he
  have h₁ := h.forcedChoice cur s fi res
  have hcur₁ := hcur.mono (cacheGrows_forcedChoice e cur s fi res).1
  generalize e.forcedChoice cur s fi res = p at he h₁ hcur₁
  obtain ⟨e₁, res'⟩ := p
  have h₁' : Tracks e₀ { e₁ with forks := e₁.forks + 1 } := h₁.of_lists rfl rfl fun _ hj => .inl hj
  split at he
  · obtain ⟨⟨e₂, t₂, f₂⟩, h₂, he⟩ := Option.bind_eq_some.mp he
    cases he
    obtain ⟨h₃, -, hf₂⟩ := h₁.forkStates hcur₁ h₂
    exact ⟨h₃.pushRanging hf₂, fun x hx => by cases hx; exact hf₂⟩
  · cases he; exact ⟨h₁.followBranch _ _ _, fun _ h => by cases h⟩
  · obtain ⟨⟨e₂, t₂, f₂⟩, h₂, he⟩ := Option.bind_eq_some.mp he
    cases he
    obtain ⟨h₃, ht₂, hf₂⟩ := h₁'.forkStates hcur₁ h₂
    exact ⟨h₃.pushRanging ht₂, fun x hx => by cases hx; exact hf₂⟩
  · cases he
    exact ⟨h₁.followBranch _ _ _, fun x hx => by
      cases hx; exact hcur₁.mono (cacheGrows_followBranch _ _ _ _).1⟩
  · obtain ⟨⟨e₂, t₂, f₂⟩, h₂, he⟩ := Option.bind_eq_some.mp he
    cases he
    obtain ⟨h₃, -, hf₂⟩ := h₁'.forkStates hcur₁ h₂
    exact ⟨h₃.pushAdded hf₂, fun x hx => by cases hx; exact hf₂⟩

/-- The loop over the resolutions of an address names every state it leaves unbound. -/
theorem Tracks.resolveStates (h : Tracks e₀ e) {cur : Nat} (hcur : e.Known e₀ cur)
    {fis : List ForkInput} {e' : Executor} {u : Option Nat}
    (he : resolveStates fis e cur = some (e', u)) :
    Tracks e₀ e' ∧ ∀ x, u = some x → e'.Known e₀ x := by
  obtain ⟨h', hu⟩ := resolveStates_induct (fun E x => Tracks e₀ E ∧ E.Known e₀ x) (Tracks e₀)
    (fun _ _ h => h.1)
    (fun _ _ _ _ _ _ ⟨h, hx⟩ hf => ⟨(h.fork hx hf).1, fun y hy => ⟨(h.fork hx hf).1,
      (h.fork hx hf).2 y hy⟩⟩) fis e cur ⟨h, hcur⟩ he
  exact ⟨h', fun x hx => (hu x hx).2⟩

/-! ## Multi-way branches -/

/-- The searcher `dfsUpdate` returns holds only states it held or was given. -/
theorem dfsUpdate_subset {v added removed v' : List Nat} (h : dfsUpdate v added removed = some v') :
    v' ⊆ v ++ added := by
  refine foldlM_invariant (fun w => w ⊆ v ++ added) (fun w es w' hw hsub => ?_) removed _ _ h
    (List.Subset.refl _)
  split at hw
  · cases hw; exact (List.dropLast_subset w).trans hsub
  · split at hw
    · cases hw; exact (List.erase_subset _ _).trans hsub
    · cases hw

theorem Tracks.branchCopies : ∀ (n : Nat) {e : Executor} (result : List Nat) (addStates : Bool)
    {e' : Executor} {result' : List Nat}, Tracks e₀ e → (∀ x ∈ result, e.Known e₀ x) →
    branchCopies n e result addStates = some (e', result') →
    Tracks e₀ e' ∧ ∀ x ∈ result', e'.Known e₀ x
  | 0, e, _, _, _, _, h, hres, he => by cases he; exact ⟨h, hres⟩
  | n + 1, e, result, addStates, e', result', h, hres, he => by
    rw [Executor.branchCopies] at he
    obtain ⟨es, hes, he⟩ := Option.bind_eq_some.mp he
    obtain ⟨⟨e₁, ns⟩, hb, he⟩ := Option.bind_eq_some.mp he
    obtain ⟨s₀, hs₀, hb⟩ := Option.map_eq_some'.mp hb
    have h₁ : Tracks e₀ e₁ := by
      rw [← show (e.newState s₀).1 = e₁ from congrArg Prod.fst hb]
      exact h.newState s₀ (fun d hd => h.2.1 d (Named.dep e hs₀ hd))
        fun sn hsn => h.2.2 _ (SnapId.of_mem e hs₀ hsn)
    have hn₁ : e₁.nextId = e.nextId + 1 := by
      rw [← show (e.newState s₀).1 = e₁ from congrArg Prod.fst hb]; rfl
    have hns : e₁.Known e₀ ns := by
      rw [← show (e.newState s₀).2 = ns from congrArg Prod.snd hb, newState_snd]
      exact .inr ⟨h.1, by rw [hn₁]; exact Nat.lt_succ_self _⟩
    dsimp only at he
    generalize he₂ : (if addStates = true then _ else e₁) = e₂ at he
    have h₂ : Tracks e₀ e₂ ∧ e₂.nextId = e₁.nextId := by
      rw [← he₂]; split
      · exact ⟨h₁.pushAdded hns, rfl⟩
      · exact ⟨h₁, rfl⟩
    obtain ⟨s, -, he⟩ := Option.bind_eq_some.mp he
    refine Tracks.branchCopies n _ _ ?_ (fun x hx => ?_) he
    · refine Tracks.modifyState (Tracks.modifyState (h₂.1.splitNode _ _ _) _ ?_) _ ?_ <;>
        exact fun _ => ⟨rfl, rfl⟩
    · rcases List.mem_append.mp hx with hx | hx
      · exact (hres x hx).mono (by simp [h₂.2, hn₁])
      · rw [List.mem_singleton.mp hx]; exact hns.mono (by simp [h₂.2])

theorem Tracks.eraseChain : ∀ (fuel : Nat) {e e' : Executor} (cur : Nat), Tracks e₀ e →
    eraseChain fuel e cur = some e' → Tracks e₀ e'
  | 0, _, _, _, _, he => by cases he
  | fuel + 1, e, e', cur, h, he => by
    rw [Executor.eraseChain] at he
    split at he
    · cases he
    have h₁ : Tracks e₀ { e with states := e.states.erase cur } :=
      h.of_fields rfl rfl mem_or_of_mem_erase mem_or_of_mem mem_or_of_mem mem_or_of_mem
        mem_or_of_mem mem_or_of_mem mem_or_of_mem mem_or_of_mem
    split at he
    · exact Tracks.eraseChain fuel _ h₁ he
    · cases he; exact h₁

theorem Tracks.rangeCases (h : Tracks e₀ e) {result : List Nat}
    (hres : ∀ x ∈ result, e.Known e₀ x) {e' : Executor} (he : e.rangeCases result = some e') :
    Tracks e₀ e' := by
  rw [Executor.rangeCases] at he
  obtain ⟨s₀, -, he⟩ := Option.bind_eq_some.mp he
  obtain ⟨r₀, hr₀, he⟩ := Option.bind_eq_some.mp he
  generalize hm : List.findIdx? _ result = matching at he
  cases matching with
  | none =>
    obtain ⟨searcher, hse, he⟩ := Option.bind_eq_some.mp he
    split at he
    · cases he
    cases he
    have hlast : result.getLastD 0 ∈ result := by
      cases result with
      | nil => cases hr₀
      | cons a rest =>
        rw [List.getLastD_cons, ← List.getLast_eq_getLastD a rest (List.cons_ne_nil _ _)]
        exact List.getLast_mem _
    have h₁ : Tracks e₀ { e with
        rangingSuspendedStates := e.rangingSuspendedStates ++ result.dropLast,
        addedStates := e.addedStates ++ [result.getLastD 0] } :=
      h.of_fields rfl rfl mem_or_of_mem mem_or_of_mem
        (mem_or_of_mem_append (by simpa using hres _ hlast)) mem_or_of_mem mem_or_of_mem
        mem_or_of_mem (mem_or_of_mem_append fun x hx => hres x (List.dropLast_subset _ hx))
        mem_or_of_mem
    exact h₁.of_fields rfl rfl mem_or_of_mem_erase
      (fun j hj => .inl (by simpa using dfsUpdate_subset hse hj)) mem_or_of_mem mem_or_of_mem
      mem_or_of_mem mem_or_of_mem mem_or_of_mem mem_or_of_mem
  | some satCase =>
    have h₁ : Tracks e₀ { e with rangingSuspendedStates := e.rangingSuspendedStates ++
        (result.enum.filter (·.1 ≠ satCase)).map (·.2) } :=
      h.of_fields rfl rfl mem_or_of_mem mem_or_of_mem mem_or_of_mem mem_or_of_mem mem_or_of_mem
        mem_or_of_mem (mem_or_of_mem_append fun x hx => by
          obtain ⟨⟨j, y⟩, hmem, rfl⟩ := List.mem_map.mp hx
          exact hres _ (List.snd_mem_of_mem_enum (List.mem_filter.mp hmem).1)) mem_or_of_mem
    dsimp only at he
    split at he
    · cases he; exact h₁
    · obtain ⟨searcher, hse, he⟩ := Option.bind_eq_some.mp he
      have hx : result.getD satCase 0 ∈ result := by
        rw [List.getD_eq_getElem?_getD,
          List.getElem?_eq_getElem (List.findIdx?_eq_some_iff_getElem.mp hm).1, Option.getD_some]
        exact List.getElem_mem _
      refine Tracks.eraseChain _ _ ?_ he
      exact (h₁.pushAdded (hres _ hx)).of_fields rfl rfl mem_or_of_mem
        (fun j hj => .inl (by simpa using dfsUpdate_subset hse hj)) mem_or_of_mem mem_or_of_mem
        mem_or_of_mem mem_or_of_mem mem_or_of_mem mem_or_of_mem

theorem Tracks.branchTail : ∀ (pairs : List (Option Nat × Expr)) (prev : Option Nat)
    {e e' : Executor}, Tracks e₀ e → branchTail pairs prev e = some e' → Tracks e₀ e'
  | [], _, _, _, h, he => by cases he; exact h
  | (current, c) :: rest, prev, e, e', h, he => by
    simp only [Executor.branchTail] at he
    cases current with
    | none => exact Tracks.branchTail rest none h he
    | some id =>
      obtain ⟨s, -, he⟩ := Option.bind_eq_some.mp he
      split at he
      · obtain ⟨e₁, h₁, he⟩ := Option.bind_eq_some.mp he
        exact Tracks.branchTail rest _ (h.forkDependentStates h₁) he
      · exact Tracks.branchTail rest _ h he

theorem Tracks.branchConstraints : ∀ (pairs : List (Option Nat × Expr)) {e e' : Executor},
    Tracks e₀ e → branchConstraints pairs e = some e' → Tracks e₀ e'
  | [], _, _, h, he => by cases he; exact h
  | (none, _) :: rest, e, e', h, he =>
    Tracks.branchConstraints rest h (by simpa [Executor.branchConstraints] using he)
  | (some id, c) :: rest, e, e', h, he => by
    simp only [Executor.branchConstraints, Option.bind_eq_bind', Option.bind_eq_some] at he
    obtain ⟨s, -, he⟩ := he
    have hm := h.modifyState_of_histView id (f := (·.addConstraint c))
      fun s => ExecutionState.histView_addConstraint s c
    split at he
    · obtain ⟨e₁, h₁, he⟩ := Option.bind_eq_some.mp he
      exact Tracks.branchConstraints rest (hm.mergeConstraintsForAll h₁) he
    · exact Tracks.branchConstraints rest hm (by simpa using he)

theorem Tracks.branch (h : Tracks e₀ e) {cur : Nat} (hcur : e.Known e₀ cur)
    {conditions : List Expr} {rng : Nat} {e' : Executor} {result : List (Option Nat)}
    (he : e.branch cur conditions rng = some (e', result)) : Tracks e₀ e' := by
  rw [Executor.branch] at he
  split at he
  · cases he
  obtain ⟨s, -, he⟩ := Option.bind_eq_some.mp he
  -- the end of `branch`: the last two loops
  have hend : ∀ {e₁ : Executor} {res : List (Option Nat)}, Tracks e₀ e₁ →
      (do let e ← Executor.branchTail (res.zip conditions) none e₁
          let e ← Executor.branchConstraints (res.zip conditions) e
          some (e, res)) = some (e', result) → Tracks e₀ e' := by
    intro e₁ res h₁ he
    obtain ⟨e₂, h₂, he⟩ := Option.bind_eq_some.mp he
    obtain ⟨e₃, h₃, he⟩ := Option.bind_eq_some.mp he
    cases he
    exact Tracks.branchConstraints _ (Tracks.branchTail _ _ h₁ h₂) h₃
  dsimp only at he
  have hf : Tracks e₀ { e with forks := e.forks + (conditions.length - 1) } :=
    h.of_lists rfl rfl fun _ hj => .inl hj
  have hcopies : ∀ addStates e₄ res₄, Executor.branchCopies (conditions.length - 1)
      { e with forks := e.forks + (conditions.length - 1) } [cur] addStates = some (e₄, res₄) →
      Tracks e₀ e₄ ∧ ∀ x ∈ res₄, e₄.Known e₀ x := fun addStates _ _ =>
    Tracks.branchCopies _ [cur] addStates hf (by simpa using hcur)
  split at he
  · obtain ⟨y, hy, he⟩ := Option.bind_eq_some.mp he
    cases hy; exact hend h he
  split at he
  · obtain ⟨⟨e₄, res₄⟩, h₄, he⟩ := Option.bind_eq_some.mp he
    obtain ⟨y, hy, he⟩ := Option.bind_eq_some.mp he
    cases hy
    exact hend (hcopies true _ _ h₄).1 he
  · obtain ⟨⟨e₄, res₄⟩, h₄, he⟩ := Option.bind_eq_some.mp he
    obtain ⟨e₅, h₅, he⟩ := Option.bind_eq_some.mp he
    obtain ⟨y, hy, he⟩ := Option.bind_eq_some.mp he
    cases hy
    exact hend (((hcopies false _ _ h₄).1).rangeCases (hcopies false _ _ h₄).2 h₅) he

/-! ## The run loop -/

/-- One instruction of a named state: every instruction but a skipped call keeps the names and
the snapshot states. -/
theorem Inert.executeInstruction (hi : e.Inert) {id : Nat} (hid : e.Named id) {instr : Instr}
    {r : Executor × List Message} (he : e.executeInstruction id instr = some r) : r.1.Inert := by
  have hk : e.Known e id := .inl hid
  have h := Tracks.refl e
  cases instr with
  | plain => cases he; exact hi
  | fork fi =>
    obtain ⟨⟨e₁, t, f⟩, h₁, rfl⟩ := Option.map_eq_some'.mp he
    exact hi.tracks (h.fork hk h₁).1
  | switch conditions rng =>
    obtain ⟨⟨e₁, res⟩, h₁, rfl⟩ := Option.map_eq_some'.mp he
    exact hi.tracks (h.branch hk h₁)
  | call f hasSideEffects =>
    obtain ⟨e₁, h₁, rfl⟩ := Option.map_eq_some'.mp he
    exact hi.executeSkippedCall hid h₁
  | load mayBlock hasUses address size mods =>
    obtain ⟨e₁, h₁, rfl⟩ := Option.map_eq_some'.mp he
    exact hi.tracks (h.executeLoad hk h₁)
  | store address v mayOverride =>
    obtain ⟨e₁, h₁, rfl⟩ := Option.map_eq_some'.mp he
    exact hi.tracks (h.executeStore h₁)
  | exit => cases he; exact hi.tracks (h.terminateStateOrChain hk)
  | error termReason message lastInst file line =>
    cases he; exact hi.tracks (h.terminateStateOnError hk termReason message lastInst file line)
  | early => cases he; exact hi.tracks (h.terminateStateOrChain hk)
  | recoveryExit =>
    simp only [Executor.executeInstruction] at he
    split at he
    · split at he
      · obtain ⟨e₁, h₁, rfl⟩ := Option.map_eq_some'.mp he
        exact hi.tracks (h.onRecoveryStateExit hk h₁)
      · cases he; exact hi
    · cases he
  | resolve fis incomplete lastInst file line =>
    obtain ⟨e₁, u, h₁, hr⟩ := Executor.executeResolution_cases _ he
    obtain ⟨ht, hu⟩ := h.resolveStates hk h₁
    rcases hr with ⟨-, rfl⟩ | ⟨x, rfl, ⟨-, rfl⟩ | ⟨-, rfl⟩⟩
    · exact hi.tracks ht
    · exact hi.tracks (ht.terminateStateOrChain (hu x rfl))
    · exact hi.tracks (ht.terminateStateOnError (hu x rfl) _ _ _ _ _)

theorem Tracks.indexSuspended (h : Tracks e₀ e) {id : Nat} (hid : e.Known e₀ id) :
    Tracks e₀ (e.indexSuspended id) := by
  unfold Executor.indexSuspended
  have h₁ := h.modifyState id (f := (·.clearPrefixes)) fun _ => ⟨rfl, rfl⟩
  rw [modifyState_eq] at h₁ ⊢
  refine h₁.of_fields rfl rfl mem_or_of_mem mem_or_of_mem mem_or_of_mem mem_or_of_mem
    mem_or_of_mem mem_or_of_mem mem_or_of_mem fun j hj => ?_
  dsimp only at hj
  split at hj
  · exact .inl hj
  · rw [List.map_append] at hj
    exact mem_or_of_mem_append (by simpa using hid) j hj

theorem Tracks.foldl_indexSuspended : ∀ (l : List Nat) {e : Executor}, Tracks e₀ e →
    (∀ x ∈ l, e.Known e₀ x) → Tracks e₀ (l.foldl Executor.indexSuspended e)
  | [], _, h, _ => h
  | id :: l, e, h, hl => by
    have hn : (e.indexSuspended id).nextId = e.nextId := by
      unfold Executor.indexSuspended; rw [modifyState_eq]
    exact Tracks.foldl_indexSuspended l (h.indexSuspended (hl id (List.mem_cons_self _ _)))
      fun x hx => (hl x (List.mem_cons_of_mem _ hx)).mono hn.ge

theorem Tracks.removeState (h : Tracks e₀ e) {es : Nat} {e' : Executor}
    (he : e.removeState es = some e') : Tracks e₀ e' := by
  unfold Executor.removeState at he
  split at he
  · cases he
    refine Tracks.deleteState ?_ es
    exact h.of_fields rfl rfl mem_or_of_mem_erase mem_or_of_mem mem_or_of_mem mem_or_of_mem
      mem_or_of_mem mem_or_of_mem mem_or_of_mem mem_or_of_mem
  · split at he
    · split at he
      · cases he; exact h
      · cases he
    · cases he

/-- The states the erasing loop of `newCheck2Offload` leaves are states it had. -/
theorem foldlM_erase_subset (l S : List Nat) {S' : List Nat}
    (h : l.foldlM (fun l id => if id ∈ l then some (l.erase id) else none) S = some S') :
    S' ⊆ S := by
  refine foldlM_invariant (fun w => w ⊆ S) (fun w es w' hw hsub => ?_) l _ _ h
    (List.Subset.refl _)
  split at hw
  · cases hw; exact (List.erase_subset _ _).trans hsub
  · cases hw

theorem Tracks.newCheck2Offload (h : Tracks e₀ e) {incoming : Option Tag}
    {r : Executor × List Message} (he : e.newCheck2Offload incoming = some r) :
    Tracks e₀ r.1 := by
  unfold Executor.newCheck2Offload at he
  split at he
  · dsimp only at he
    split at he
    · cases he; exact h
    · obtain ⟨V, hV, he⟩ := Option.bind_eq_some.mp he
      obtain ⟨S, hS, he⟩ := Option.bind_eq_some.mp he
      cases he
      have hsub := chosen_sublist e (fun p => !p.2.isSuspended)
        (offloadFromStatesVector e.haltExecution e.haltFromMaster e.ready2Offload
          ((e.states.filterMap fun id => (e.heap id).map (id, ·)).map (·.2))).1.length
      exact h.of_fields rfl rfl (fun j hj => .inl (foldlM_erase_subset _ _ hS hj))
        (fun j hj => .inl (by simpa using dfsUpdate_subset hV hj)) mem_or_of_mem
        (fun j hj => .inl (List.mem_of_mem_filter hj)) mem_or_of_mem mem_or_of_mem
        (mem_or_of_mem_append fun x hx => h.2.1 x (Named.of_states e (hsub.subset hx)))
        mem_or_of_mem
  · cases he; exact h.of_lists rfl rfl fun _ hj => .inl hj
  · cases he; exact h

theorem Tracks.updateStates (h : Tracks e₀ e) {incoming : Option Tag}
    {r : Executor × List Message} (he : e.updateStates incoming = some r) : Tracks e₀ r.1 := by
  rw [Executor.updateStates] at he
  obtain ⟨v₁, h₁, he⟩ := Option.bind_eq_some.mp he
  obtain ⟨v₂, h₂, he⟩ := Option.bind_eq_some.mp he
  obtain ⟨v₃, h₃, he⟩ := Option.bind_eq_some.mp he
  rw [foldlM_dfsUpdate_add] at h₃
  cases h₃
  dsimp only at he
  have hv₂ : v₂ ⊆ v₁ := foldlM_invariant (fun w => w ⊆ v₁)
    (fun w id w' hw hsub => by simpa using (dfsUpdate_subset hw).trans (by simpa using hsub))
    _ _ _ h₂ (List.Subset.refl _)
  -- the searcher and `states` take the added and resumed states
  have hE₁ : Tracks e₀ { e with
      searcher := v₂ ++ e.resumedStates, suspendedStates := [], resumedStates := [],
      states := e.addedStates.foldl insertState e.states } := by
    refine h.of_fields rfl rfl (fun j hj => ?_) (fun j hj => ?_) mem_or_of_mem mem_or_of_mem
      (fun _ hj => absurd hj (List.not_mem_nil _)) (fun _ hj => absurd hj (List.not_mem_nil _))
      mem_or_of_mem mem_or_of_mem
    · rcases (mem_foldl_insertState _ _ _).mp hj with hj | hj
      · exact .inl hj
      · exact .inr (h.2.1 j (Named.of_added e hj))
    · rcases List.mem_append.mp hj with hj | hj
      · rcases List.mem_append.mp (dfsUpdate_subset h₁ (hv₂ hj)) with hj | hj
        · exact .inl hj
        · exact .inr (h.2.1 j (Named.of_added e hj))
      · exact .inr (h.2.1 j (Named.of_resumed e hj))
  have hE₂ := Tracks.foldl_indexSuspended e.rangingSuspendedStates hE₁ fun j hj =>
    h.2.1 j (Named.of_ranging e hj)
  generalize e.rangingSuspendedStates.foldl Executor.indexSuspended _ = e₂ at hE₂ he
  obtain ⟨e₄, h₄, he⟩ := Option.bind_eq_some.mp he
  have hE₃ : Tracks e₀ { e₂ with addedStates := [], rangingSuspendedStates := [] } :=
    hE₂.of_fields rfl rfl mem_or_of_mem mem_or_of_mem
      (fun _ hj => absurd hj (List.not_mem_nil _)) mem_or_of_mem mem_or_of_mem mem_or_of_mem
      (fun _ hj => absurd hj (List.not_mem_nil _)) mem_or_of_mem
  have hE₄ : Tracks e₀ e₄ := foldlM_invariant (Tracks e₀) (fun _ _ _ hr hp => hp.removeState hr)
    _ _ _ h₄ hE₃
  have hE₅ : Tracks e₀ { e₄ with removedStates := [] } :=
    hE₄.of_fields rfl rfl mem_or_of_mem mem_or_of_mem mem_or_of_mem
      (fun _ hj => absurd hj (List.not_mem_nil _)) mem_or_of_mem mem_or_of_mem mem_or_of_mem
      mem_or_of_mem
  split at he
  · exact hE₅.newCheck2Offload he
  · cases he; exact hE₅

theorem Tracks.updateOffloadReadiness (h : Tracks e₀ e) :
    Tracks e₀ e.updateOffloadReadiness.1 := by
  unfold Executor.updateOffloadReadiness
  split_ifs <;> exact h.of_lists rfl rfl fun _ hj => .inl hj

/-- A turn of the inner loop keeps the snapshot states unnamed. -/
theorem Inert.runStep (hi : e.Inert) {instr : Instr} {mbs : Nat} {picks : List Nat}
    {incoming : Option Tag} {r : Executor × List Message}
    (he : e.runStep instr mbs picks incoming = some r) : r.1.Inert := by
  rw [Executor.runStep] at he
  obtain ⟨sel, hsel, he⟩ := Option.bind_eq_some.mp he
  obtain ⟨s, -, he⟩ := Option.bind_eq_some.mp he
  have hnamed : e.Named sel := Named.of_searcher e (List.mem_of_getLast?_eq_some hsel)
  have h := Tracks.refl e
  split at he
  · cases he; exact hi.tracks (h.of_lists rfl rfl fun _ hj => .inl hj)
  split at he
  · -- the worker prunes the selected state
    obtain ⟨V, hV, he⟩ := Option.bind_eq_some.mp he
    split at he
    · cases he
    cases he
    exact hi.tracks (h.of_fields rfl rfl mem_or_of_mem_erase
      (fun j hj => .inl (by simpa using dfsUpdate_subset hV hj)) mem_or_of_mem mem_or_of_mem
      mem_or_of_mem mem_or_of_mem mem_or_of_mem mem_or_of_mem)
  · obtain ⟨⟨e₁, sent₁⟩, h₁, he⟩ := Option.bind_eq_some.mp he
    obtain ⟨⟨e₃, sent₂⟩, h₃, he⟩ := Option.bind_eq_some.mp he
    have hi₁ : e₁.Inert := Inert.executeInstruction (e := e.stepInstruction)
      (hi.tracks (h.of_lists rfl rfl fun _ hj => .inl hj)) hnamed h₁
    have hi₃ : e₃.Inert :=
      hi₁.tracks (Tracks.updateStates ((Tracks.refl e₁).checkMemoryUsage mbs picks) h₃)
    have hi₄ := hi₃.tracks (Tracks.refl e₃).updateOffloadReadiness
    dsimp only at he
    generalize e₃.updateOffloadReadiness = p at he hi₄
    cases he
    exact hi₄.tracks ((Tracks.refl _).of_lists rfl rfl fun _ hj => .inl hj)

theorem Tracks.startPrefixTask (h : Tracks e₀ e) {msg : List Char} {e' : Executor}
    (he : e.startPrefixTask msg = some e') : Tracks e₀ e' := by
  rw [Executor.startPrefixTask] at he
  obtain ⟨⟨e₁, resumed⟩, h₁, he⟩ := Option.bind_eq_some.mp he
  obtain ⟨-, hmap, -, hres⟩ := foldlM_resumePrefix _ h₁
  have ht₁ : Tracks e₀ e₁ := by
    refine foldlM_invariant (fun p : Executor × List (Nat × List Char) => Tracks e₀ p.1)
      (fun ⟨e₂, _⟩ recvP ⟨e₃, _⟩ hr hp => ?_) _ _ _ h₁
      (h.of_lists rfl rfl fun _ hj => .inl hj)
    simp only [Executor.resumePrefix, Option.bind_eq_bind'] at hr
    obtain ⟨⟨path, id⟩, -, hr⟩ := Option.bind_eq_some.mp hr
    cases hr
    exact hp.modifyState _ fun _ => ⟨rfl, rfl⟩
  dsimp only at he
  obtain ⟨V, hV, he⟩ := Option.bind_eq_some.mp he
  cases he
  -- the resumed states are indexed states
  have hres' : ∀ j ∈ resumed.map Prod.fst, e₁.Known e₀ j := fun j hj => by
    obtain ⟨r, hr, rfl⟩ := List.mem_map.mp hj
    exact ht₁.2.1 _ (Named.of_indexed e₁ (List.mem_map.mpr ⟨_, hmap ▸ hres r hr, rfl⟩))
  have hS : ∀ j ∈ (resumed.map Prod.fst).foldl insertState e₁.states,
      j ∈ e₁.states ∨ e₁.Known e₀ j := fun j hj =>
    ((mem_foldl_insertState _ _ _).mp hj).imp_right (hres' j)
  refine ht₁.of_fields rfl rfl hS (fun j hj => ?_) mem_or_of_mem mem_or_of_mem mem_or_of_mem
    mem_or_of_mem mem_or_of_mem fun j hj => .inl ?_
  · rcases List.mem_append.mp (dfsUpdate_subset hV hj) with hj | hj
    · exact .inl hj
    · rcases hS j hj with hj | hj
      · exact .inr (ht₁.2.1 j (Named.of_states e₁ hj))
      · exact .inr hj
  · obtain ⟨p, hp, rfl⟩ := List.mem_map.mp hj
    exact List.mem_map.mpr ⟨p, List.mem_of_mem_filter hp, rfl⟩

end Executor

namespace Node

/-- One move of the run loop keeps the snapshot states unnamed. -/
theorem inert_next {n n' : Node} {ev : Event} (hi : n.e.Inert) (h : n.next ev = some n') :
    n'.e.Inert := by
  cases ev with
  | step instr mbs picks incoming =>
    simp only [next] at h
    split at h
    · cases h
    obtain ⟨⟨e', sent⟩, h₁, rfl⟩ := Option.map_eq_some'.mp h
    exact hi.runStep h₁
  | finish reply =>
    simp only [next] at h
    split at h
    · cases h
    split at h
    · cases h; exact hi
    have h₀ := Executor.Tracks.refl n.e
    cases reply with
    | KILL => cases h; exact hi.tracks (h₀.of_lists rfl rfl fun _ hj => .inl hj)
    | START_PREFIX_TASK msg =>
      obtain ⟨e', h₁, rfl⟩ := Option.map_eq_some'.mp h
      exact hi.tracks (h₀.startPrefixTask h₁)
    | other => cases h; exact hi
  | stop =>
    simp only [next] at h
    split at h
    · cases h
    · cases h; exact hi

end Node

/-- In every configuration a node reaches, no name points past `nextId` and no snapshot state
is named. -/
theorem Reachable.inert {opts : Options} {upperBound : List Char} {prefixDepth : Nat} {n : Node}
    (h : Reachable (Node.init opts upperBound prefixDepth) n) : n.e.Inert := by
  induction h with
  | init =>
    refine ⟨fun j hj => ?_, fun j ⟨r, s, hs, sn, hsn, _⟩ => ?_, fun j ⟨r, s, hs, sn, hsn, _⟩ => ?_⟩
    · rcases hj with hj | ⟨r, s, hs, hd⟩
      · simp [Node.init, Executor.listed] at hj; simp [Node.init, hj]
      · simp only [Node.init] at hs
        split at hs
        · cases hs; cases hd
        · cases hs
    all_goals
      simp only [Node.init] at hs
      split at hs
      · cases hs; cases hsn
      · cases hs
  | step _ _ hn ih => exact Node.inert_next ih hn

end PChop
