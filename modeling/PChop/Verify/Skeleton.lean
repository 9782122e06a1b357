import PChop.Verify.Links

/-!
# The skeleton of an executor

What the invariant of recovery chains reads of an executor: the link fields of every state,
the next fresh pointer, and the lists of pointers the run loop keeps (`states`, the searcher,
the four per-step buffers, `rangingSuspendedStates` and the states indexed in
`prefixSuspendedStatesMap`). Most operations leave the skeleton unchanged: they write
constraints, histories, memory, caches and leaves. This module proves so for each of them,
so that the invariant's proofs never unfold them.
-/

namespace PChop

/-- The lists of pointers of an executor. -/
structure IdLists where
  states : List Nat
  searcher : List Nat
  added : List Nat
  removed : List Nat
  suspended : List Nat
  resumed : List Nat
  ranging : List Nat
  indexed : List Nat

/-- The link fields, the next fresh pointer and the lists of pointers. -/
structure Skel where
  lv : LinkHeap
  nextId : Nat
  ls : IdLists

namespace ExecutionState

/-! ## Updates of one state that keep its link fields -/

theorem links_foldl_addConstraint (cs : List Expr) (s : ExecutionState) :
    (cs.foldl addConstraint s).links = s.links := by
  induction cs generalizing s with
  | nil => rfl
  | cons c cs ih => simp [ih]

theorem links_isMayBlockingLoad (s : ExecutionState) (mayBlock hasUses : Bool)
    (address size : Nat) :
    (s.isMayBlockingLoad mayBlock hasUses address size).1.links = s.links := by
  unfold isMayBlockingLoad isRecoveryRequired
  split
  · rfl
  · split
    · rfl
    · split
      · split <;> rfl
      · rfl

theorem links_filterInfos (loadAddr : Nat) :
    ∀ (ris : List RecoveryInfo) (s : ExecutionState) (queued : List RecoveryInfo),
      (filterInfos loadAddr ris s queued).1.links = s.links
  | [], _, _ => rfl
  | ri :: rest, s, queued => by
    unfold filterInfos
    split
    · rfl
    · rw [links_filterInfos loadAddr rest]; rfl
    · rw [links_filterInfos loadAddr rest]; rfl

theorem links_getAllRecoveryInfo (s : ExecutionState) (address size : Nat)
    (mods : List (Nat × Nat)) : (s.getAllRecoveryInfo address size mods).1.links = s.links :=
  links_filterInfos _ _ _ _

theorem links_onNormalStateRead (s : ExecutionState) (address : Nat) :
    (s.onNormalStateRead address).links = s.links := by
  unfold onNormalStateRead; split <;> rfl

theorem links_onRecoveryStateWrite (r d : ExecutionState) (storeAddr : Nat) (v : List Nat) :
    (r.onRecoveryStateWrite d storeAddr v).links = d.links := by
  unfold onRecoveryStateWrite
  split
  · split <;> rfl
  · rfl

end ExecutionState

namespace Executor

variable (e : Executor)

def idLists : IdLists :=
  ⟨e.states, e.searcher, e.addedStates, e.removedStates, e.suspendedStates, e.resumedStates,
    e.rangingSuspendedStates, e.prefixSuspendedStatesMap.map Prod.snd⟩

def skel : Skel := ⟨e.linkView, e.nextId, e.idLists⟩

theorem skel_eq_of {e' : Executor} (hlv : e'.linkView = e.linkView) (hn : e'.nextId = e.nextId)
    (hls : e'.idLists = e.idLists) : e'.skel = e.skel := by
  simp [skel, hlv, hn, hls]

/-! ## The arena -/

@[simp] theorem idLists_setState (id : Nat) (s : ExecutionState) :
    (e.setState id s).idLists = e.idLists := rfl

@[simp] theorem nextId_setState (id : Nat) (s : ExecutionState) :
    (e.setState id s).nextId = e.nextId := rfl

@[simp] theorem idLists_modifyState (id : Nat) (f : ExecutionState → ExecutionState) :
    (e.modifyState id f).idLists = e.idLists := by
  rw [modifyState_eq]; rfl

@[simp] theorem nextId_modifyState (id : Nat) (f : ExecutionState → ExecutionState) :
    (e.modifyState id f).nextId = e.nextId := by
  rw [modifyState_eq]

@[simp] theorem idLists_newState (s : ExecutionState) : (e.newState s).1.idLists = e.idLists := rfl

@[simp] theorem nextId_newState (s : ExecutionState) :
    (e.newState s).1.nextId = e.nextId + 1 := rfl

@[simp] theorem idLists_deleteState (id : Nat) : (e.deleteState id).idLists = e.idLists := rfl

@[simp] theorem nextId_deleteState (id : Nat) : (e.deleteState id).nextId = e.nextId := rfl

@[simp] theorem idLists_splitNode (node : Nat) (a b : Nat) :
    (e.splitNode node a b).idLists = e.idLists := by
  simp [splitNode]; rfl

@[simp] theorem nextId_splitNode (node : Nat) (a b : Nat) :
    (e.splitNode node a b).nextId = e.nextId := by
  simp [splitNode]

/-- A field update that keeps the link fields keeps the skeleton. -/
theorem skel_modifyState (id : Nat) {f : ExecutionState → ExecutionState}
    (hf : ∀ s, (f s).links = s.links) : (e.modifyState id f).skel = e.skel :=
  skel_eq_of e (linkView_modifyState e id hf) (by simp) (by simp)

theorem skel_splitNode (node : Nat) (a b : Nat) : (e.splitNode node a b).skel = e.skel :=
  skel_eq_of e (linkView_splitNode e node a b) (by simp) (by simp)

/-- Replacing a state by one with its link fields keeps the skeleton. -/
theorem skel_setState_of_linkView {id : Nat} {L : Links} {s' : ExecutionState}
    (hs : e.linkView id = some L) (hl : s'.links = L) : (e.setState id s').skel = e.skel := by
  refine skel_eq_of e ?_ rfl rfl
  rw [linkView_setState, hl]
  funext j
  by_cases hj : j = id
  · subst hj; simp [hs]
  · simp [hj]

theorem skel_setState_of_links {id : Nat} {s s' : ExecutionState} (hs : e.heap id = some s)
    (hl : s'.links = s.links) : (e.setState id s').skel = e.skel :=
  skel_setState_of_linkView e (by simp [linkView, hs]) hl

/-! ## Operations that keep the skeleton -/

theorem skel_replicateBranchHist {src dst : Nat} {e' : Executor}
    (h : e.replicateBranchHist src dst = some e') : e'.skel = e.skel := by
  simp only [replicateBranchHist, Option.bind_eq_bind', Option.bind_eq_some] at h
  obtain ⟨s, -, d, hd, h⟩ := h
  split at h
  · cases h; exact skel_setState_of_links e hd rfl
  · cases h

theorem skel_mergeChain : ∀ (fuel : Nat) (e : Executor) (cur : Nat) (c : Expr),
    (mergeChain fuel e cur c).skel = e.skel
  | 0, _, _, _ => rfl
  | fuel + 1, e, cur, c => by
    have h₁ := skel_modifyState e cur (f := (·.addConstraint c)) (fun s => by simp)
    simp only [mergeChain]
    split <;> simp only [skel_mergeChain, h₁]

theorem skel_mergeConstraintsForAll {rec : Nat} {c : Expr} {e' : Executor}
    (h : e.mergeConstraintsForAll rec c = some e') : e'.skel = e.skel := by
  simp only [mergeConstraintsForAll, Option.bind_eq_bind', Option.bind_eq_some] at h
  obtain ⟨_, -, _, -, _, -, h⟩ := h
  cases h
  rw [skel_modifyState _ _ (fun s => by simp), skel_mergeChain]

theorem skel_forcedChoice (cur : Nat) (s : ExecutionState) (fi : ForkInput) (res : Validity) :
    (e.forcedChoice cur s fi res).1.skel = e.skel := by
  unfold forcedChoice
  split
  · split <;> exact skel_modifyState _ _ (fun s => by simp)
  · rfl

theorem skel_followBranch (cur : Nat) (fi : ForkInput) (c : Char) :
    (e.followBranch cur fi c).skel = e.skel := by
  unfold followBranch
  split
  · rfl
  · exact skel_modifyState _ _ (fun _ => rfl)

@[simp] theorem skel_stepInstruction : e.stepInstruction.skel = e.skel := rfl

theorem skel_onRecoveryStateWrite (r : ExecutionState) (address : Nat) (v : List Nat) :
    (e.onRecoveryStateWrite r address v).skel = e.skel := by
  unfold onRecoveryStateWrite
  split
  · exact skel_modifyState _ _ fun d => ExecutionState.links_onRecoveryStateWrite r d address v
  · rfl

/-- The lookups of a may-blocking load, with the store of a cached value, keep the skeleton. -/
theorem skel_getAllRecoveryInfo (s : ExecutionState) (address size : Nat)
    (mods : List (Nat × Nat)) : (e.getAllRecoveryInfo s address size mods).1.skel = e.skel := by
  dsimp only [getAllRecoveryInfo]
  split
  · split
    · exact skel_onRecoveryStateWrite ..
    · rfl
  · rfl

theorem skel_executeStore {id : Nat} {address : Nat} {v : List Nat} {mayOverride : Bool}
    {e' : Executor} (h : e.executeStore id address v mayOverride = some e') : e'.skel = e.skel := by
  simp only [executeStore, Option.bind_eq_bind', Option.bind_eq_some] at h
  obtain ⟨s, hs, h⟩ := h
  cases h
  have hw : (e.setState id (s.write address v)).skel = e.skel := skel_setState_of_links e hs rfl
  have hn : ∀ s' : ExecutionState,
      (s'.onNormalStateWrite true mayOverride address v.length).links = s'.links := by
    intro s'
    unfold ExecutionState.onNormalStateWrite
    split <;> rfl
  split_ifs <;> simp only [skel_modifyState _ _ hn, skel_onRecoveryStateWrite, hw]

theorem skel_branchConstraints : ∀ (pairs : List (Option Nat × Expr)) (e e' : Executor),
    branchConstraints pairs e = some e' → e'.skel = e.skel
  | [], _, _, h => by cases h; rfl
  | (none, _) :: rest, e, e', h =>
    skel_branchConstraints rest e e' (by simpa [branchConstraints] using h)
  | (some id, c) :: rest, e, e', h => by
    simp only [branchConstraints, Option.bind_eq_bind', Option.bind_eq_some] at h
    obtain ⟨s, -, h⟩ := h
    have hm := skel_modifyState e id (f := (·.addConstraint c)) (fun s => by simp)
    split at h
    · obtain ⟨e₁, h₁, h⟩ := Option.bind_eq_some.mp h
      rw [skel_branchConstraints rest e₁ e' h, skel_mergeConstraintsForAll _ h₁, hm]
    · rw [skel_branchConstraints rest _ e' (by simpa using h), hm]

end Executor

end PChop
