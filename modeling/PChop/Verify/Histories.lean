import PChop.Verify.Names

/-!
# Branch histories

A state's branch history records one character per step of depth: the side of each two-way
branch it took (`0` and `1` where it forked, `2` and `3` where it followed one side without
forking) and the case of each multi-way branch. `replicateBranchHist` copies to a state the
part of another's history it lacks, and asserts that its depth is not greater.

`HistOK V` is what holds of the views of the heap (`Executor.views`): every state's depth is the
length of its history (`depth`); a recovery state's history extends its dependent state's
(`dep`); the state a snapshot points to exists and its history is a prefix of its owner's
(`snap`); and the recovery infos a state has queued are of its own snapshots (`pend`).

The first part works on maps of views: what one change of one view keeps (`HistOK.update`), with
its cases (a copy at a pointer nothing names, `HistOK.copy`; a history that grows on a state
nothing pins, `HistOK.extend`; the history a dependent state takes from its recovery state,
`HistOK.replicate`). The second part states, for every operation of the executor, how it
changes the views and that it keeps `HistOK` (`histOK_fork`, `histOK_branch`,
`histOK_onRecoveryStateExit`, ...), from a configuration whose names are inert
(`PChop.Verify.Names`) and whose selected state no recovery state depends on. So `HistOK` holds
in every reachable configuration (`Reachable.histOK`), and with it the alignment of depths and
histories the source relies on (`branchHist_aligned`).
-/

namespace PChop

namespace ExecutionState.HistView

/-- The recovery bit of the type. -/
def isRecovery (v : HistView) : Bool := v.type &&& RECOVERY_STATE != 0

end ExecutionState.HistView

open ExecutionState (HistView)

/-- The views of the states of a heap. -/
abbrev ViewHeap := Nat → Option HistView

/-- Depth and history agree on every state, a recovery state's history extends its dependent
state's, a snapshot state's history is a prefix of its owner's, and every queued recovery info
is of a snapshot of its state. -/
structure HistOK (V : ViewHeap) : Prop where
  depth : ∀ j v, V j = some v → v.depth = v.branchHist.length
  dep : ∀ r R d D, V r = some R → R.isRecovery = true → R.dependentState = some d →
    V d = some D → D.branchHist <+: R.branchHist
  snap : ∀ j v, V j = some v → ∀ sn ∈ v.snapshots,
    ∃ S, V sn.state = some S ∧ S.branchHist <+: v.branchHist
  pend : ∀ j v, V j = some v → ∀ ri ∈ v.pendingRecoveryInfos, ri.snapshot ∈ v.snapshots

/-- No recovery state depends on `x`, and no snapshot points to it: its history may grow. -/
def Unpinned (V : ViewHeap) (x : Nat) : Prop :=
  (∀ r R, V r = some R → R.isRecovery = true → R.dependentState ≠ some x) ∧
    ∀ j v, V j = some v → ∀ sn ∈ v.snapshots, sn.state ≠ x

namespace Unpinned

variable {V : ViewHeap} {y : Nat}

/-- A new view at `x` that is neither a recovery state of `y` nor holds a snapshot at `y`
keeps `y` unpinned. -/
theorem update (hy : Unpinned V y) {x : Nat} {v : HistView}
    (hd : v.isRecovery = true → v.dependentState ≠ some y) (hs : ∀ sn ∈ v.snapshots, sn.state ≠ y) :
    Unpinned (Function.update V x (some v)) y := by
  refine ⟨fun r R hr hrec => ?_, fun j w hw => ?_⟩
  · by_cases hrx : r = x
    · subst hrx; rw [Function.update_same] at hr; cases hr; exact hd hrec
    · rw [Function.update_noteq hrx] at hr; exact hy.1 r R hr hrec
  · by_cases hjx : j = x
    · subst hjx; rw [Function.update_same] at hw; cases hw; exact hs
    · rw [Function.update_noteq hjx] at hw; exact hy.2 j w hw

/-- A copy of a view keeps `y` unpinned. -/
theorem copy (hy : Unpinned V y) {c : Nat} {v : HistView} (hc : V c = some v) (x : Nat) :
    Unpinned (Function.update V x (some v)) y :=
  hy.update (hy.1 c v hc) (hy.2 c v hc)

/-- A longer history keeps `y` unpinned. -/
theorem extend (hy : Unpinned V y) {x : Nat} {u : HistView} (hu : V x = some u) (w : List Char) :
    Unpinned (Function.update V x
      (some { u with depth := u.depth + w.length, branchHist := u.branchHist ++ w })) y :=
  hy.update (hy.1 x u hu) (hy.2 x u hu)

end Unpinned

/-- No view pins a pointer at or past `n`. -/
def FreshFrom (V : ViewHeap) (n : Nat) : Prop := ∀ j, n ≤ j → Unpinned V j

namespace FreshFrom

variable {V : ViewHeap} {n : Nat}

theorem mono (h : FreshFrom V n) {m : Nat} (hm : n ≤ m) : FreshFrom V m :=
  fun j hj => h j (Nat.le_trans hm hj)

/-- A copy of a view keeps every pointer from `n` on unpinned. -/
theorem copy (h : FreshFrom V n) {c : Nat} {v : HistView} (hc : V c = some v) (x : Nat) :
    FreshFrom (Function.update V x (some v)) n :=
  fun j hj => (h j hj).copy hc x

/-- A longer history keeps every pointer from `n` on unpinned. -/
theorem extend (h : FreshFrom V n) {x : Nat} {u : HistView} (hu : V x = some u) (w : List Char) :
    FreshFrom (Function.update V x
      (some { u with depth := u.depth + w.length, branchHist := u.branchHist ++ w })) n :=
  fun j hj => (h j hj).extend hu w

/-- A recovery state that takes a dependent state below `n` keeps every pointer from `n` on
unpinned. -/
theorem setDependent (h : FreshFrom V n) {p x : Nat} {P : HistView} (hP : V p = some P)
    (hx : x < n) : FreshFrom (Function.update V p (some { P with dependentState := some x })) n :=
  fun j hj => (h j hj).update (fun _ hd => Nat.ne_of_lt (Nat.lt_of_lt_of_le hx hj)
    (Option.some.inj hd)) ((h j hj).2 p P hP)

end FreshFrom

namespace HistOK

variable {V : ViewHeap}

/-! ## One change of one view -/

/-- A new view at `x` keeps `HistOK` when it is good in itself, against the states it points
to, and for the states that point to `x`. -/
theorem update (h : HistOK V) (x : Nat) (v : HistView)
    (hdepth : v.depth = v.branchHist.length)
    (hR : v.isRecovery = true → ∀ d D, v.dependentState = some d → d ≠ x → V d = some D →
      D.branchHist <+: v.branchHist)
    (hD : ∀ r R, r ≠ x → V r = some R → R.isRecovery = true → R.dependentState = some x →
      v.branchHist <+: R.branchHist)
    (hown : ∀ sn ∈ v.snapshots, sn.state ≠ x →
      ∃ S, V sn.state = some S ∧ S.branchHist <+: v.branchHist)
    (hS : ∀ j u, j ≠ x → V j = some u → ∀ sn ∈ u.snapshots, sn.state = x →
      v.branchHist <+: u.branchHist)
    (hpend : ∀ ri ∈ v.pendingRecoveryInfos, ri.snapshot ∈ v.snapshots) :
    HistOK (Function.update V x (some v)) where
  depth j u hu := by
    by_cases hj : j = x
    · subst hj; cases (Function.update_same _ _ V).symm.trans hu; exact hdepth
    · exact h.depth j u (by rwa [Function.update_noteq hj] at hu)
  dep r R d D hr hrec hd hD' := by
    by_cases hrx : r = x
    · subst hrx
      cases (Function.update_same _ _ V).symm.trans hr
      by_cases hdx : d = r
      · subst hdx; cases (Function.update_same _ _ V).symm.trans hD'; exact List.prefix_refl _
      · exact hR hrec d D hd hdx (by rwa [Function.update_noteq hdx] at hD')
    · rw [Function.update_noteq hrx] at hr
      by_cases hdx : d = x
      · subst hdx; cases (Function.update_same _ _ V).symm.trans hD'; exact hD r R hrx hr hrec hd
      · exact h.dep r R d D hr hrec hd (by rwa [Function.update_noteq hdx] at hD')
  snap j u hu sn hsn := by
    by_cases hsx : sn.state = x
    · refine ⟨v, by rw [hsx, Function.update_same], ?_⟩
      by_cases hj : j = x
      · subst hj; cases (Function.update_same _ _ V).symm.trans hu; exact List.prefix_refl _
      · exact hS j u hj (by rwa [Function.update_noteq hj] at hu) sn hsn hsx
    · rw [Function.update_noteq hsx]
      by_cases hj : j = x
      · subst hj; cases (Function.update_same _ _ V).symm.trans hu; exact hown sn hsn hsx
      · exact h.snap j u (by rwa [Function.update_noteq hj] at hu) sn hsn
  pend j u hu := by
    by_cases hj : j = x
    · subst hj; cases (Function.update_same _ _ V).symm.trans hu; exact hpend
    · exact h.pend j u (by rwa [Function.update_noteq hj] at hu)

/-- Removing a state that no snapshot points to. -/
theorem erase (h : HistOK V) {x : Nat} (hx : ∀ j u, V j = some u → ∀ sn ∈ u.snapshots, sn.state ≠ x) :
    HistOK (Function.update V x none) where
  depth j u hu := by
    by_cases hj : j = x
    · subst hj; simp at hu
    · exact h.depth j u (by rwa [Function.update_noteq hj] at hu)
  dep r R d D hr hrec hd hD' := by
    by_cases hrx : r = x
    · subst hrx; simp at hr
    by_cases hdx : d = x
    · subst hdx; simp at hD'
    rw [Function.update_noteq hrx] at hr
    rw [Function.update_noteq hdx] at hD'
    exact h.dep r R d D hr hrec hd hD'
  snap j u hu sn hsn := by
    by_cases hj : j = x
    · subst hj; simp at hu
    rw [Function.update_noteq hj] at hu
    rw [Function.update_noteq (hx j u hu sn hsn)]
    exact h.snap j u hu sn hsn
  pend j u hu := by
    by_cases hj : j = x
    · subst hj; simp at hu
    · exact h.pend j u (by rwa [Function.update_noteq hj] at hu)

/-- A copy of the view of `c` at a pointer `x` nothing names. -/
theorem copy (h : HistOK V) {c x : Nat} {v : HistView} (hc : V c = some v) (hx : Unpinned V x) :
    HistOK (Function.update V x (some v)) :=
  h.update x v (h.depth c v hc) (fun hrec d D hd _ hD => h.dep c v d D hc hrec hd hD)
    (fun r R _ hr hrec hd => absurd hd (hx.1 r R hr hrec)) (fun sn hsn _ => h.snap c v hc sn hsn)
    (fun j u _ hu sn hsn hs => absurd hs (hx.2 j u hu sn hsn)) (h.pend c v hc)

/-- The history of a state that nothing pins grows by `w`, and its depth by the length of `w`. -/
theorem extend (h : HistOK V) {x : Nat} {u : HistView} (hu : V x = some u) (hx : Unpinned V x)
    (w : List Char) :
    HistOK (Function.update V x
      (some { u with depth := u.depth + w.length, branchHist := u.branchHist ++ w })) := by
  refine h.update x _ (by simp [h.depth x u hu]) (fun hrec d D hd _ hD => ?_)
    (fun r R _ hr hrec hd => absurd hd (hx.1 r R hr hrec))
    (fun sn hsn _ => ?_) (fun j u' _ hu' sn hsn hs => absurd hs (hx.2 j u' hu' sn hsn))
    (h.pend x u hu)
  · exact (h.dep x u d D hu hrec hd hD).trans (List.prefix_append _ _)
  · obtain ⟨S, hS, hpre⟩ := h.snap x u hu sn hsn
    exact ⟨S, hS, hpre.trans (List.prefix_append _ _)⟩

/-- A dependent state takes the history and the depth of a recovery state whose history
extends its own, when no other recovery state depends on it and no snapshot points to it. -/
theorem replicate (h : HistOK V) {src dst : Nat} {S D : HistView} (hS : V src = some S)
    (hD : V dst = some D) (hpre : D.branchHist <+: S.branchHist)
    (hup : ∀ r R, r ≠ dst → V r = some R → R.isRecovery = true → R.dependentState = some dst →
      S.branchHist <+: R.branchHist)
    (hsnap : ∀ j u, V j = some u → ∀ sn ∈ u.snapshots, sn.state ≠ dst) :
    HistOK (Function.update V dst
      (some { D with branchHist := S.branchHist, depth := S.depth })) := by
  refine h.update dst _ (h.depth src S hS) (fun hrec d D' hd _ hD' => ?_) hup (fun sn hsn _ => ?_)
    (fun j u _ hu sn hsn hs => absurd hs (hsnap j u hu sn hsn)) (h.pend dst D hD)
  · exact (h.dep dst D d D' hD hrec hd hD').trans hpre
  · obtain ⟨S', hS', hpre'⟩ := h.snap dst D hD sn hsn
    exact ⟨S', hS', hpre'.trans hpre⟩

/-- A recovery state takes a dependent state whose history its own extends. -/
theorem setDependent (h : HistOK V) {x f : Nat} {P : HistView} (hP : V x = some P)
    (hf : P.isRecovery = true → ∀ F, f ≠ x → V f = some F → F.branchHist <+: P.branchHist) :
    HistOK (Function.update V x (some { P with dependentState := some f })) := by
  refine h.update x _ (h.depth x P hP) (fun hrec d D hd hdx hD => ?_)
    (fun r R _ hr hrec hd => h.dep r R x P hr hrec hd hP) (fun sn hsn _ => h.snap x P hP sn hsn)
    (fun j u _ hu sn hsn hs => ?_) (h.pend x P hP)
  · cases hd; exact hf hrec D hdx hD
  · obtain ⟨S, hS, hpre⟩ := h.snap j u hu sn hsn
    rw [hs, hP] at hS
    cases hS
    exact hpre

/-- A state takes one more snapshot, of a state whose history is a prefix of its own. -/
theorem addSnapshot (h : HistOK V) {x : Nat} {u S : HistView} (hu : V x = some u) {sn : Snapshot}
    (hS : V sn.state = some S) (hpre : S.branchHist <+: u.branchHist) :
    HistOK (Function.update V x (some { u with snapshots := u.snapshots ++ [sn] })) := by
  refine h.update x _ (h.depth x u hu) (fun hrec d D hd _ hD => h.dep x u d D hu hrec hd hD)
    (fun r R _ hr hrec hd => h.dep r R x u hr hrec hd hu) (fun sn' hsn' _ => ?_)
    (fun j u' _ hu' sn' hsn' hs => ?_)
    (fun ri hri => List.mem_append_left _ (h.pend x u hu ri hri))
  · rcases List.mem_append.mp hsn' with hsn' | hsn'
    · exact h.snap x u hu sn' hsn'
    · rw [List.mem_singleton.mp hsn']; exact ⟨S, hS, hpre⟩
  · obtain ⟨S', hS', hpre'⟩ := h.snap j u' hu' sn' hsn'
    rw [hs, hu] at hS'
    cases hS'
    exact hpre'

/-- Two states that nothing pins grow by `wa` and `wb`. -/
theorem extend₂ (h : HistOK V) {a b : Nat} (hab : a ≠ b) {A B : HistView} (ha : V a = some A)
    (hb : V b = some B) (hua : Unpinned V a) (hub : Unpinned V b) (wa wb : List Char) :
    HistOK (Function.update (Function.update V a
      (some { A with depth := A.depth + wa.length, branchHist := A.branchHist ++ wa })) b
        (some { B with depth := B.depth + wb.length, branchHist := B.branchHist ++ wb })) :=
  (h.extend ha hua wa).extend (by rw [Function.update_noteq hab.symm]; exact hb) (hub.extend ha wa) wb

/-- A state's queue of recovery infos changes to infos of its snapshots. -/
theorem setPending (h : HistOK V) {x : Nat} {u : HistView} (hu : V x = some u)
    {l : List RecoveryInfo} (hl : ∀ ri ∈ l, ri.snapshot ∈ u.snapshots) :
    HistOK (Function.update V x (some { u with pendingRecoveryInfos := l })) := by
  refine h.update x _ (h.depth x u hu) (fun hrec d D hd _ hD => h.dep x u d D hu hrec hd hD)
    (fun r R _ hr hrec hd => h.dep r R x u hr hrec hd hu) (fun sn hsn _ => h.snap x u hu sn hsn)
    (fun j u' _ hu' sn hsn hs => ?_) hl
  obtain ⟨S', hS', hpre'⟩ := h.snap j u' hu' sn hsn
  rw [hs, hu] at hS'
  cases hS'
  exact hpre'

end HistOK

namespace ExecutionState

/-- The first loop of `getAllRecoveryInfo` makes infos of the snapshots it walks. -/
theorem snapshot_mem_requiredInfos (s : ExecutionState) (loadAddr loadSize : Nat)
    (mods : List (Nat × Nat)) : ∀ (index : Nat) (snaps : List Snapshot),
      ∀ ri ∈ s.requiredInfos loadAddr loadSize mods index snaps, ri.snapshot ∈ snaps
  | _, [] => by simp [requiredInfos]
  | index, snap :: rest => by
    have ih := snapshot_mem_requiredInfos s loadAddr loadSize mods (index + 1) rest
    unfold requiredInfos
    split
    · simp
    · split
      · intro ri hri
        rcases List.mem_cons.mp hri with rfl | hri
        · exact List.mem_cons_self _ _
        · exact List.mem_cons_of_mem _ (ih ri hri)
      · exact fun ri hri => List.mem_cons_of_mem _ (ih ri hri)

/-- Every info `getAllRecoveryInfo` queues is of a snapshot of the state. -/
theorem snapshot_mem_getAllRecoveryInfo (s : ExecutionState) (loadAddr loadSize : Nat)
    (mods : List (Nat × Nat)) :
    ∀ ri ∈ (s.getAllRecoveryInfo loadAddr loadSize mods).2.1, ri.snapshot ∈ s.snapshots := by
  intro ri hri
  unfold getAllRecoveryInfo at hri
  obtain ⟨new, hsub, hq, -, -⟩ := filterInfos_spec loadAddr
    (s.requiredInfos loadAddr loadSize mods (s.getStartingIndex loadAddr loadSize)
      (s.snapshots.drop (s.getStartingIndex loadAddr loadSize))).reverse s []
  rw [hq, List.append_nil, List.mem_reverse] at hri
  exact List.drop_subset _ _
    (snapshot_mem_requiredInfos s _ _ _ _ _ ri (List.mem_reverse.mp (hsub.subset hri)))

end ExecutionState

/-- The part of `l` past `k` appended to `k`, when `k` is a prefix of `l`, is `l`. -/
theorem append_drop_length_eq {k l : List Char} (h : k <+: l) : k ++ l.drop k.length = l := by
  rw [List.prefix_iff_eq_take.mp h, List.length_take_of_le (List.IsPrefix.length_le h)]
  exact List.take_append_drop _ _

/-- `replicateBranchHist` may run from `src` to `dst`: the history of `dst` is a prefix of
that of `src`, every other recovery state that depends on `dst` has a history that extends
`src`'s, and no snapshot points to `dst`. -/
def CanReplicate (V : ViewHeap) (src dst : Nat) : Prop :=
  (∀ S D, V src = some S → V dst = some D → D.branchHist <+: S.branchHist ∧
    ∀ r R, r ≠ dst → V r = some R → R.isRecovery = true → R.dependentState = some dst →
      S.branchHist <+: R.branchHist) ∧
  ∀ j u, V j = some u → ∀ sn ∈ u.snapshots, sn.state ≠ dst

/-- The queue of `dst` changes: `replicateBranchHist` may still run. -/
theorem CanReplicate.setPending {V : ViewHeap} {src dst : Nat} (hc : CanReplicate V src dst)
    (hsd : src ≠ dst) {u : HistView} (hu : V dst = some u) (l : List RecoveryInfo) :
    CanReplicate (Function.update V dst (some { u with pendingRecoveryInfos := l })) src dst := by
  refine ⟨fun S D hS hD => ?_, fun j w hw sn hsn => ?_⟩
  · rw [Function.update_noteq hsd] at hS
    rw [Function.update_same] at hD
    cases hD
    refine ⟨(hc.1 S u hS hu).1, fun r R hr hR => ?_⟩
    rw [Function.update_noteq hr] at hR
    exact (hc.1 S u hS hu).2 r R hr hR
  · by_cases hj : j = dst
    · subst hj
      rw [Function.update_same] at hw
      cases hw
      exact hc.2 j u hu sn hsn
    · rw [Function.update_noteq hj] at hw
      exact hc.2 j w hw sn hsn

namespace Executor

variable (e : Executor)

/-! ## The views of the heap -/

/-- The view of every state of the heap. -/
def views : ViewHeap := fun j => (e.heap j).map ExecutionState.histView

/-- No recovery state of the heap has `x` as its dependent state. -/
def NotDep (x : Nat) : Prop :=
  ∀ r s, e.heap r = some s → s.isRecoveryState = true → s.dependentState ≠ some x

theorem views_eq_some {j : Nat} {v : HistView} (h : e.views j = some v) :
    ∃ s, e.heap j = some s ∧ s.histView = v :=
  Option.map_eq_some'.mp h

theorem views_of_heap {j : Nat} {s : ExecutionState} (h : e.heap j = some s) :
    e.views j = some s.histView := by
  simp [views, h]

theorem views_setState (id : Nat) (s : ExecutionState) :
    (e.setState id s).views = Function.update e.views id (some s.histView) := by
  funext j
  by_cases hj : j = id
  · subst hj; simp [views]
  · simp [views, hj]

theorem views_newState (s : ExecutionState) :
    (e.newState s).1.views = Function.update e.views e.nextId (some s.histView) := by
  funext j
  by_cases hj : j = e.nextId
  · subst hj; simp [views]
  · simp [views, hj]

theorem views_deleteState (id : Nat) :
    (e.deleteState id).views = Function.update e.views id none := by
  funext j
  by_cases hj : j = id
  · subst hj; simp [views]
  · simp [views, hj]

/-- A field update whose effect on the views is `g`. -/
theorem views_modifyState_of (id : Nat) {f : ExecutionState → ExecutionState}
    (g : HistView → HistView) (hf : ∀ s, (f s).histView = g s.histView) :
    (e.modifyState id f).views = Function.update e.views id ((e.views id).map g) := by
  funext j
  by_cases hj : j = id
  · subst hj; cases h : e.heap j <;> simp [views, modifyState_heap, h, hf]
  · simp [views, modifyState_heap, hj]

/-- A field update that keeps the view keeps the views. -/
theorem views_modifyState (id : Nat) {f : ExecutionState → ExecutionState}
    (hf : ∀ s, (f s).histView = s.histView) : (e.modifyState id f).views = e.views := by
  rw [views_modifyState_of e id (fun v => v) hf]
  funext j
  by_cases hj : j = id
  · subst hj; cases e.views j <;> simp
  · simp [hj]

theorem views_splitNode (node a b : Nat) : (e.splitNode node a b).views = e.views := by
  unfold splitNode
  rw [views_modifyState, views_modifyState] <;> intros <;> rfl

theorem views_onRecoveryStateWrite (r : ExecutionState) (address : Nat) (v : List Nat) :
    (e.onRecoveryStateWrite r address v).views = e.views := by
  unfold onRecoveryStateWrite
  split
  · exact views_modifyState _ _ fun ds =>
      ExecutionState.histView_onRecoveryStateWrite r ds address v
  · rfl

/-- The lookups of a may-blocking load, with the store of a cached value, keep every view. -/
theorem views_getAllRecoveryInfo (s : ExecutionState) (address size : Nat)
    (mods : List (Nat × Nat)) : (e.getAllRecoveryInfo s address size mods).1.views = e.views := by
  dsimp only [getAllRecoveryInfo]
  split
  · split
    · exact views_onRecoveryStateWrite ..
    · rfl
  · rfl

variable {e}

/-- Each recovery state is the one recovery state of its dependent state, and not its own
dependent. -/
def SoleDeps : Prop :=
  ∀ r R d, e.heap r = some R → R.isRecoveryState = true → R.dependentState = some d →
    r ≠ d ∧ ∀ r' R', e.heap r' = some R' → R'.isRecoveryState = true →
      R'.dependentState = some d → r' = r

/-- Nothing pins a pointer from `nextId` on. -/
theorem Inert.freshFrom (hi : e.Inert) : FreshFrom e.views e.nextId := by
  intro x hx
  refine ⟨fun r R hr _ hd => ?_, fun j v hv sn hsn hs => ?_⟩
  · obtain ⟨s, hs, rfl⟩ := views_eq_some e hr
    exact Nat.lt_irrefl _ (Nat.lt_of_lt_of_le (hi.named_lt _ (Named.dep e hs hd)) hx)
  · obtain ⟨s, hs', rfl⟩ := views_eq_some e hv
    exact Nat.lt_irrefl _ (Nat.lt_of_lt_of_le (hi.snap_lt _ (hs ▸ SnapId.of_mem e hs' hsn)) hx)

/-- Nothing pins the next fresh pointer. -/
theorem Inert.unpinned_nextId (hi : e.Inert) : Unpinned e.views e.nextId :=
  hi.freshFrom _ (Nat.le_refl _)

/-- No snapshot points to a named state. -/
theorem Inert.not_snap (hi : e.Inert) {x : Nat} (hx : e.Named x) :
    ∀ j v, e.views j = some v → ∀ sn ∈ v.snapshots, sn.state ≠ x := by
  intro j v hv sn hsn hs
  obtain ⟨s, hs', rfl⟩ := views_eq_some e hv
  exact hi.snap_not_named x (hs ▸ SnapId.of_mem e hs' hsn) hx

/-- A state known since an executor that keeps the snapshot states unnamed is below `nextId`,
and, when no recovery state depends on it, unpinned. -/
theorem Inert.known {e₀ : Executor} (hi₀ : e₀.Inert) (ht : Tracks e₀ e) {x : Nat}
    (hx : e.Known e₀ x) (hnd : e.NotDep x) : x < e.nextId ∧ Unpinned e.views x := by
  refine ⟨hx.elim (fun hn => Nat.lt_of_lt_of_le (hi₀.named_lt x hn) ht.1) And.right,
    fun r R hr hrec hd => ?_, fun j v hv sn hsn hs => ?_⟩
  · obtain ⟨s, hs, rfl⟩ := views_eq_some e hr
    exact hnd r s hs hrec hd
  · obtain ⟨s, hs', rfl⟩ := views_eq_some e hv
    have hsnap := ht.2.2 x (hs ▸ SnapId.of_mem e hs' hsn)
    rcases hx with hn | ⟨hge, -⟩
    · exact hi₀.snap_not_named x hsnap hn
    · exact absurd (hi₀.snap_lt x hsnap) (Nat.not_lt.mpr hge)

/-- A named state no recovery state depends on is unpinned. -/
theorem Inert.unpinned (hi : e.Inert) {x : Nat} (hx : e.Named x) (hnd : e.NotDep x) :
    Unpinned e.views x :=
  (hi.known (Tracks.refl e) (.inl hx) hnd).2

/-! ## Terminating states -/

theorem histOK_terminateState (hi : e.Inert) (h : HistOK e.views) (id : Nat) :
    HistOK (e.terminateState id).views := by
  unfold terminateState
  split
  · rw [views_deleteState]
    exact h.erase (hi.not_snap (Named.of_added e ‹_›))
  · exact h

/-- Terminating `id` keeps every other view. -/
theorem views_terminateState_ne {id j : Nat} (hj : j ≠ id) :
    (e.terminateState id).views j = e.views j := by
  unfold terminateState
  split
  · rw [views_deleteState, Function.update_noteq hj]; rfl
  · rfl

@[simp] theorem nextId_terminateState (id : Nat) : (e.terminateState id).nextId = e.nextId := by
  unfold terminateState
  split <;> rfl

section
variable {e₀ : Executor} (hi₀ : e₀.Inert)
include hi₀

theorem histOK_terminateStateRecursivelyAux : ∀ (fuel : Nat) {e : Executor} {id : Nat},
    Tracks e₀ e → e.Known e₀ id → HistOK e.views →
      HistOK (terminateStateRecursivelyAux fuel e id).views
  | 0, _, _, _, _, h => h
  | fuel + 1, e, id, ht, hid, h => by
    unfold terminateStateRecursivelyAux
    have h₁ := histOK_terminateState (hi₀.tracks ht) h id
    split
    · rename_i d hd
      exact histOK_terminateStateRecursivelyAux fuel (ht.terminateState hid)
        ((ht.2.1 d (Named.nextDependent hd)).mono (cacheGrows_terminateState e id).1) h₁
    · exact h₁

theorem histOK_terminateStateOrChain {e : Executor} (ht : Tracks e₀ e) {id : Nat}
    (hid : e.Known e₀ id) (h : HistOK e.views) : HistOK (e.terminateStateOrChain id).views := by
  unfold terminateStateOrChain
  split
  · split
    · exact histOK_terminateStateRecursivelyAux hi₀ _ ht hid h
    · exact histOK_terminateState (hi₀.tracks ht) h id
  · exact histOK_terminateState (hi₀.tracks ht) h id

theorem histOK_killStates : ∀ (toKill : Nat) (arr picks : List Nat) {e : Executor},
    Tracks e₀ e → (∀ j ∈ arr, e.Known e₀ j) → HistOK e.views →
      HistOK (killStates toKill arr picks e).views
  | 0, _, _, _, _, _, h => by rw [killStates]; exact h
  | _ + 1, [], _, _, _, _, h => by simp only [killStates]; exact h
  | toKill + 1, a :: arr, picks, e, ht, harr, h => by
    simp only [killStates]
    have hv := harr _ (getD_mem_of_lt (Nat.mod_lt (picks.headD 0) (Nat.succ_pos arr.length)))
    refine histOK_killStates toKill _ _ (ht.terminateStateOrChain hv) (fun j hj => ?_)
      (histOK_terminateStateOrChain hi₀ ht hv h)
    refine (harr j ?_).mono (cacheGrows_terminateStateOrChain e _).1
    rcases List.mem_or_eq_of_mem_set (List.dropLast_subset _ hj) with hj | heq
    · exact hj
    · rw [heq]; exact getD_mem_of_lt (by simp)

end

theorem views_haltOnError (termReason : TerminateReason) (file : String) (line : Nat) :
    (e.haltOnError termReason file line).1.views = e.views := by
  unfold Executor.haltOnError; dsimp only; split_ifs <;> rfl

theorem histOK_terminateStateOnError {e₀ : Executor} (hi₀ : e₀.Inert) (ht : Tracks e₀ e)
    (h : HistOK e.views) {id : Nat} (hid : e.Known e₀ id) (termReason : TerminateReason)
    (message : String) (lastInst : Nat) (file : String) (line : Nat) :
    HistOK (e.terminateStateOnError id termReason message lastInst file line).1.views := by
  unfold Executor.terminateStateOnError
  dsimp only
  rw [views_haltOnError]
  refine histOK_terminateStateOrChain hi₀ ?_ hid h
  exact ht.of_lists rfl rfl fun _ hj => .inl hj

theorem histOK_checkMemoryUsage (hi : e.Inert) (h : HistOK e.views) (mbs : Nat)
    (picks : List Nat) : HistOK (e.checkMemoryUsage mbs picks).views := by
  unfold checkMemoryUsage
  split
  · exact h
  · split
    · show HistOK (Executor.views (if _ then _ else _))
      split
      · exact histOK_killStates hi _ _ _ (Tracks.refl e)
          (fun j hj => .inl (Named.of_states e (List.mem_filter.mp hj).1)) h
      · exact h
    · exact h

/-! ## Recovery -/

variable (e)

/-- What `replicateBranchHist` does when it returns. -/
theorem replicateBranchHist_eq {src dst : Nat} {e' : Executor}
    (he : e.replicateBranchHist src dst = some e') : ∃ S D, e.heap src = some S ∧
      e.heap dst = some D ∧ D.depth ≤ S.depth ∧ e' = e.setState dst { D with
        branchHist := D.branchHist ++ S.branchHist.drop D.branchHist.length, depth := S.depth,
        prefixes := S.prefixes } := by
  simp only [replicateBranchHist, Option.bind_eq_bind', Option.bind_eq_some] at he
  obtain ⟨S, hS, D, hD, he⟩ := he
  split at he
  · cases he; exact ⟨S, D, hS, hD, ‹_›, rfl⟩
  · cases he

/-- When the history of `dst` is a prefix of that of `src` and both depths are the lengths of
the histories, the assertion of `replicateBranchHist` holds and `dst` takes the history and the
depth of `src`. -/
theorem replicateBranchHist_of_aligned {src dst : Nat} {S D : ExecutionState}
    (hS : e.heap src = some S) (hD : e.heap dst = some D) (hp : D.branchHist <+: S.branchHist)
    (hdS : S.depth = S.branchHist.length) (hdD : D.depth = D.branchHist.length) :
    e.replicateBranchHist src dst = some (e.setState dst { D with
      branchHist := S.branchHist, depth := S.depth, prefixes := S.prefixes }) := by
  have hle : D.depth ≤ S.depth := by rw [hdS, hdD]; exact hp.length_le
  simp [replicateBranchHist, hS, hD, hle, append_drop_length_eq hp]

variable {e}

/-- `replicateBranchHist` on the views: the view of `dst` takes the rest of `src`'s history
and `src`'s depth. -/
theorem views_replicateBranchHist {src dst : Nat} {e' : Executor}
    (he : e.replicateBranchHist src dst = some e') : ∃ S D, e.views src = some S ∧
      e.views dst = some D ∧ e'.views = Function.update e.views dst (some { D with
        branchHist := D.branchHist ++ S.branchHist.drop D.branchHist.length, depth := S.depth }) := by
  obtain ⟨S, D, hS, hD, -, rfl⟩ := replicateBranchHist_eq e he
  exact ⟨_, _, views_of_heap e hS, views_of_heap e hD, views_setState e dst _⟩

theorem nextId_replicateBranchHist {src dst : Nat} {e' : Executor}
    (he : e.replicateBranchHist src dst = some e') : e'.nextId = e.nextId := by
  obtain ⟨S, D, -, -, -, rfl⟩ := replicateBranchHist_eq e he
  rfl

/-- Where it may run, `replicateBranchHist` gives `dst` the history and the depth of `src`. -/
theorem histOK_replicateBranchHist (h : HistOK e.views) {src dst : Nat} {e' : Executor}
    (hc : CanReplicate e.views src dst) (he : e.replicateBranchHist src dst = some e') :
    HistOK e'.views ∧ e'.nextId = e.nextId ∧ ∃ S D, e.views src = some S ∧
      e.views dst = some D ∧ e'.views = Function.update e.views dst
        (some { D with branchHist := S.branchHist, depth := S.depth }) := by
  obtain ⟨S, D, hS, hD, he'⟩ := views_replicateBranchHist he
  obtain ⟨hpre, hup⟩ := hc.1 S D hS hD
  rw [append_drop_length_eq hpre] at he'
  refine ⟨?_, nextId_replicateBranchHist he, S, D, hS, hD, he'⟩
  rw [he']
  exact h.replicate hS hD hpre hup hc.2

@[simp] theorem views_with_addedStates (l : List Nat) :
    ({ e with addedStates := l } : Executor).views = e.views := rfl

theorem nextId_startRecoveryState {d : Nat} {ri : RecoveryInfo} {e' : Executor}
    (he : e.startRecoveryState d ri = some e') : e'.nextId = e.nextId + 1 := by
  simp only [Executor.startRecoveryState, Option.bind_eq_bind', Option.bind_eq_some] at he
  obtain ⟨snap, -, ds, -, base, -, he⟩ := he
  rw [nextId_replicateBranchHist he]
  simp

theorem views_startRecoveryState {d : Nat} {ri : RecoveryInfo} {e' : Executor}
    (hne : d ≠ e.nextId) (he : e.startRecoveryState d ri = some e') :
    ∃ snap ds base, e.heap ri.snapshot.state = some snap ∧ e.heap d = some ds ∧
      recoveryStateBase snap ds ri = some base ∧
      e'.views = Function.update e.views e.nextId (some ⟨ds.depth,
        snap.branchHist ++ ds.branchHist.drop snap.branchHist.length, snap.snapshots,
        snap.pendingRecoveryInfos, base.type, some d⟩) := by
  simp only [Executor.startRecoveryState, Option.bind_eq_bind', Option.bind_eq_some] at he
  obtain ⟨snap, hsnap, ds, hds, base, hbase, he⟩ := he
  refine ⟨snap, ds, base, hsnap, hds, hbase, ?_⟩
  obtain ⟨S, D, hS, hD, he'⟩ := views_replicateBranchHist he
  have hf : ∀ (rid : Nat) (s : ExecutionState),
      ({ s with recoveryState := some rid } : ExecutionState).histView = s.histView :=
    fun _ _ => rfl
  rw [views_with_addedStates, views_splitNode, views_modifyState _ _ (hf _), views_newState,
    Function.update_noteq hne, views_of_heap e hds] at hS
  rw [views_with_addedStates, views_splitNode, views_modifyState _ _ (hf _), views_newState,
    newState_snd, Function.update_same] at hD
  conv at he' => rhs; rw [views_with_addedStates, views_splitNode, views_modifyState _ _ (hf _),
    views_newState, newState_snd, Function.update_idem]
  cases hS; cases hD
  obtain ⟨-, hb, hsn, hp⟩ := recoveryStateBase_eq hbase
  rw [he', ExecutionState.histView_foldl_addConstraint]
  simp only [ExecutionState.histView, hb, hsn, hp]

/-- A recovery state starts for `d` from one of `d`'s snapshots: its history and its depth
are `d`'s. -/
theorem histOK_startRecoveryState (hi : e.Inert) (h : HistOK e.views) {d : Nat}
    {ri : RecoveryInfo} {e' : Executor} (hne : d ≠ e.nextId)
    (hsn : ∀ D, e.views d = some D → ri.snapshot ∈ D.snapshots)
    (he : e.startRecoveryState d ri = some e') :
    HistOK e'.views ∧ e'.nextId = e.nextId + 1 ∧ ∃ D X, e.views d = some D ∧
      e'.views = Function.update e.views e.nextId (some X) ∧ X.branchHist = D.branchHist ∧
      X.depth = D.depth := by
  obtain ⟨snap, ds, base, hsnap, hds, -, he'⟩ := views_startRecoveryState hne he
  have hD := views_of_heap e hds
  have hS := views_of_heap e hsnap
  obtain ⟨S, hS', hpre⟩ := h.snap d _ hD ri.snapshot (hsn _ hD)
  rw [hS] at hS'
  cases hS'
  have hp : snap.branchHist <+: ds.branchHist := hpre
  have hx := hi.unpinned_nextId
  rw [append_drop_length_eq hp] at he'
  refine ⟨?_, nextId_startRecoveryState he, _, _, hD, he', rfl, rfl⟩
  rw [he']
  refine h.update _ _ (h.depth d ds.histView hD) (fun _ d' D hd' _ hD' => ?_)
    (fun r R _ hr hrec hdep => absurd hdep (hx.1 r R hr hrec)) (fun sn hsn' _ => ?_)
    (fun j u _ hu sn hsn' hs => absurd hs (hx.2 j u hu sn hsn')) (h.pend _ snap.histView hS)
  · cases hd'
    rw [hD] at hD'
    cases hD'
    exact List.prefix_refl _
  · obtain ⟨S', hS', hpre'⟩ := h.snap _ _ hS sn hsn'
    exact ⟨S', hS', hpre'.trans hp⟩

theorem views_suspendState (id : Nat) : (e.suspendState id).views = e.views :=
  views_modifyState e id fun _ => rfl

/-- Storing a state whose view is the old one keeps the views. -/
theorem views_setState_of {id : Nat} {s s' : ExecutionState} (hs : e.heap id = some s)
    (hv : s'.histView = s.histView) : (e.setState id s').views = e.views := by
  rw [views_setState, hv, ← views_of_heap e hs, Function.update_eq_self]

/-- A skipped call takes a snapshot: a copy of the state, which the state then owns. -/
theorem histOK_executeSkippedCall (hi : e.Inert) (h : HistOK e.views) {id f : Nat}
    {hasSideEffects : Bool} {e' : Executor} (hid : e.Named id)
    (he : e.executeSkippedCall id f hasSideEffects = some e') : HistOK e'.views := by
  simp only [Executor.executeSkippedCall, Option.bind_eq_bind', Option.bind_eq_some] at he
  obtain ⟨s, hs, he⟩ := he
  split at he
  · cases he
    have hne : id ≠ e.nextId := Nat.ne_of_lt (hi.named_lt id hid)
    have h₁ := h.copy (views_of_heap e hs) hi.unpinned_nextId
    rw [views_setState, views_newState]
    refine h₁.addSnapshot (u := s.histView) ?_ ?_ (List.prefix_refl _)
    · rw [Function.update_noteq hne]; exact views_of_heap e hs
    · exact Function.update_same _ _ _
  · cases he; exact h

/-- A load that needs recovery queues infos of the state's own snapshots, and the first one
starts a recovery state, with the history and the depth of the loading state; any other load
leaves the view as it is. -/
theorem histOK_executeLoad (hi : e.Inert) (h : HistOK e.views) {id : Nat} (hid : e.Named id)
    {mayBlock hasUses : Bool} {address size : Nat} {mods : List (Nat × Nat)} {e' : Executor}
    (he : e.executeLoad id mayBlock hasUses address size mods = some e') :
    HistOK e'.views ∧ (e'.nextId = e.nextId ∨ e'.nextId = e.nextId + 1 ∧
      ∃ C X, e.views id = some C ∧ e'.views e.nextId = some X ∧ X.branchHist = C.branchHist ∧
        X.depth = C.depth) := by
  rw [Executor.executeLoad, Option.bind_eq_bind'] at he
  obtain ⟨s, hs, he⟩ := Option.bind_eq_some.mp he
  generalize hp : (if s.isNormalState && s.isInDependentMode && s.blockingLoadStatus then
      s.isMayBlockingLoad mayBlock hasUses address size else (s, false)) = p at he
  obtain ⟨s₁, req⟩ := p
  have hs₁ : s₁.histView = s.histView := by
    split at hp
    · rw [← ExecutionState.histView_isMayBlockingLoad s mayBlock hasUses address size, hp]
    · cases hp; rfl
  have hu := views_of_heap e hs
  dsimp only at he
  generalize hg : (if req = true then e.getAllRecoveryInfo s₁ address size mods else (e, s₁)) = g
    at he
  obtain ⟨e₂, s₂⟩ := g
  have hs₂ : s₂ = (if req = true then e.getAllRecoveryInfo s₁ address size mods else (e, s₁)).2 := by
    rw [hg]
  -- the lookups keep every view, every name and `nextId`
  have he₂ : e₂.views = e.views ∧ e₂.nextId = e.nextId ∧ Tracks e e₂ := by
    rw [show e₂ = (if req = true then e.getAllRecoveryInfo s₁ address size mods else (e, s₁)).1
      by rw [hg]]
    split
    · exact ⟨views_getAllRecoveryInfo .., congrArg Skel.nextId (skel_getAllRecoveryInfo ..),
        (Tracks.refl e).getAllRecoveryInfo ..⟩
    · exact ⟨rfl, rfl, Tracks.refl e⟩
  -- the state with its queue: the view of `s` with more infos of its own snapshots
  have hv₂ : s₂.histView = { s.histView with pendingRecoveryInfos := s₂.pendingRecoveryInfos } := by
    rw [hs₂]
    split
    · rw [← hs₁, ← ExecutionState.histView_getAllRecoveryInfo s₁ address size mods]; rfl
    · rw [hs₁, ExecutionState.pendingRecoveryInfos_eq_of_histView hs₁]
      rfl
  have hl₂ : ∀ ri ∈ s₂.pendingRecoveryInfos, ri.snapshot ∈ s.snapshots := by
    rw [hs₂]
    split
    · intro ri hri
      rcases List.mem_append.mp hri with hri | hri
      · rw [← ExecutionState.snapshots_eq_of_histView hs₁]
        exact ExecutionState.snapshot_mem_getAllRecoveryInfo s₁ _ _ _ ri hri
      · rw [ExecutionState.pendingRecoveryInfos_eq_of_histView
          ((ExecutionState.histView_getAllRecoveryInfo s₁ address size mods).trans hs₁)] at hri
        exact h.pend id _ hu ri hri
    · rw [ExecutionState.pendingRecoveryInfos_eq_of_histView hs₁]
      exact h.pend id _ hu
  split at he
  · rename_i _ ri rest hpend
    obtain ⟨e₁, he₁, he⟩ := Option.bind_eq_some.mp he
    have hv : ({ s₂ with pendingRecoveryInfos := rest } : ExecutionState).histView =
        { s.histView with pendingRecoveryInfos := rest } := by
      show { s₂.histView with pendingRecoveryInfos := rest } = _
      rw [hv₂]
    have hi₁ : (e₂.setState id { s₂ with pendingRecoveryInfos := rest }).Inert :=
      hi.tracks ((Tracks.refl e).setState_after he₂.2.2 hs (congrArg HistView.dependentState hv)
        (congrArg HistView.snapshots hv))
    have h₁ : HistOK (e₂.setState id { s₂ with pendingRecoveryInfos := rest }).views := by
      rw [views_setState, he₂.1, hv]
      exact h.setPending hu fun ri' hri' => hl₂ ri' (hpend ▸ List.mem_cons_of_mem _ hri')
    have hsn : ∀ D, (e₂.setState id { s₂ with pendingRecoveryInfos := rest }).views id = some D →
        ri.snapshot ∈ D.snapshots := by
      intro D hD
      rw [views_setState, Function.update_same, hv] at hD
      cases hD
      exact hl₂ ri (hpend ▸ List.mem_cons_self _ _)
    have hne : id ≠ (e₂.setState id { s₂ with pendingRecoveryInfos := rest }).nextId :=
      he₂.2.1 ▸ Nat.ne_of_lt (hi.named_lt id hid)
    obtain ⟨h₂, hn₂, D, X, hD, hv₁, hX, hXd⟩ := histOK_startRecoveryState hi₁ h₁ hne hsn he₁
    rw [views_setState, Function.update_same, hv] at hD
    cases hD
    have hn₂' : e₁.nextId = e.nextId + 1 := hn₂.trans (congrArg (· + 1) he₂.2.1)
    have hnew : e₁.views e.nextId = some X := by
      rw [hv₁, ← he₂.2.1]; exact Function.update_same _ _ _
    split at he <;> cases he
    · exact ⟨h₂, .inr ⟨hn₂', _, X, hu, hnew, hX, hXd⟩⟩
    · rw [views_suspendState]
      exact ⟨h₂, .inr ⟨by simp [suspendState, hn₂'], _, X, hu, hnew, hX, hXd⟩⟩
  · cases he
    refine ⟨?_, .inl he₂.2.1⟩
    rw [views_setState, he₂.1]
    have hr : (if s₂.isNormalState then s₂.onNormalStateRead address else s₂).histView =
        s₂.histView := by
      split
      · exact ExecutionState.histView_onNormalStateRead s₂ address
      · rfl
    rw [hr, hv₂]
    exact h.setPending hu hl₂

/-- A store changes memory only: every view stays. -/
theorem views_executeStore {id address : Nat} {v : List Nat} {mayOverride : Bool}
    {e' : Executor} (he : e.executeStore id address v mayOverride = some e') :
    e'.views = e.views := by
  simp only [Executor.executeStore, Option.bind_eq_bind', Option.bind_eq_some] at he
  obtain ⟨s, hs, he⟩ := he
  cases he
  have hw : (e.setState id (s.write address v)).views = e.views := views_setState_of hs rfl
  have hn := fun s : ExecutionState =>
    ExecutionState.histView_onNormalStateWrite s true mayOverride address v.length
  split_ifs <;> simp only [views_modifyState _ _ hn, views_onRecoveryStateWrite, hw]

/-- A recovery state may hand its history to its dependent state. -/
theorem canReplicate_of_sole (hi : e.Inert) (h : HistOK e.views) (hs : e.SoleDeps) {rec d : Nat}
    {R : ExecutionState} (hr : e.heap rec = some R) (hrec : R.isRecoveryState = true)
    (hd : R.dependentState = some d) : CanReplicate e.views rec d := by
  refine ⟨fun S D hS hD => ⟨?_, fun r' R' _ hr' hrec' hd' => ?_⟩, hi.not_snap (Named.dep e hr hd)⟩
  · rw [views_of_heap e hr] at hS
    cases hS
    exact h.dep rec _ d D (views_of_heap e hr) hrec hd hD
  · obtain ⟨s', hs', rfl⟩ := views_eq_some e hr'
    cases (hs rec R d hr hrec hd).2 r' s' hs' hrec' hd'
    rw [hr] at hs'
    rw [views_of_heap e hr] at hS
    cases hs'
    cases hS
    exact List.prefix_refl _

/-- The resumed state takes the history and the depth of the recovery state. -/
theorem histOK_resumeState (h : HistOK e.views) {id : Nat} {implicitlyCreated : Bool} {rec : Nat}
    {e' : Executor} (hc : CanReplicate e.views rec id)
    (he : e.resumeState id implicitlyCreated rec = some e') :
    HistOK e'.views ∧ e'.nextId = e.nextId ∧ ∃ S D, e.views rec = some S ∧
      e.views id = some D ∧ e'.views = Function.update e.views id
        (some { D with branchHist := S.branchHist, depth := S.depth }) := by
  unfold resumeState at he
  have hv : (e.modifyState id fun s =>
      { s with suspendStatus := false, recoveryState := none, blockingLoadStatus := false }).views =
      e.views := views_modifyState e id fun _ => rfl
  split at he <;>
  · obtain ⟨h', hn, S, D, hS, hD, he'⟩ :=
      histOK_replicateBranchHist (by exact hv ▸ h) (by exact hv ▸ hc) he
    exact ⟨h', hn.trans (nextId_modifyState e id _), S, D, hv ▸ hS, hv ▸ hD, hv ▸ he'⟩

theorem histOK_notifyDependentState (hi : e.Inert) (h : HistOK e.views) (hs : e.SoleDeps)
    {rec : Nat} (hrec : ∀ R, e.heap rec = some R → R.isRecoveryState = true) {e' : Executor}
    (he : e.notifyDependentState rec = some e') :
    HistOK e'.views ∧ e'.nextId = e.nextId ∧ ∃ R d, e.heap rec = some R ∧
      R.dependentState = some d ∧ ∃ D, e'.views d = some D ∧ D.branchHist = R.branchHist ∧
        D.depth = R.depth := by
  simp only [Executor.notifyDependentState, Option.bind_eq_bind', Option.bind_eq_some] at he
  obtain ⟨r, hr, d, hd, he⟩ := he
  obtain ⟨h', hn, S, D, hS, -, he'⟩ :=
    histOK_resumeState h (canReplicate_of_sole hi h hs hr (hrec r hr) hd) he
  rw [views_of_heap e hr] at hS
  cases hS
  exact ⟨h', hn, r, d, hr, hd, _, by rw [he', Function.update_same], rfl, rfl⟩

/-- The exit of a recovery state: its dependent state takes its history, and either the next
recovery starts from one of the dependent state's snapshots or the dependent state resumes. -/
theorem histOK_onRecoveryStateExit (hi : e.Inert) (h : HistOK e.views) (hs : e.SoleDeps)
    {rec : Nat} (hid : e.Named rec) (hrec : ∀ R, e.heap rec = some R → R.isRecoveryState = true)
    {e' : Executor} (he : e.onRecoveryStateExit rec = some e') :
    HistOK e'.views ∧ ∃ R d, e.heap rec = some R ∧ R.dependentState = some d ∧
      (∃ D, e'.views d = some D ∧ D.branchHist = R.branchHist ∧ D.depth = R.depth) ∧
      (e'.nextId = e.nextId ∨ e'.nextId = e.nextId + 1 ∧
        ∃ X, e'.views e.nextId = some X ∧ X.branchHist = R.branchHist ∧ X.depth = R.depth) := by
  simp only [Executor.onRecoveryStateExit, Option.bind_eq_bind'] at he
  obtain ⟨r, hr, he⟩ := Option.bind_eq_some.mp he
  obtain ⟨d, hd, he⟩ := Option.bind_eq_some.mp he
  obtain ⟨ds, hds, he⟩ := Option.bind_eq_some.mp he
  have hdn : e.Named d := Named.dep e hr hd
  have hdr : d ≠ rec := (hs rec r d hr (hrec r hr) hd).1.symm
  have hnr : e.nextId ≠ rec := (Nat.ne_of_lt (hi.named_lt rec hid)).symm
  split at he
  · rename_i ri rest hpend
    obtain ⟨e₃, he₃, he⟩ := Option.bind_eq_some.mp he
    obtain ⟨e₁, he₁, he⟩ := Option.bind_eq_some.mp he
    cases he
    have hD := views_of_heap e hds
    have hpend' : ds.histView.pendingRecoveryInfos = ri :: rest := hpend
    have hri : ri.snapshot ∈ ds.snapshots :=
      h.pend d _ hD ri (by rw [hpend']; exact List.mem_cons_self _ _)
    -- the dependent state's queue loses its first info
    have h₂ : HistOK (e.setState d { ds with pendingRecoveryInfos := rest }).views := by
      rw [views_setState]
      exact h.setPending hD fun ri' hri' =>
        h.pend d _ hD ri' (by rw [hpend']; exact List.mem_cons_of_mem _ hri')
    have hc₂ : CanReplicate (e.setState d { ds with pendingRecoveryInfos := rest }).views rec d := by
      rw [views_setState]
      exact (canReplicate_of_sole hi h hs hr (hrec r hr) hd).setPending hdr.symm hD rest
    have ht₂ : Tracks e (e.setState d { ds with pendingRecoveryInfos := rest }) :=
      (Tracks.refl e).setState_of hds rfl rfl
    have ht₃ : Tracks e e₃ := ht₂.replicateBranchHist he₃
    -- it takes the recovery state's history, and the next recovery state starts from it
    obtain ⟨h₃, hn₃, S, D₂, hS, hD₂, hv₃⟩ := histOK_replicateBranchHist h₂ hc₂ he₃
    rw [views_setState, Function.update_noteq hdr.symm, views_of_heap e hr] at hS
    rw [views_setState, Function.update_same] at hD₂
    cases hS; cases hD₂
    have hne₃ : d ≠ e₃.nextId := Nat.ne_of_lt (Nat.lt_of_lt_of_le (hi.named_lt d hdn) ht₃.1)
    obtain ⟨h₁, hn₁, D₃, X, hD₃, hv₁, hX, hXd⟩ := histOK_startRecoveryState (hi.tracks ht₃) h₃ hne₃
      (fun D hD₃ => by rw [hv₃, Function.update_same] at hD₃; cases hD₃; exact hri) he₁
    rw [hv₃, Function.update_same] at hD₃
    cases hD₃
    have hdv : (e₁.terminateState rec).views d = some { ds.histView with
        pendingRecoveryInfos := rest, branchHist := r.branchHist, depth := r.depth } := by
      rw [views_terminateState_ne hdr, hv₁, Function.update_noteq hne₃, hv₃, Function.update_same]
      rfl
    refine ⟨histOK_terminateState (hi.tracks (ht₃.startRecoveryState (.inl hdn) he₁)) h₁ rec,
      r, d, hr, hd, ⟨_, hdv, rfl, rfl⟩, .inr ⟨?_, X, ?_, hX, hXd⟩⟩
    · rw [nextId_terminateState, hn₁, hn₃]; rfl
    · rw [views_terminateState_ne hnr, hv₁, hn₃]; exact Function.update_same _ _ _
  · obtain ⟨e₁, he₁, he⟩ := Option.bind_eq_some.mp he
    cases he
    obtain ⟨h₁, hn₁, R, d', hR, hd', D, hD, hDh, hDd⟩ :=
      histOK_notifyDependentState hi h hs hrec he₁
    rw [hr] at hR; cases hR
    rw [hd] at hd'; cases hd'
    refine ⟨histOK_terminateState (hi.tracks ((Tracks.refl e).notifyDependentState he₁)) h₁ rec,
      r, d, hr, hd, ⟨D, ?_, hDh, hDd⟩, .inl (by rw [nextId_terminateState, hn₁])⟩
    rw [views_terminateState_ne hdr]; exact hD

end Executor

end PChop
