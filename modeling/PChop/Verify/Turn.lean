import PChop.Verify.Invariant

/-!
# One instruction keeps the invariant within a turn

The operations an instruction and `checkMemoryUsage` perform on the skeleton, and that each
keeps `Skel.Mid`:

* ending a state (`terminateState`), a recovery state with its chain
  (`terminateStateRecursively`), and the kill loop of `checkMemoryUsage`: the chain is queued
  from the top, so a dependent state is queued only after its recovery state;
* a skipped call: a fresh snapshot state, not a recovery state;
* a blocking load: a fresh recovery state linked to the loading state, which is suspended;
* the exit of a recovery state: its dependent state gets the next pending recovery state, or
  is resumed, and the exited state is queued for removal, unlinked (`Skel.Exited`).

The last section takes the selected state of a configuration that satisfies the invariant
between moves through a skipped call, a load, the exit of a recovery state and the end of a
state (`mid_executeSkippedCall`, `mid_executeLoad`, `mid_onRecoveryStateExit`,
`mid_terminateSelected`).
-/

namespace PChop

namespace Executor

variable (e : Executor)

/-! ## The skeleton after each operation -/

theorem skel_terminateState {id : Nat} (h : id ∉ e.addedStates) :
    (e.terminateState id).skel =
      { e.skel with ls := { e.skel.ls with removed := e.skel.ls.removed ++ [id] } } := by
  simp [terminateState, h]; rfl

/-- An added state is deleted at once. -/
theorem skel_terminateState_added {id : Nat} (h : id ∈ e.addedStates) :
    (e.terminateState id).skel = ⟨Function.update e.linkView id none, e.nextId,
      { e.skel.ls with added := e.skel.ls.added.erase id }⟩ := by
  simp only [terminateState, h, if_true, skel, linkView_deleteState]
  rfl

theorem nextDependent_eq (id : Nat) : e.nextDependent id =
    (e.linkView id).bind fun L => if L.isRecovery then L.dependentState else none := by
  unfold nextDependent linkView; cases e.heap id <;> rfl

theorem skel_suspendState (id : Nat) : (e.suspendState id).skel =
    ⟨Function.update e.linkView id ((e.linkView id).map fun L => { L with suspendStatus := true }),
      e.nextId, { e.skel.ls with suspended := e.skel.ls.suspended ++ [id] }⟩ := by
  have hlv := linkView_modifyState_of e id (f := fun s => { s with suspendStatus := true })
    (fun L => { L with suspendStatus := true }) (fun _ => rfl)
  unfold suspendState skel
  rw [← hlv, modifyState_eq]
  rfl

theorem skel_resumeState {id rec : Nat} {implicitlyCreated : Bool} {e' : Executor}
    (h : e.resumeState id implicitlyCreated rec = some e') : e'.skel =
    ⟨Function.update e.linkView id ((e.linkView id).map fun L =>
        { L with suspendStatus := false, recoveryState := none }), e.nextId,
      if implicitlyCreated then { e.skel.ls with added := e.skel.ls.added ++ [id] }
      else { e.skel.ls with resumed := e.skel.ls.resumed ++ [id] }⟩ := by
  have hlv := linkView_modifyState_of e id
    (f := fun s =>
      { s with suspendStatus := false, recoveryState := none, blockingLoadStatus := false })
    (fun L => { L with suspendStatus := false, recoveryState := none }) (fun _ => rfl)
  unfold resumeState at h
  rw [skel_replicateBranchHist _ h, ← hlv]
  split <;> (rw [modifyState_eq]; rfl)

theorem recoveryStateBase_links {snap ds base : ExecutionState} {ri : RecoveryInfo}
    (h : recoveryStateBase snap ds ri = some base) :
    base.isRecoveryState = true ∧ base.links.suspendedNormal = false := by
  unfold recoveryStateBase at h
  split at h
  · cases h; simp
  · split at h
    · cases h
      simp [ExecutionState.isRecoveryState, NORMAL_STATE, RECOVERY_STATE]
    · cases h

/-- `startRecoveryState d ri`: a fresh recovery state `R`, not a suspended normal state, at
`nextId`, whose dependent is `d`, with the level and originating state `Linked` asks for; `d`
points back to it; it joins `addedStates`. -/
theorem startRecoveryState_spec {d : Nat} {ri : RecoveryInfo} {e' : Executor}
    (hfresh : ∀ j, e.nextId ≤ j → e.linkView j = none)
    (h : e.startRecoveryState d ri = some e') : ∃ D R, e.linkView d = some D ∧
      R.isRecovery = true ∧ R.suspendedNormal = false ∧ R.dependentState = some d ∧
      R.level = D.levelAbove ∧ R.originatingState = D.origAbove d ∧
      e'.skel = ⟨Function.update (Function.update e.linkView e.nextId (some R)) d
          (some { D with recoveryState := some e.nextId }), e.nextId + 1,
        { e.skel.ls with added := e.skel.ls.added ++ [e.nextId] }⟩ := by
  simp only [startRecoveryState, Option.bind_eq_bind'] at h
  obtain ⟨snap, -, h⟩ := Option.bind_eq_some.mp h
  obtain ⟨ds, hds, h⟩ := Option.bind_eq_some.mp h
  obtain ⟨base, hbase, h⟩ := Option.bind_eq_some.mp h
  obtain ⟨hrec, hsn⟩ := recoveryStateBase_links hbase
  have hD : e.linkView d = some ds.links := by simp [linkView_apply, hds]
  have hdn : d ≠ e.nextId := fun hd => by simp [hd, hfresh e.nextId le_rfl] at hD
  refine ⟨ds.links, ⟨base.type, base.suspendStatus, base.recoveryState, some d,
    ds.links.origAbove d, ds.links.levelAbove⟩, hD, hrec, hsn, rfl, rfl, rfl, ?_⟩
  rw [skel_replicateBranchHist _ h]
  simp only [skel, Skel.mk.injEq, newState_snd]
  refine ⟨?_, by simp, by simp [idLists, splitNode, modifyState_eq, newState]⟩
  change (((e.newState _).1.modifyState _ _).splitNode _ _ _).linkView = _
  rw [linkView_splitNode, linkView_modifyState_of _ _
    (fun L => { L with recoveryState := some e.nextId }) (fun _ => rfl), linkView_newState,
    ExecutionState.links_foldl_addConstraint, Function.update_noteq hdn, hD]
  rfl

end Executor

namespace Skel

variable {k : Skel}

/-! ## Ending states -/

/-- Queuing a state for removal keeps the invariant within a turn, when the state is not an
added state and every recovery state it depends from is already queued. -/
theorem Mid.terminate (hm : k.Mid) {id : Nat} (hadd : id ∉ k.ls.added) (hlive : k.Live id)
    (hup : ∀ r R, k.lv r = some R → R.isRecovery = true → R.dependentState = some id →
      r ∈ k.ls.removed) :
    Mid { k with ls := { k.ls with removed := k.ls.removed ++ [id] } } where
  toLists := { hm.toLists with
    addedOK := fun j hj => ⟨(hm.addedOK j hj).1, (hm.addedOK j hj).2.1, by
      simp only [List.mem_append, List.mem_singleton, not_or]
      exact ⟨(hm.addedOK j hj).2.2, fun h => hadd (h ▸ hj)⟩⟩
    removedLive := fun j hj => by
      rcases List.mem_append.mp hj with hj | hj
      · exact hm.removedLive j hj
      · rw [List.mem_singleton.mp hj]; exact hlive }
  links := hm.links.mono fun _ ⟨h₁, h₂, h₃⟩ => ⟨List.mem_append_left _ h₁, h₂, h₃⟩
  removedUp := fun r R hr hrec d hd hdm => by
    rcases List.mem_append.mp hdm with hdm | hdm
    · exact List.mem_append_left _ (hm.removedUp r R hr hrec d hd hdm)
    · rw [List.mem_singleton.mp hdm] at hd
      exact List.mem_append_left _ (hup r R hr hrec hd)

/-- A state that is not a suspended normal state depends from no recovery state that is not
already queued for removal. -/
theorem Mid.up_of_active (hm : k.Mid) {id : Nat} (ha : k.Active id) :
    ∀ r R, k.lv r = some R → R.isRecovery = true → R.dependentState = some id →
      r ∈ k.ls.removed := fun r R hr hrec hd =>
  (hm.links r R hr hrec).elim (·.1) fun hl => absurd hd (ha.not_dep hl)

/-! ## Adding states and changing links -/

theorem update_eq_some {f : LinkHeap} {a r : Nat} {v : Option Links} {R : Links}
    (h : Function.update f a v r = some R) : (r = a ∧ v = some R) ∨ (r ≠ a ∧ f r = some R) := by
  by_cases hr : r = a
  · subst hr; simp at h; exact Or.inl ⟨rfl, h ▸ rfl⟩
  · rw [Function.update_noteq hr] at h; exact Or.inr ⟨hr, h⟩

/-- States at fresh pointers, every recovery state among them linked to another of them, with
the old states and the lists unchanged. -/
theorem Mid.extend (hm : k.Mid) {k' : Skel} (hls : k'.ls = k.ls)
    (hfresh : ∀ j, k'.nextId ≤ j → k'.lv j = none)
    (hagree : ∀ j, j < k.nextId → k'.lv j = k.lv j)
    (hnew : ∀ r R, k.nextId ≤ r → k'.lv r = some R → R.isRecovery = true →
      Linked k'.lv r R ∧ ∀ d, R.dependentState = some d → k.nextId ≤ d) : k'.Mid := by
  have hlt : ∀ j, k.Live j → j < k.nextId := fun j hj => lt_of_live hm.fresh hj
  have hold : ∀ r R, r < k.nextId → k'.lv r = some R → k.lv r = some R :=
    fun r R hr h => (hagree r hr).symm.trans h
  have hact : ∀ j, k.Active j → k'.Active j := fun j ⟨L, hL, hsn⟩ =>
    ⟨L, (hagree j (hlt j ⟨L, hL⟩)).trans hL, hsn⟩
  have hns : ∀ d, k.nextId ≤ d → d ∉ k.ls.states := fun d hd hds =>
    absurd (hlt d (hm.statesLive d hds)) (by omega)
  refine ⟨hm.toLists.transfer hls hfresh ?mono
    (fun j ⟨L, hL⟩ => ⟨L, (hagree j (hlt j ⟨L, hL⟩)).trans hL⟩) hact, ?links, ?up⟩
  case mono =>
    intro r R hr hrec hsn hrs d hd
    rw [hls] at hrs ⊢
    by_cases hrn : r < k.nextId
    · exact hm.mono r R (hold r R hrn hr) hrec hsn hrs d hd
    · exact hns d ((hnew r R (by omega) hr hrec).2 d hd)
  case links =>
    intro r R hr hrec
    by_cases hrn : r < k.nextId
    · rcases hm.links r R (hold r R hrn hr) hrec with ⟨h₁, h₂, h₃⟩ | hl
      · exact Or.inl ⟨hls ▸ h₁, hls ▸ h₂, hact r h₃⟩
      · refine Or.inr (hl.congr fun d hd => ?_)
        obtain ⟨D, hD, -⟩ := hl.dep_suspendedNormal hd
        exact hagree d (hlt d ⟨D, hD⟩)
    · exact Or.inr (hnew r R (by omega) hr hrec).1
  case up =>
    intro r R hr hrec d hd hdm
    rw [hls] at hdm ⊢
    by_cases hrn : r < k.nextId
    · exact hm.removedUp r R (hold r R hrn hr) hrec d hd hdm
    · have := (hnew r R (by omega) hr hrec).2 d hd
      exact absurd (hlt d (hm.removedLive d hdm)) (by omega)

/-- A fresh state that is not a recovery state, in no list: a snapshot. -/
theorem Mid.alloc (hm : k.Mid) {L : Links} (hL : L.isRecovery = false) :
    Mid ⟨Function.update k.lv k.nextId (some L), k.nextId + 1, k.ls⟩ :=
  hm.extend rfl
    (fun j hj => by
      dsimp only at hj ⊢; rw [Function.update_noteq (by omega)]; exact hm.fresh j (by omega))
    (fun j hj => Function.update_noteq (by omega) _ _)
    (fun r R _ hr hrec => by
      rcases update_eq_some hr with ⟨-, hR⟩ | ⟨-, hr⟩
      · cases hR; simp [hL] at hrec
      · exact absurd hr (by rw [hm.fresh r (by omega)]; simp))

/-- Deleting an added state, which never reached the searcher, keeps the invariant within a
turn: an added state is active, so it is the dependent of no linked state. -/
theorem Mid.delete (hm : k.Mid) {x : Nat} (hx : x ∈ k.ls.added) :
    Mid ⟨Function.update k.lv x none, k.nextId, { k.ls with added := k.ls.added.erase x }⟩ := by
  obtain ⟨hact, hxs, hxr⟩ := hm.addedOK x hx
  have hsa := List.nodup_append.mp hm.searcherAdded
  have hlv : ∀ j, j ≠ x → Function.update k.lv x none j = k.lv j :=
    fun j hj => Function.update_noteq hj _ _
  have hold : ∀ j L, Function.update k.lv x none j = some L → j ≠ x ∧ k.lv j = some L :=
    fun j L h => by
      rcases update_eq_some h with ⟨-, h⟩ | h
      · cases h
      · exact h
  have hlive : ∀ j, j ≠ x → k.Live j → Live ⟨Function.update k.lv x none, k.nextId,
      { k.ls with added := k.ls.added.erase x }⟩ j :=
    fun j hj ⟨L, hL⟩ => ⟨L, (hlv j hj).trans hL⟩
  have hact' : ∀ j, j ≠ x → k.Active j → Active ⟨Function.update k.lv x none, k.nextId,
      { k.ls with added := k.ls.added.erase x }⟩ j :=
    fun j hj ⟨L, hL, hsn⟩ => ⟨L, (hlv j hj).trans hL, hsn⟩
  have hne : ∀ {j : Nat} {l : List Nat}, j ∈ l → x ∉ l → j ≠ x :=
    fun hj hl h => hl (h ▸ hj)
  refine ⟨⟨fun j hj => ?_, fun r R hr hrec hsn hrs d hd => ?_, hm.statesNodup,
    fun j hj => hlive j (hne hj hxs) (hm.statesLive j hj),
    hm.searcherAdded.sublist ((List.erase_sublist _ _).append_left _), fun j hj => ?_,
    fun j hj => ?_, hm.resumedNodup, fun j hj => ?_,
    fun j hj => hlive j (hne hj hxr) (hm.removedLive j hj), hm.rangingNodup, hm.indexedNodup,
    hm.rangingIndexed, fun j hj => ?_⟩, fun r R hr hrec => ?_,
    fun r R hr hrec d hd hdm => hm.removedUp r R (hold r R hr).2 hrec d hd hdm⟩
  · rcases eq_or_ne j x with rfl | hj'
    · exact Function.update_same _ _ _
    · exact (hlv j hj').trans (hm.fresh j hj)
  · exact hm.mono r R (hold r R hr).2 hrec hsn hrs d hd
  · exact ⟨(hm.searcherOK j hj).1, fun hs => hact' j (fun h => hsa.2.2 (h ▸ hj) hx)
      ((hm.searcherOK j hj).2 hs)⟩
  · obtain ⟨hjx, hj⟩ := hsa.2.1.mem_erase_iff.mp hj
    exact ⟨hact' j hjx (hm.addedOK j hj).1, (hm.addedOK j hj).2⟩
  · obtain ⟨ha, hs, hse, hadd⟩ := hm.resumedOK j hj
    exact ⟨hact' j (hne hs hxs) ha, hs, hse, fun h => hadd (List.mem_of_mem_erase h)⟩
  · obtain ⟨ha, hs, hadd⟩ := hm.pending j hj
    exact ⟨hact' j (fun h => hadd (h ▸ hx)) ha, hs, fun h => hadd (List.mem_of_mem_erase h)⟩
  · obtain ⟨hrx, hr⟩ := hold r R hr
    rcases hm.links r R hr hrec with ⟨h₁, h₂, h₃⟩ | hl
    · exact .inl ⟨h₁, h₂, hact' r hrx h₃⟩
    · refine .inr (hl.congr fun d hd => hlv d ?_)
      obtain ⟨D, hD, hsn⟩ := hl.dep_suspendedNormal hd
      exact (hact.ne hD hsn).symm

/-- A state of `states` is suspended: one that is in no buffer but the searcher, not queued
for removal, and nobody's dependent. -/
theorem Mid.suspend (hm : k.Mid) {x : Nat} {X : Links} (hX : k.lv x = some X)
    (hxs : x ∈ k.ls.states) (hxa : x ∉ k.ls.added) (hxres : x ∉ k.ls.resumed)
    (hxp : x ∉ k.ls.ranging ++ k.ls.indexed) (hxr : x ∉ k.ls.removed)
    (hnodep : ∀ r R, k.lv r = some R → R.isRecovery = true → R.dependentState ≠ some x) :
    Mid ⟨Function.update k.lv x (some { X with suspendStatus := true }), k.nextId,
      { k.ls with suspended := k.ls.suspended ++ [x] }⟩ := by
  have hxn : x < k.nextId := lt_of_live hm.fresh ⟨X, hX⟩
  have hact : ∀ j, j ≠ x → k.Active j → Skel.Active ⟨Function.update k.lv x
      (some { X with suspendStatus := true }), k.nextId, { k.ls with suspended :=
        k.ls.suspended ++ [x] }⟩ j := fun j hj ⟨L, hL, hsn⟩ =>
    ⟨L, (Function.update_noteq hj _ _).trans hL, hsn⟩
  have hlive : ∀ j, k.Live j → Skel.Live ⟨Function.update k.lv x
      (some { X with suspendStatus := true }), k.nextId, { k.ls with suspended :=
        k.ls.suspended ++ [x] }⟩ j := fun j ⟨L, hL⟩ => by
    by_cases hj : j = x
    · subst hj; exact ⟨_, Function.update_same _ _ _⟩
    · exact ⟨L, (Function.update_noteq hj _ _).trans hL⟩
  refine ⟨⟨?fresh, ?mono, hm.statesNodup, fun j hj => hlive j (hm.statesLive j hj),
    hm.searcherAdded, ?searcher, fun j hj => ⟨hact j (fun h => hxa (h ▸ hj)) (hm.addedOK j hj).1,
    (hm.addedOK j hj).2⟩, hm.resumedNodup, fun j hj => ⟨hact j (fun h => hxres (h ▸ hj))
    (hm.resumedOK j hj).1, (hm.resumedOK j hj).2⟩, fun j hj => hlive j (hm.removedLive j hj),
    hm.rangingNodup, hm.indexedNodup, hm.rangingIndexed, fun j hj => ⟨hact j
    (fun h => hxp (h ▸ hj)) (hm.pending j hj).1, (hm.pending j hj).2⟩⟩, ?links, ?up⟩
  case fresh =>
    intro j hj
    dsimp only at hj ⊢; rw [Function.update_noteq (by omega)]; exact hm.fresh j hj
  case mono =>
    intro r R hr hrec hsn hrs d hd
    rcases update_eq_some hr with ⟨rfl, -⟩ | ⟨-, hr⟩
    · exact absurd hxs hrs
    · exact hm.mono r R hr hrec hsn hrs d hd
  case searcher =>
    intro j hj
    refine ⟨(hm.searcherOK j hj).1, fun hsus => ?_⟩
    simp only [List.mem_append, List.mem_singleton, not_or] at hsus
    exact hact j hsus.2 ((hm.searcherOK j hj).2 hsus.1)
  case links =>
    intro r R hr hrec
    rcases update_eq_some hr with ⟨rfl, hR⟩ | ⟨hrx, hr⟩
    · cases hR
      rcases hm.links r X hX hrec with hx | hl
      · exact absurd hx.1 hxr
      · refine Or.inr ?_
        have hself := hl.dep_ne_self hX hrec
        obtain ⟨d, D, hdep, hD, rest⟩ := hl
        have hdx : d ≠ r := by rintro rfl; exact hself hdep
        exact ⟨d, D, hdep, (Function.update_noteq hdx _ _).trans hD, rest⟩
    · have hnd := hnodep r R hr hrec
      rcases hm.links r R hr hrec with ⟨h₁, h₂, h₃⟩ | hl
      · exact Or.inl ⟨h₁, h₂, hact r hrx h₃⟩
      · exact Or.inr (hl.congr fun d hd =>
          Function.update_noteq (by rintro rfl; exact hnd hd) _ _)
  case up =>
    intro r R hr hrec d hd hdm
    rcases update_eq_some hr with ⟨rfl, hR⟩ | ⟨-, hr⟩
    · cases hR; exact hm.removedUp r X hX hrec d hd hdm
    · exact hm.removedUp r R hr hrec d hd hdm

/-- A pointer with no state is in no list. -/
theorem Lists.not_mem_of_none (h : k.Lists) {x : Nat} (hx : k.lv x = none) :
    x ∉ k.ls.states ∧ x ∉ k.ls.searcher ∧ x ∉ k.ls.added ∧ x ∉ k.ls.removed ∧
      x ∉ k.ls.ranging ++ k.ls.indexed := by
  have hnl : ¬ k.Live x := fun ⟨L, hL⟩ => by simp [hx] at hL
  exact ⟨fun hs => hnl (h.statesLive x hs), fun hs => hnl (h.statesLive x (h.searcherOK x hs).1),
    fun ha => hnl (h.addedOK x ha).1.live, fun hr => hnl (h.removedLive x hr),
    fun hp => hnl (h.pending x hp).1.live⟩

/-- A suspended normal state is not an added or a resumed state, and not pending. -/
theorem Lists.not_mem_of_suspendedNormal (h : k.Lists) {x : Nat} {X : Links}
    (hX : k.lv x = some X) (hsn : X.suspendedNormal = true) :
    x ∉ k.ls.added ∧ x ∉ k.ls.resumed ∧ x ∉ k.ls.ranging ++ k.ls.indexed := by
  have hna : ¬ k.Active x := fun ha => ha.ne hX hsn rfl
  exact ⟨fun ha => hna (h.addedOK x ha).1, fun hr => hna (h.resumedOK x hr).1,
    fun hp => hna (h.pending x hp).1⟩

/-- A suspended normal recovery state has not exited: it is linked, to a dependent state other
than itself. -/
theorem Mid.linked_of_suspendedNormal (hm : k.Mid) {x : Nat} {X : Links} (hX : k.lv x = some X)
    (hsn : X.suspendedNormal = true) (hrec : X.isRecovery = true) :
    Linked k.lv x X ∧ X.dependentState ≠ some x := by
  have hl := (hm.links x X hX hrec).resolve_left fun ⟨_, _, hx⟩ => hx.ne hX hsn rfl
  exact ⟨hl, hl.dep_ne_self hX hrec⟩

theorem Mid.addAdded (hm : k.Mid) {x : Nat} (hx : k.Active x) (hxs : x ∉ k.ls.states)
    (hxr : x ∉ k.ls.removed) (hxse : x ∉ k.ls.searcher) (hxa : x ∉ k.ls.added)
    (hxp : x ∉ k.ls.ranging ++ k.ls.indexed) :
    Mid { k with ls := { k.ls with added := k.ls.added ++ [x] } } :=
  ⟨hm.toLists.addAdded hx hxs hxr hxse hxa (fun h => hxs (hm.resumedOK x h).2.1) hxp, hm.links,
    hm.removedUp⟩

theorem Mid.addResumed (hm : k.Mid) {x : Nat} (hx : k.Active x) (hxs : x ∈ k.ls.states)
    (hxse : x ∉ k.ls.searcher) (hxa : x ∉ k.ls.added) (hxres : x ∉ k.ls.resumed) :
    Mid { k with ls := { k.ls with resumed := k.ls.resumed ++ [x] } } :=
  ⟨hm.toLists.addResumed hx hxs hxse hxa hxres, hm.links, hm.removedUp⟩

/-- `startRecoveryState` on the skeleton: a fresh recovery state `R`, linked to the suspended
normal state `d`, whose only recovery states have exited; `R` joins `added`. -/
theorem Mid.startRecovery (hm : k.Mid) {d : Nat} {D R : Links} (hD : k.lv d = some D)
    (hsn : D.suspendedNormal = true) (hdr : d ∉ k.ls.removed)
    (hfree : ∀ r R', k.lv r = some R' → R'.isRecovery = true → R'.dependentState = some d →
      k.Exited r)
    (hR : R.isRecovery = true) (hRsn : R.suspendedNormal = false)
    (hRd : R.dependentState = some d) (hRl : R.level = D.levelAbove)
    (hRo : R.originatingState = D.origAbove d) :
    Mid ⟨Function.update (Function.update k.lv k.nextId (some R)) d
        (some { D with recoveryState := some k.nextId }), k.nextId + 1,
      { k.ls with added := k.ls.added ++ [k.nextId] }⟩ := by
  have hdn : d < k.nextId := lt_of_live hm.fresh ⟨D, hD⟩
  have hlt : ∀ j, k.Live j → j < k.nextId := fun j hj => lt_of_live hm.fresh hj
  have hcase : ∀ {r X}, Function.update (Function.update k.lv k.nextId (some R)) d
      (some { D with recoveryState := some k.nextId }) r = some X →
      (r = d ∧ X = { D with recoveryState := some k.nextId }) ∨ (r = k.nextId ∧ X = R) ∨
        (r ≠ d ∧ r ≠ k.nextId ∧ k.lv r = some X) := fun hr => by
    rcases update_eq_some hr with ⟨rfl, hX⟩ | ⟨hrd, hr⟩
    · exact Or.inl ⟨rfl, (Option.some_injective _ hX).symm⟩
    · rcases update_eq_some hr with ⟨rfl, hX⟩ | ⟨hrn, hr⟩
      · exact Or.inr (Or.inl ⟨rfl, (Option.some_injective _ hX).symm⟩)
      · exact Or.inr (Or.inr ⟨hrd, hrn, hr⟩)
  have hagree : ∀ j, j ≠ d → j ≠ k.nextId → Function.update (Function.update k.lv k.nextId
      (some R)) d (some { D with recoveryState := some k.nextId }) j = k.lv j := fun j h₁ h₂ => by
    rw [Function.update_noteq h₁, Function.update_noteq h₂]
  have hact : ∀ j, k.Active j → j ≠ d := fun j hj => hj.ne hD hsn
  have hRn : Function.update (Function.update k.lv k.nextId (some R)) d
      (some { D with recoveryState := some k.nextId }) k.nextId = some R := by
    rw [Function.update_noteq (by omega), Function.update_same]
  have hmid : Mid ⟨Function.update (Function.update k.lv k.nextId (some R)) d
      (some { D with recoveryState := some k.nextId }), k.nextId + 1, k.ls⟩ := by
    refine ⟨hm.toLists.transfer rfl ?fresh ?mono ?live ?act, ?links, ?up⟩
    case fresh =>
      intro j hj
      dsimp only at hj ⊢; rw [hagree j (by omega) (by omega)]; exact hm.fresh j (by omega)
    case mono =>
      intro r X hr hrec hXsn hrs d₂ hd₂
      rcases hcase hr with ⟨rfl, rfl⟩ | ⟨rfl, rfl⟩ | ⟨-, -, hr⟩
      · exact hm.mono r D hD hrec hXsn hrs d₂ hd₂
      · simp [hRsn] at hXsn
      · exact hm.mono r X hr hrec hXsn hrs d₂ hd₂
    case live =>
      intro j ⟨L, hL⟩
      by_cases hj : j = d
      · subst hj; exact ⟨_, Function.update_same _ _ _⟩
      · exact ⟨L, (hagree j hj (hlt j ⟨L, hL⟩).ne).trans hL⟩
    case act =>
      intro j hj
      obtain ⟨L, hL, hL'⟩ := hj
      exact ⟨L, (hagree j (hact j ⟨L, hL, hL'⟩) (hlt j ⟨L, hL⟩).ne).trans hL, hL'⟩
    case links =>
      intro r X hr hrec
      rcases hcase hr with ⟨rfl, rfl⟩ | ⟨rfl, rfl⟩ | ⟨hrd, hrn, hr⟩
      · obtain ⟨hl, hself⟩ := hm.linked_of_suspendedNormal hD hsn hrec
        refine Or.inr (hl.congr fun d₂ hd₂ => hagree d₂ (fun h => hself (h ▸ hd₂)) ?_)
        obtain ⟨D₂, hD₂, -⟩ := hl.dep_suspendedNormal hd₂
        exact (hlt d₂ ⟨D₂, hD₂⟩).ne
      · exact Or.inr ⟨d, _, hRd, Function.update_same _ _ _, hsn, rfl, hRl, hRo⟩
      · by_cases hXd : X.dependentState = some d
        · obtain ⟨h₁, h₂, L, hL, hL'⟩ := hfree r X hr hrec hXd
          exact Or.inl ⟨h₁, h₂, L, (hagree r hrd hrn).trans hL, hL'⟩
        rcases hm.links r X hr hrec with ⟨h₁, h₂, L, hL, hL'⟩ | hl
        · exact Or.inl ⟨h₁, h₂, L, (hagree r hrd hrn).trans hL, hL'⟩
        · refine Or.inr (hl.congr fun d₂ hd₂ => ?_)
          obtain ⟨D₂, hD₂, -⟩ := hl.dep_suspendedNormal hd₂
          exact hagree d₂ (by rintro rfl; exact hXd hd₂) (hlt d₂ ⟨D₂, hD₂⟩).ne
    case up =>
      intro r X hr hrec d₂ hd₂ hdm
      rcases hcase hr with ⟨rfl, rfl⟩ | ⟨rfl, rfl⟩ | ⟨-, -, hr⟩
      · exact hm.removedUp r D hD hrec d₂ hd₂ hdm
      · cases hRd.symm.trans hd₂; exact absurd hdm hdr
      · exact hm.removedUp r X hr hrec d₂ hd₂ hdm
  obtain ⟨hs, hse, ha, hrm, hp⟩ := hm.toLists.not_mem_of_none (hm.fresh k.nextId le_rfl)
  exact hmid.addAdded ⟨R, hRn, hRsn⟩ hs hrm hse ha hp

/-- `resumeState` on the skeleton: the suspended normal state `d`, whose recovery state has
exited, is resumed and unlinked; it joins `added` when it is not in `states`, `resumed`
otherwise. -/
theorem Mid.resume (hm : k.Mid) {d rec : Nat} {D : Links} (hD : k.lv d = some D)
    (hsn : D.suspendedNormal = true) (hb : D.recoveryState = some rec) (hex : k.Exited rec)
    (hdr : d ∉ k.ls.removed) (hdse : d ∉ k.ls.searcher) {implicitlyCreated : Bool}
    (hic : implicitlyCreated = decide (d ∉ k.ls.states)) :
    Mid ⟨Function.update k.lv d (some { D with suspendStatus := false, recoveryState := none }),
      k.nextId, if implicitlyCreated then { k.ls with added := k.ls.added ++ [d] }
        else { k.ls with resumed := k.ls.resumed ++ [d] }⟩ := by
  have hlt : ∀ j, k.Live j → j < k.nextId := fun j hj => lt_of_live hm.fresh hj
  have hact : ∀ j, k.Active j → j ≠ d := fun j hj => hj.ne hD hsn
  have hmid : Mid ⟨Function.update k.lv d
      (some { D with suspendStatus := false, recoveryState := none }), k.nextId, k.ls⟩ := by
    refine ⟨hm.toLists.transfer rfl ?fresh ?mono ?live ?act, ?links, ?up⟩
    case fresh =>
      intro j hj
      dsimp only at hj ⊢; rw [Function.update_noteq (by have := hlt d ⟨D, hD⟩; omega)]
      exact hm.fresh j hj
    case mono =>
      intro r X hr hrec hXsn hrs d₂ hd₂
      rcases update_eq_some hr with ⟨rfl, hX⟩ | ⟨-, hr⟩
      · cases hX; simp [Links.suspendedNormal] at hXsn
      · exact hm.mono r X hr hrec hXsn hrs d₂ hd₂
    case live =>
      intro j ⟨L, hL⟩
      by_cases hj : j = d
      · subst hj; exact ⟨_, Function.update_same _ _ _⟩
      · exact ⟨L, (Function.update_noteq hj _ _).trans hL⟩
    case act =>
      intro j ⟨L, hL, hL'⟩
      exact ⟨L, (Function.update_noteq (hact j ⟨L, hL, hL'⟩) _ _).trans hL, hL'⟩
    case links =>
      intro r X hr hrec
      rcases update_eq_some hr with ⟨rfl, hX⟩ | ⟨hrd, hr⟩
      · cases hX
        obtain ⟨hl, hself⟩ := hm.linked_of_suspendedNormal hD hsn hrec
        exact Or.inr (hl.congr fun d₂ hd₂ =>
          Function.update_noteq (show d₂ ≠ r from fun h => hself (h ▸ hd₂)) _ _)
      · rcases hm.links r X hr hrec with ⟨h₁, h₂, L, hL, hL'⟩ | hl
        · exact Or.inl ⟨h₁, h₂, L, (Function.update_noteq hrd _ _).trans hL, hL'⟩
        · by_cases hXd : X.dependentState = some d
          · obtain ⟨d₂, D₂, hdep, hD₂, -, hb₂, -⟩ := hl
            cases hXd.symm.trans hdep
            cases hD.symm.trans hD₂
            cases hb.symm.trans hb₂
            obtain ⟨h₁, h₂, L, hL, hL'⟩ := hex
            exact Or.inl ⟨h₁, h₂, L, (Function.update_noteq hrd _ _).trans hL, hL'⟩
          · exact Or.inr (hl.congr fun d₂ hd₂ =>
              Function.update_noteq (by rintro rfl; exact hXd hd₂) _ _)
    case up =>
      intro r X hr hrec d₂ hd₂ hdm
      rcases update_eq_some hr with ⟨rfl, hX⟩ | ⟨-, hr⟩
      · cases hX; exact hm.removedUp r D hD hrec d₂ hd₂ hdm
      · exact hm.removedUp r X hr hrec d₂ hd₂ hdm
  have hact' : Skel.Active ⟨Function.update k.lv d
      (some { D with suspendStatus := false, recoveryState := none }), k.nextId, k.ls⟩ d :=
    ⟨_, Function.update_same _ _ _, by simp [Links.suspendedNormal]⟩
  obtain ⟨ha, hres, hp⟩ := hm.toLists.not_mem_of_suspendedNormal hD hsn
  subst hic
  by_cases hds : d ∈ k.ls.states
  · simp only [hds, not_true_eq_false, decide_False, Bool.false_eq_true, if_false]
    exact hmid.addResumed hact' hds hdse ha hres
  · simp only [hds, not_false_eq_true, decide_True, if_true]
    exact hmid.addAdded hact' hds hdr hdse ha hp

/-! ## From the start of a turn -/

theorem Inv.searcher_active (hi : k.Inv false) {x : Nat} (hx : x ∈ k.ls.searcher) :
    x ∈ k.ls.states ∧ k.Active x :=
  (hi.sched.resolve_left Bool.false_ne_true).2 x hx

theorem Inv.not_removed {halted : Bool} (hi : k.Inv halted) (x : Nat) : x ∉ k.ls.removed := by
  simp [hi.removed]

theorem Inv.linked (hi : k.Inv false) {r : Nat} {R : Links} (hr : k.lv r = some R)
    (hrec : R.isRecovery = true) : Linked k.lv r R :=
  (hi.links r R hr hrec).resolve_left id

/-- A blocking load of the selected normal state `x`: a fresh recovery state linked to `x`,
which is suspended. -/
theorem Inv.blockingLoad (hi : k.Inv false) {x : Nat} {X R : Links} (hsel : x ∈ k.ls.searcher)
    (hX : k.lv x = some X) (hXn : X.isNormal = true) (hR : R.isRecovery = true)
    (hRsn : R.suspendedNormal = false) (hRd : R.dependentState = some x)
    (hRl : R.level = X.levelAbove) (hRo : R.originatingState = X.origAbove x) :
    Mid ⟨Function.update (Function.update k.lv k.nextId (some R)) x
        (some { X with recoveryState := some k.nextId, suspendStatus := true }), k.nextId + 1,
      { k.ls with added := k.ls.added ++ [k.nextId], suspended := k.ls.suspended ++ [x] }⟩ := by
  have hm := hi.toMid
  obtain ⟨hxs, hxa⟩ := hi.searcher_active hsel
  have hnodep : ∀ r R', k.lv r = some R' → R'.isRecovery = true → R'.dependentState ≠ some x :=
    fun r R' hr hrec => hxa.not_dep (hi.linked hr hrec)
  have hms := hm.suspend hX hxs (by simp [hi.added]) (by simp [hi.resumed])
    (fun hp => (hi.pending x hp).2 hxs) (by simp [hi.removed]) hnodep
  have hxn : x ≠ k.nextId := (lt_of_live hi.fresh ⟨X, hX⟩).ne
  have hstart := hms.startRecovery (d := x) (D := { X with suspendStatus := true })
    (Function.update_same _ _ _) (by simp [Links.suspendedNormal, hXn])
    (by simp [hi.removed])
    (fun r R' hr hrec hd => by
      rcases update_eq_some hr with ⟨rfl, hR'⟩ | ⟨-, hr⟩
      · cases hR'
        exact absurd hd ((hi.linked hX hrec).dep_ne_self hX hrec)
      · exact absurd hd (hnodep r R' hr hrec))
    hR hRsn hRd hRl hRo
  convert hstart using 2
  funext j
  by_cases hj : j = x
  · subst hj; simp
  · simp only [Function.update_noteq hj]
    by_cases hjn : j = k.nextId
    · subst hjn; simp
    · simp only [Function.update_noteq hjn, Function.update_noteq hj]

/-- The exit of the selected recovery state `rec` when its dependent state `d` has more
recoveries pending: the next recovery state is linked to `d`, and `rec` is queued for
removal. -/
theorem Inv.exitNext (hi : k.Inv false) {rec d : Nat} {Rc D R : Links}
    (hsel : rec ∈ k.ls.searcher) (hRc : k.lv rec = some Rc) (hrec : Rc.isRecovery = true)
    (hdep : Rc.dependentState = some d) (hD : k.lv d = some D) (hR : R.isRecovery = true)
    (hRsn : R.suspendedNormal = false) (hRd : R.dependentState = some d)
    (hRl : R.level = D.levelAbove) (hRo : R.originatingState = D.origAbove d) :
    Mid ⟨Function.update (Function.update k.lv k.nextId (some R)) d
        (some { D with recoveryState := some k.nextId }), k.nextId + 1,
      { k.ls with added := k.ls.added ++ [k.nextId], removed := k.ls.removed ++ [rec] }⟩ := by
  have hm := hi.toMid
  obtain ⟨hrs, hra⟩ := hi.searcher_active hsel
  have hl := hi.linked hRc hrec
  obtain ⟨D', hD', hsn⟩ := hl.dep_suspendedNormal hdep
  cases hD.symm.trans hD'
  have hmt := hm.terminate (show rec ∉ k.ls.added by simp [hi.added]) hra.live
    (hm.up_of_active hra)
  exact hmt.startRecovery hD hsn
    (by simp [hi.removed]; exact fun h => hl.dep_ne_self hRc hrec (h ▸ hdep))
    (fun r R' hr hrec' hd => by
      have := (hi.linked hr hrec').unique hl hd hdep
      subst this
      exact ⟨by simp, hrs, hra⟩)
    hR hRsn hRd hRl hRo

/-- The exit of the selected recovery state `rec` when its dependent state `d` has no
recovery pending: `d` is resumed and unlinked, and `rec` is queued for removal. -/
theorem Inv.exitResume (hi : k.Inv false) {rec d : Nat} {Rc D : Links}
    (hsel : rec ∈ k.ls.searcher) (hRc : k.lv rec = some Rc) (hrec : Rc.isRecovery = true)
    (hdep : Rc.dependentState = some d) (hD : k.lv d = some D) {implicitlyCreated : Bool}
    (hic : implicitlyCreated = decide (d ∉ k.ls.states)) :
    Mid ⟨Function.update k.lv d (some { D with suspendStatus := false, recoveryState := none }),
      k.nextId,
      let ls := if implicitlyCreated then { k.ls with added := k.ls.added ++ [d] }
        else { k.ls with resumed := k.ls.resumed ++ [d] }
      { ls with removed := ls.removed ++ [rec] }⟩ := by
  have hm := hi.toMid
  obtain ⟨hrs, hra⟩ := hi.searcher_active hsel
  have hl := hi.linked hRc hrec
  obtain ⟨d', D', hdep', hD', hsn, hb, -⟩ := hl
  cases hdep.symm.trans hdep'
  cases hD.symm.trans hD'
  have hmt := hm.terminate (show rec ∉ k.ls.added by simp [hi.added]) hra.live
    (hm.up_of_active hra)
  have hdse : d ∉ k.ls.searcher := fun hd => (hi.searcher_active hd).2.ne hD hsn rfl
  have hres := hmt.resume hD hsn hb ⟨by simp, hrs, hra⟩
    (by simp [hi.removed]; exact (hra.ne hD hsn).symm) hdse hic
  cases implicitlyCreated <;> exact hres

end Skel

namespace Executor

/-- `terminateStateRecursively`: a recovery state not yet queued, with its chain. -/
theorem mid_terminateStateRecursivelyAux : ∀ (fuel : Nat) (e : Executor) (id : Nat),
    e.skel.Mid → id ∉ e.addedStates → id ∉ e.removedStates → e.skel.Live id →
    (∀ r R, e.linkView r = some R → R.isRecovery = true → R.dependentState = some id →
      r ∈ e.removedStates) →
    (terminateStateRecursivelyAux fuel e id).skel.Mid
  | 0, _, _, hm, _, _, _, _ => hm
  | fuel + 1, e, id, hm, hadd, hrem, hlive, hup => by
    have hm₁ : (e.terminateState id).skel.Mid := by
      rw [skel_terminateState e hadd]; exact hm.terminate hadd hlive hup
    simp only [terminateStateRecursivelyAux]
    split
    · rename_i d hnd
      rw [nextDependent_eq] at hnd
      obtain ⟨R, hR, hd⟩ := Option.bind_eq_some.mp hnd
      split at hd
      · rename_i hrec
        have hl : Linked e.linkView id R :=
          (hm.links id R hR hrec).resolve_left fun hx => hrem hx.1
        obtain ⟨d', D, hd', hD, hsn, hb, hlev, ho⟩ := hl
        cases hd.symm.trans hd'
        have hs := skel_terminateState e hadd
        have hlv₁ : (e.terminateState id).linkView = e.linkView := congrArg Skel.lv hs
        have hadd₁ : (e.terminateState id).addedStates = e.addedStates :=
          congrArg (fun k => k.ls.added) hs
        have hrem₁ : (e.terminateState id).removedStates = e.removedStates ++ [id] :=
          congrArg (fun k => k.ls.removed) hs
        refine mid_terminateStateRecursivelyAux fuel _ d hm₁ ?_ ?_ ?_ ?_
        · rw [hadd₁]
          exact fun hdm => (hm.addedOK d hdm).1.ne hD hsn rfl
        · rw [hrem₁, List.mem_append, List.mem_singleton, not_or]
          refine ⟨fun hdm => hrem (hm.removedUp id R hR hrec d hd' hdm), ?_⟩
          rintro rfl
          cases hR.symm.trans hD
          simp [Links.levelAbove, hrec] at hlev
        · exact ⟨D, (congrFun hlv₁ d).trans hD⟩
        · intro r R' hr hrec' hdep
          rw [hlv₁] at hr
          rw [hrem₁]
          rcases hm.links r R' hr hrec' with hx | hl'
          · exact List.mem_append_left _ hx.1
          · rw [hl'.unique ⟨d, D, hd', hD, hsn, hb, hlev, ho⟩ hdep hd']
            exact List.mem_append_right _ (List.mem_singleton_self _)
      · cases hd
    · exact hm₁

/-- `terminateStateOrChain`: a state not yet queued and not an added state, every recovery
state it depends from queued. -/
theorem mid_terminateStateOrChain {e : Executor} {id : Nat} (hm : e.skel.Mid)
    (hadd : id ∉ e.addedStates) (hrem : id ∉ e.removedStates) (hlive : e.skel.Live id)
    (hup : ∀ r R, e.linkView r = some R → R.isRecovery = true → R.dependentState = some id →
      r ∈ e.removedStates) : (e.terminateStateOrChain id).skel.Mid := by
  have ht : (e.terminateState id).skel.Mid := by
    rw [skel_terminateState e hadd]; exact hm.terminate hadd hlive hup
  unfold terminateStateOrChain
  split
  · split
    · exact mid_terminateStateRecursivelyAux _ e id hm hadd hrem hlive hup
    · exact ht
  · exact ht

/-- `terminateStateOrChain` on an active state not yet queued. An added state is deleted at
once and, when it is a recovery state, its chain is queued after it. -/
theorem mid_terminateActive {e : Executor} {id : Nat} (hm : e.skel.Mid) (hact : e.skel.Active id)
    (hrem : id ∉ e.removedStates) : (e.terminateStateOrChain id).skel.Mid := by
  by_cases hadd : id ∉ e.addedStates
  · exact mid_terminateStateOrChain hm hadd hrem hact.live (hm.up_of_active hact)
  rw [not_not] at hadd
  have hs := skel_terminateState_added e hadd
  have hm₁ : (e.terminateState id).skel.Mid := by rw [hs]; exact hm.delete hadd
  obtain ⟨L, hL, -⟩ := hact
  obtain ⟨s, hsid, rfl⟩ := Option.map_eq_some'.mp (show (e.heap id).map _ = some L from hL)
  unfold terminateStateOrChain
  simp only [hsid]
  split
  · rename_i hrec
    obtain ⟨n, hn⟩ : ∃ n, e.nextId = n + 1 :=
      ⟨e.nextId - 1, by
        have := Skel.lt_of_live hm.fresh ⟨_, hL⟩; simp only [skel] at this; omega⟩
    obtain ⟨d, D, hd, hD, hsn, hb, hlev, ho⟩ : Linked e.linkView id s.links :=
      (hm.links id _ hL (by simpa using hrec)).resolve_left fun hx => hrem hx.1
    have hd' : s.dependentState = some d := hd
    have hnd : e.nextDependent id = some d := by
      rw [nextDependent_eq, show e.linkView id = some s.links from hL]; simp [hrec, hd']
    have hlv₁ : (e.terminateState id).linkView = Function.update e.linkView id none :=
      congrArg Skel.lv hs
    unfold terminateStateRecursively
    rw [hn]
    simp only [terminateStateRecursivelyAux, hnd]
    refine mid_terminateStateRecursivelyAux n _ d hm₁ ?_ ?_ ?_ ?_
    · show d ∉ (e.terminateState id).skel.ls.added
      rw [hs]
      exact fun h => (hm.addedOK d (List.mem_of_mem_erase h)).1.ne hD hsn rfl
    · show d ∉ (e.terminateState id).skel.ls.removed
      rw [hs]
      exact fun hdm => hrem (hm.removedUp id _ hL (by simpa using hrec) d hd hdm)
    · refine ⟨D, ?_⟩
      change (e.terminateState id).linkView d = some D
      rw [hlv₁, Function.update_noteq ((hm.addedOK id hadd).1.ne hD hsn).symm]
      exact hD
    · intro r R hr hrec' hdep
      rw [hlv₁] at hr
      show r ∈ (e.terminateState id).skel.ls.removed
      rw [hs]
      rcases Skel.update_eq_some hr with ⟨-, h⟩ | ⟨hrid, hr⟩
      · cases h
      rcases hm.links r R hr hrec' with hx | hl'
      · exact hx.1
      · exact absurd (hl'.unique ⟨d, D, hd, hD, hsn, hb, hlev, ho⟩ hdep hd) hrid
  · exact hm₁

theorem terminateStateOrChain_of_not_recovery (e : Executor) {id : Nat} {L : Links}
    (hL : e.linkView id = some L)
    (hrec : L.isRecovery = false) : e.terminateStateOrChain id = e.terminateState id := by
  obtain ⟨s, hs, rfl⟩ := Option.map_eq_some'.mp hL
  simp only [terminateStateOrChain, hs]
  rw [if_neg (by simpa using hrec)]

theorem getD_mem_of_lt {l : List Nat} {n : Nat} (hn : n < l.length) : l.getD n 0 ∈ l := by
  rw [List.getD_eq_getElem?_getD, List.getElem?_eq_getElem hn]
  exact List.getElem_mem _

/-- The kill loop of `checkMemoryUsage`, over states of `states` that are neither suspended
normal states nor recovery states. -/
theorem mid_killStates : ∀ (toKill : Nat) (arr picks : List Nat) (e : Executor), e.skel.Mid →
    (∀ j ∈ arr, j ∈ e.states ∧ ∃ L, e.linkView j = some L ∧ L.suspendedNormal = false ∧
      L.isRecovery = false) →
    (killStates toKill arr picks e).skel.Mid
  | 0, _, _, _, hm, _ => by rw [killStates]; exact hm
  | _ + 1, [], _, _, hm, _ => by simp only [killStates]; exact hm
  | toKill + 1, a :: arr, picks, e, hm, harr => by
    simp only [killStates]
    have hlen : 0 < (a :: arr).length := by simp
    have hv : (a :: arr).getD (picks.headD 0 % (a :: arr).length) 0 ∈ a :: arr :=
      getD_mem_of_lt (Nat.mod_lt _ hlen)
    obtain ⟨hvs, L, hL, hLsn, hLrec⟩ := harr _ hv
    have hadd : (a :: arr).getD (picks.headD 0 % (a :: arr).length) 0 ∉ e.addedStates :=
      fun h => (hm.addedOK _ h).2.1 hvs
    have hs := skel_terminateState e hadd
    have hm₁ := hm.terminate hadd ⟨L, hL⟩ (hm.up_of_active ⟨L, hL, hLsn⟩)
    rw [← hs] at hm₁
    refine mid_killStates toKill _ _ _ ?_ fun j hj => ?_
    · rwa [terminateStateEarly, terminateStateOrChain_of_not_recovery e hL hLrec]
    · have hj' : j ∈ a :: arr := by
        rcases List.mem_or_eq_of_mem_set (List.dropLast_subset _ hj) with hj | heq
        · exact hj
        · rw [heq]; exact getD_mem_of_lt (by simp)
      rw [terminateStateEarly, terminateStateOrChain_of_not_recovery e hL hLrec]
      have h₁ : (e.terminateState _).states = e.states := congrArg (fun k => k.ls.states) hs
      have h₂ : (e.terminateState _).linkView = e.linkView := congrArg Skel.lv hs
      rw [h₁, h₂]
      exact harr j hj'

/-- `checkMemoryUsage`. -/
theorem mid_checkMemoryUsage {e : Executor} (mbs : Nat) (picks : List Nat) (hm : e.skel.Mid) :
    (e.checkMemoryUsage mbs picks).skel.Mid := by
  have hkill : ∀ toKill, (killStates toKill e.killable picks e).skel.Mid := fun toKill =>
    mid_killStates toKill _ picks e hm fun j hj => by
      obtain ⟨hj, hk⟩ := List.mem_filter.mp hj
      obtain ⟨L, hL⟩ := hm.statesLive j hj
      obtain ⟨s, hs, rfl⟩ := Option.map_eq_some'.mp hL
      simp only [hs, Bool.and_eq_true, Bool.not_eq_true'] at hk
      exact ⟨hj, s.links, hL, by simpa using hk.1, by simpa using hk.2⟩
  unfold checkMemoryUsage
  split
  · exact hm
  · split
    · show Skel.Mid (Executor.skel (if _ then _ else _))
      split
      · exact hkill _
      · exact hm
    · exact hm

/-! ## Instructions -/

variable (e : Executor)

/-- A skipped call leaves the skeleton, or adds a fresh state that is not a recovery state. -/
theorem skel_executeSkippedCall {id f : Nat} {hasSideEffects : Bool} {e' : Executor}
    (hfresh : e.linkView e.nextId = none)
    (h : e.executeSkippedCall id f hasSideEffects = some e') : e'.skel = e.skel ∨
      ∃ L : Links, L.isRecovery = false ∧
        e'.skel = ⟨Function.update e.linkView e.nextId (some L), e.nextId + 1, e.idLists⟩ := by
  simp only [executeSkippedCall, Option.bind_eq_bind'] at h
  obtain ⟨s, hs, h⟩ := Option.bind_eq_some.mp h
  split at h
  · rename_i hc
    cases h
    simp only [Bool.and_eq_true, Bool.not_eq_true'] at hc
    refine Or.inr ⟨s.links, by simpa using hc.1.2, ?_⟩
    have hid : id ≠ e.nextId := fun h => by simp [linkView, h ▸ hs] at hfresh
    rw [skel_setState_of_links (s := s) _ (by simp [hid, hs]) ?_]
    · simp only [skel, linkView_newState, idLists_newState, nextId_newState]; rfl
    · rfl
  · cases h; exact Or.inl rfl

/-- A load leaves the skeleton, or starts a recovery state for the normal loading state `id`
from an executor with its skeleton and, unless `id` is already suspended, suspends `id`. -/
theorem executeLoad_cases {id : Nat} {mayBlock hasUses : Bool} {address size : Nat}
    {mods : List (Nat × Nat)} {e' : Executor}
    (h : e.executeLoad id mayBlock hasUses address size mods = some e') : e'.skel = e.skel ∨
      ∃ (S : Links) (ri : RecoveryInfo) (e₀ e₁ : Executor), e.linkView id = some S ∧
        S.isNormal = true ∧ e₀.skel = e.skel ∧ e₀.startRecoveryState id ri = some e₁ ∧
        ((S.suspendStatus = true ∧ e' = e₁) ∨ e' = e₁.suspendState id) := by
  rw [executeLoad, Option.bind_eq_bind'] at h
  obtain ⟨s, hs, h⟩ := Option.bind_eq_some.mp h
  have hS : e.linkView id = some s.links := by simp [linkView, hs]
  generalize hp : (if s.isNormalState && s.isInDependentMode && s.blockingLoadStatus then
      s.isMayBlockingLoad mayBlock hasUses address size else (s, false)) = p at h
  obtain ⟨s₁, req⟩ := p
  have hp₁ : s₁.links = s.links ∧ (req = true → s.isNormalState = true) := by
    by_cases hc : (s.isNormalState && s.isInDependentMode && s.blockingLoadStatus) = true
    · rw [if_pos hc] at hp
      refine ⟨(congrArg (fun p => p.1.links) hp).symm.trans
        (ExecutionState.links_isMayBlockingLoad ..), fun _ => ?_⟩
      simp only [Bool.and_eq_true] at hc; exact hc.1.1
    · rw [if_neg hc] at hp
      cases hp; exact ⟨rfl, fun h => absurd h Bool.false_ne_true⟩
  cases req
  · dsimp only at h
    simp only [Bool.false_eq_true, ↓reduceIte] at h
    left
    cases h
    refine skel_setState_of_links (s := s) e hs ?_
    split
    · exact (ExecutionState.links_onNormalStateRead ..).trans hp₁.1
    · exact hp₁.1
  · simp only [↓reduceIte] at h
    -- the lookups keep the skeleton and the state's link fields
    have he₀ := skel_getAllRecoveryInfo e s₁ address size mods
    have hlv : (e.getAllRecoveryInfo s₁ address size mods).1.linkView = e.linkView :=
      congrArg Skel.lv he₀
    have hS₀ : (e.getAllRecoveryInfo s₁ address size mods).1.linkView id = some s.links := by
      rw [hlv, hS]
    have hX : (e.getAllRecoveryInfo s₁ address size mods).2.links = s.links :=
      (ExecutionState.links_getAllRecoveryInfo ..).trans hp₁.1
    split at h
    · rename_i ri rest _ _
      obtain ⟨e₁, he₁, h⟩ := Option.bind_eq_some.mp h
      refine Or.inr ⟨s.links, ri, _, e₁, hS, by simpa using hp₁.2 rfl, ?_, he₁, ?_⟩
      · refine (skel_setState_of_linkView _ hS₀ ?_).trans he₀
        exact hX
      split at h
      · rename_i hsus
        exact Or.inl ⟨(congrArg Links.suspendStatus hX).symm.trans hsus, (Option.some.inj h).symm⟩
      · exact Or.inr (Option.some.inj h).symm
    · left
      cases h
      refine (skel_setState_of_linkView _ hS₀ ?_).trans he₀
      split
      · exact (ExecutionState.links_onNormalStateRead ..).trans hX
      · exact hX

theorem skel_haltOnError (termReason : TerminateReason) (file : String) (line : Nat) :
    (e.haltOnError termReason file line).1.skel = e.skel := by
  unfold haltOnError; dsimp only; split_ifs <;> rfl

variable {e}

theorem mid_executeSkippedCall {id f : Nat} {hasSideEffects : Bool} {e' : Executor}
    (hm : e.skel.Mid) (h : e.executeSkippedCall id f hasSideEffects = some e') : e'.skel.Mid := by
  rcases skel_executeSkippedCall e (hm.fresh _ le_rfl) h with h | ⟨L, hL, h⟩
  · rw [h]; exact hm
  · rw [h]; exact hm.alloc hL

/-- A load of the selected state, from the invariant between moves. -/
theorem mid_executeLoad {id : Nat} {mayBlock hasUses : Bool} {address size : Nat}
    {mods : List (Nat × Nat)} {e' : Executor} (hi : e.skel.Inv false) (hsel : id ∈ e.searcher)
    (h : e.executeLoad id mayBlock hasUses address size mods = some e') : e'.skel.Mid := by
  rcases executeLoad_cases e h with h | ⟨S, ri, e₀, e₁, hS, hSn, h₀, h₁, h⟩
  · rw [h]; exact hi.toMid
  have hlv₀ : e₀.linkView = e.linkView := congrArg Skel.lv h₀
  have hn₀ : e₀.nextId = e.nextId := congrArg Skel.nextId h₀
  have hls₀ : e₀.idLists = e.idLists := congrArg Skel.ls h₀
  obtain ⟨D, R, hD, hR, hRsn, hRd, hRl, hRo, hsk⟩ :=
    startRecoveryState_spec e₀ (by rw [hlv₀, hn₀]; exact hi.fresh) h₁
  rw [hlv₀] at hD
  cases hS.symm.trans hD
  obtain ⟨-, L, hL, hLsn⟩ := hi.searcher_active hsel
  cases hS.symm.trans hL
  rcases h with ⟨hsus, -⟩ | rfl
  · simp [Links.suspendedNormal, hSn, hsus] at hLsn
  have hb := hi.blockingLoad hsel hS hSn hR hRsn hRd hRl hRo
  simp only [skel, Skel.mk.injEq] at hsk
  obtain ⟨hlv₁, hn₁, hls₁⟩ := hsk
  rw [skel_suspendState]
  simp only [skel, hlv₁, hn₁, hls₁, hlv₀, hn₀, hls₀, Function.update_same, Option.map_some',
    Function.update_idem]
  exact hb

/-- The exit of the selected recovery state, from the invariant between moves. -/
theorem mid_onRecoveryStateExit {rec : Nat} {Rc : Links} {e' : Executor}
    (hi : e.skel.Inv false) (hsel : rec ∈ e.searcher) (hRc : e.linkView rec = some Rc)
    (hrec : Rc.isRecovery = true) (h : e.onRecoveryStateExit rec = some e') : e'.skel.Mid := by
  simp only [onRecoveryStateExit, Option.bind_eq_bind'] at h
  obtain ⟨r, hr, h⟩ := Option.bind_eq_some.mp h
  obtain ⟨d, hd, h⟩ := Option.bind_eq_some.mp h
  obtain ⟨ds, hds, h⟩ := Option.bind_eq_some.mp h
  have hRc' : e.linkView rec = some r.links := by simp [linkView, hr]
  cases hRc.symm.trans hRc'
  have hD : e.linkView d = some ds.links := by simp [linkView, hds]
  have hrn : rec ≠ e.nextId := (Skel.lt_of_live hi.fresh ⟨_, hRc⟩).ne
  have hadd₀ : e.addedStates = [] := hi.added
  split at h
  · rename_i ri rest _
    obtain ⟨e₃, he₃, h⟩ := Option.bind_eq_some.mp h
    obtain ⟨e₁, he₁, h⟩ := Option.bind_eq_some.mp h
    cases h
    have h₃ : e₃.skel = e.skel :=
      (skel_replicateBranchHist _ he₃).trans (skel_setState_of_links e hds rfl)
    have hlv₃ : e₃.linkView = e.linkView := congrArg Skel.lv h₃
    have hn₃ : e₃.nextId = e.nextId := congrArg Skel.nextId h₃
    have hls₃ : e₃.idLists = e.idLists := congrArg Skel.ls h₃
    obtain ⟨D, R, hD', hR, hRsn, hRd, hRl, hRo, hsk⟩ :=
      startRecoveryState_spec e₃ (by rw [hlv₃, hn₃]; exact hi.fresh) he₁
    rw [hlv₃] at hD'
    cases hD.symm.trans hD'
    have hb := hi.exitNext hsel hRc hrec hd hD hR hRsn hRd hRl hRo
    have hadd : rec ∉ e₁.addedStates := by
      have := congrArg (fun k => k.ls.added) hsk
      simp only [skel] at this
      rw [show e₁.addedStates = e₁.idLists.added from rfl, this, hn₃, hls₃]
      simp [idLists, hadd₀, hrn]
    rw [skel_terminateState e₁ hadd]
    simp only [skel, Skel.mk.injEq] at hsk
    obtain ⟨hlv₁, hn₁, hls₁⟩ := hsk
    simp only [skel, hlv₁, hn₁, hls₁, hlv₃, hn₃, hls₃]
    exact hb
  · obtain ⟨e₁, he₁, h⟩ := Option.bind_eq_some.mp h
    cases h
    rw [notifyDependentState] at he₁
    simp only [Option.bind_eq_bind', Option.bind_eq_some] at he₁
    obtain ⟨r', hr', d', hd', he₁⟩ := he₁
    cases hr.symm.trans hr'
    cases hd.symm.trans hd'
    have hsk := skel_resumeState e he₁
    have hb := hi.exitResume hsel hRc hrec hd hD (show decide (d ∉ e.states) = _ from rfl)
    have hdr : d ≠ rec := by
      rintro rfl; exact (hi.linked hRc hrec).dep_ne_self hRc hrec hd
    have hadd : rec ∉ e₁.addedStates := by
      have := congrArg (fun k => k.ls.added) hsk
      simp only [skel] at this
      rw [show e₁.addedStates = e₁.idLists.added from rfl, this]
      split <;> simp [idLists, hadd₀, hdr.symm]
    rw [skel_terminateState e₁ hadd, hsk]
    simp only [skel, Function.update_same, hD, Option.map_some']
    exact hb

/-- Ending the selected state, with its chain when it is a recovery state, from the invariant
between moves. -/
theorem mid_terminateSelected {id : Nat} (hi : e.skel.Inv false) (hsel : id ∈ e.searcher) :
    (e.terminateStateOrChain id).skel.Mid :=
  mid_terminateActive hi.toMid (hi.searcher_active hsel).2 (hi.not_removed id)

end Executor

end PChop
