import PChop.Verify.Switch

/-!
# A turn of the run loop keeps the invariant

The instruction of the selected state takes the invariant between moves to the invariant
within a turn (`mid_executeInstruction`), and so does `checkMemoryUsage`; `updateStates` then
hands the turn's buffers to the searcher and to `states`, deletes the removed states that are
in `states`, and gives back the invariant between moves.
-/

namespace PChop

namespace Skel

variable {k : Skel}

/-! ## The invariant between moves -/

/-- The invariant between moves holds whether or not the node has halted. -/
theorem Inv.of_false (hi : k.Inv false) (halted : Bool) : k.Inv halted :=
  { hi with sched := .inr (hi.sched.resolve_left Bool.false_ne_true) }

/-- A halted node needs no searcher invariant. -/
theorem Inv.halt {halted : Bool} (hi : k.Inv halted) : k.Inv true :=
  { hi with sched := .inl rfl }

/-- What `updateStates` makes of a skeleton within a turn: the added states join `states`, the
removed states of `states` (and of the added states) leave it and the heap, each other removed
state being a suspended normal state; the searcher keeps its states and the added ones that
are neither suspended nor removed (a removed one must be a suspended normal state), and takes
the resumed states; the indexed states take some of the ranging states. -/
theorem Mid.settle (hm : k.Mid) {lv' : LinkHeap} {S V I : List Nat}
    (hlv : ∀ j, lv' j =
      if j ∈ k.ls.removed ∧ (j ∈ k.ls.states ∨ j ∈ k.ls.added) then none else k.lv j)
    (hrs : ∀ j ∈ k.ls.removed, j ∉ k.ls.states → j ∉ k.ls.added →
      ∃ X, k.lv j = some X ∧ X.suspendedNormal = true)
    (hS : S.Nodup) (hSm : ∀ j, j ∈ S ↔ (j ∈ k.ls.states ∨ j ∈ k.ls.added) ∧ j ∉ k.ls.removed)
    (hV : V.Nodup)
    (hVm : ∀ j ∈ V, ((j ∈ k.ls.searcher ∨ j ∈ k.ls.added) ∧ j ∉ k.ls.suspended ∧
      (j ∈ k.ls.removed → ∃ X, k.lv j = some X ∧ X.suspendedNormal = true)) ∨
      (j ∈ k.ls.resumed ∧ j ∉ k.ls.removed))
    (hI : I.Nodup) (hIm : ∀ j ∈ I, j ∈ k.ls.ranging ++ k.ls.indexed) :
    Inv ⟨lv', k.nextId, ⟨S, V, [], [], [], [], [], I⟩⟩ false := by
  have hkeep : ∀ j, ¬(j ∈ k.ls.removed ∧ (j ∈ k.ls.states ∨ j ∈ k.ls.added)) → lv' j = k.lv j :=
    fun j hj => by rw [hlv, if_neg hj]
  have hdel : ∀ j X, lv' j = some X →
      k.lv j = some X ∧ ¬(j ∈ k.ls.removed ∧ (j ∈ k.ls.states ∨ j ∈ k.ls.added)) := by
    intro j X hX
    rw [hlv] at hX
    split at hX
    · cases hX
    · exact ⟨hX, ‹_›⟩
  -- a recovery state that stays is linked: an exited one is removed from `states`
  have hlinked : ∀ r R, lv' r = some R → R.isRecovery = true → Linked k.lv r R := fun r R hr hrec =>
    (hm.links r R (hdel r R hr).1 hrec).resolve_left fun ⟨h₁, h₂, _⟩ =>
      (hdel r R hr).2 ⟨h₁, .inl h₂⟩
  have hdadd : ∀ r R d, Linked k.lv r R → R.dependentState = some d → d ∉ k.ls.added :=
    fun r R d hl hd ha => (hm.addedOK d ha).1.not_dep hl hd
  -- an active state of `states` or added, and not removed, is scheduled afterwards
  have hact : ∀ j, k.Active j → j ∉ k.ls.removed → (j ∈ k.ls.states ∨ j ∈ k.ls.added) →
      j ∈ S ∧ Active ⟨lv', k.nextId, ⟨S, V, [], [], [], [], [], I⟩⟩ j := by
    intro j ha hnr hsa
    obtain ⟨L, hL, hLsn⟩ := ha
    exact ⟨(hSm j).mpr ⟨hsa, hnr⟩, L, (hkeep j fun h => hnr h.1).trans hL, hLsn⟩
  refine ⟨fun j hj => ?_, ?links, ?mono, rfl, rfl, rfl, rfl, hS, ?live, List.nodup_nil, hI,
    fun _ h => absurd h (List.not_mem_nil _), ?pending, .inr ⟨hV, ?sched⟩⟩
  · show lv' j = none
    rw [hlv]; split
    · rfl
    · exact hm.fresh j hj
  case links =>
    intro r R hr hrec
    right
    obtain ⟨hr', hnd⟩ := hdel r R hr
    have hl := hlinked r R hr hrec
    refine hl.congr fun d hd => hkeep d fun ⟨hdr, hds⟩ => ?_
    -- a removed dependent has its recovery state removed, outside `states`, hence suspended
    have hrr := hm.removedUp r R hr' hrec d hd hdr
    have hrs' : r ∉ k.ls.states := fun h => hnd ⟨hrr, .inl h⟩
    obtain ⟨X, hX, hsn⟩ := hrs r hrr hrs' fun h => hnd ⟨hrr, .inr h⟩
    cases hr'.symm.trans hX
    rcases hds with hds | hds
    · exact hm.mono r R hr' hrec hsn hrs' d hd hds
    · exact hdadd r R d hl hd hds
  case mono =>
    intro r R hr hrec hsn hrS d hd hdS
    obtain ⟨hr', hnd⟩ := hdel r R hr
    have hrs' : r ∉ k.ls.states := fun h => hrS ((hSm r).mpr ⟨.inl h, fun hrm => hnd ⟨hrm, .inl h⟩⟩)
    rcases ((hSm d).mp hdS).1 with hds | hds
    · exact hm.mono r R hr' hrec hsn hrs' d hd hds
    · exact hdadd r R d (hlinked r R hr hrec) hd hds
  case live =>
    intro j hj
    obtain ⟨hsa, hnr⟩ := (hSm j).mp hj
    have hk := hkeep j fun h => hnr h.1
    rcases hsa with h | h
    · obtain ⟨L, hL⟩ := hm.statesLive j h; exact ⟨L, hk.trans hL⟩
    · obtain ⟨L, hL⟩ := (hm.addedOK j h).1.live; exact ⟨L, hk.trans hL⟩
  case pending =>
    intro j hj
    obtain ⟨⟨L, hL, hLsn⟩, hs, hadd⟩ := hm.pending j (hIm j (by simpa using hj))
    exact ⟨⟨L, (hkeep j fun h => h.2.elim hs hadd).trans hL, hLsn⟩,
      fun hS' => ((hSm j).mp hS').1.elim hs hadd⟩
  case sched =>
    intro j hj
    rcases hVm j hj with ⟨h | h, hns, hrm⟩ | ⟨hres, hnr⟩
    · have ha := (hm.searcherOK j h).2 hns
      exact hact j ha (fun hr => let ⟨X, hX, hsn⟩ := hrm hr; ha.ne hX hsn rfl)
        (.inl (hm.searcherOK j h).1)
    · exact hact j (hm.addedOK j h).1 (hm.addedOK j h).2.2 (.inr h)
    · exact hact j (hm.resumedOK j hres).1 hnr (.inl (hm.resumedOK j hres).2.1)

/-- Active states `C` leave `states` and the searcher (the answer to an `OFFLOAD`, or a
worker's prune): they stay in the heap. -/
theorem Inv.leave (hi : k.Inv false) {C S V : List Nat} (hCa : ∀ j ∈ C, k.Active j)
    (hS : S.Nodup) (hSm : ∀ j, j ∈ S ↔ j ∈ k.ls.states ∧ j ∉ C)
    (hV : V.Nodup) (hVm : ∀ j, j ∈ V ↔ j ∈ k.ls.searcher ∧ j ∉ C) :
    Inv { k with ls := { k.ls with states := S, searcher := V } } false := by
  refine ⟨hi.fresh, hi.links, ?mono, hi.added, hi.removed, hi.suspended, hi.resumed, hS,
    fun j hj => hi.statesLive j ((hSm j).mp hj).1, hi.rangingNodup, hi.indexedNodup,
    hi.rangingIndexed,
    fun j hj => ⟨(hi.pending j hj).1, fun h => (hi.pending j hj).2 ((hSm j).mp h).1⟩,
    .inr ⟨hV, fun j hj => ?_⟩⟩
  case mono =>
    intro r R hr hrec hsn hrS d hd hdS
    have hrC : r ∉ C := fun h => (hCa r h).ne hr hsn rfl
    exact hi.mono r R hr hrec hsn (fun h => hrS ((hSm r).mpr ⟨h, hrC⟩)) d hd ((hSm d).mp hdS).1
  obtain ⟨hjv, hjC⟩ := (hVm j).mp hj
  obtain ⟨hjs, hja⟩ := hi.searcher_active hjv
  exact ⟨(hSm j).mpr ⟨hjs, hjC⟩, hja⟩

/-- Active states outside `states` and not yet pending are suspended for ranging. -/
theorem Inv.addRanging {halted : Bool} (hi : k.Inv halted) {C : List Nat} (hC : C.Nodup)
    (hCa : ∀ j ∈ C, k.Active j ∧ j ∉ k.ls.states ∧ j ∉ k.ls.ranging ∧ j ∉ k.ls.indexed) :
    Inv { k with ls := { k.ls with ranging := k.ls.ranging ++ C } } halted := by
  refine { hi with
    rangingNodup := List.nodup_append.mpr ⟨hi.rangingNodup, hC, fun a ha hb => (hCa a hb).2.2.1 ha⟩
    rangingIndexed := fun j hj hji => ?_
    pending := fun j hj => ?_ }
  · rcases List.mem_append.mp hj with hj | hj
    · exact hi.rangingIndexed j hj hji
    · exact (hCa j hj).2.2.2 hji
  · simp only [List.mem_append, or_assoc] at hj
    rcases hj with hj | hj | hj
    · exact hi.pending j (List.mem_append_left _ hj)
    · exact ⟨(hCa j hj).1, (hCa j hj).2.1⟩
    · exact hi.pending j (List.mem_append_right _ hj)

end Skel

namespace Executor

variable (e : Executor)

/-! ## The loops of updateStates -/

/-- Indexing a ranging state keeps the link fields and adds the state to the indexed states,
unless its history is taken. -/
theorem skel_indexSuspended (id : Nat) : ∃ l : List Nat, l.Sublist [id] ∧
    (e.indexSuspended id).skel =
      ⟨e.linkView, e.nextId, { e.idLists with indexed := e.idLists.indexed ++ l }⟩ := by
  have hlv : (e.indexSuspended id).linkView = e.linkView :=
    linkView_modifyState e id (f := (·.clearPrefixes)) fun _ => rfl
  have hls : (e.indexSuspended id).idLists = { e.idLists with
      indexed := (e.indexSuspended id).prefixSuspendedStatesMap.map Prod.snd } := by
    unfold indexSuspended; rw [modifyState_eq]; rfl
  rw [skel, hlv, hls]
  unfold indexSuspended
  rw [modifyState_eq]
  dsimp only
  split
  · exact ⟨[], List.nil_sublist _, by simp [idLists]⟩
  · exact ⟨[id], List.Sublist.refl _, by simp [idLists]⟩

theorem skel_foldl_indexSuspended : ∀ (l : List Nat) (e : Executor), ∃ l' : List Nat,
    l'.Sublist l ∧ (l.foldl indexSuspended e).skel =
      ⟨e.linkView, e.nextId, { e.idLists with indexed := e.idLists.indexed ++ l' }⟩
  | [], e => ⟨[], List.nil_sublist _, by simp [skel]⟩
  | id :: l, e => by
    obtain ⟨l₁, hl₁, h₁⟩ := skel_indexSuspended e id
    obtain ⟨l₂, hl₂, h₂⟩ := skel_foldl_indexSuspended l (e.indexSuspended id)
    refine ⟨l₁ ++ l₂, hl₁.append hl₂, ?_⟩
    rw [List.foldl_cons, h₂]
    simp only [skel, Skel.mk.injEq] at h₁
    obtain ⟨hlv, hn, hls⟩ := h₁
    rw [hlv, hn, hls, List.append_assoc]

/-- The loop of `updateStates` over the removed states: those in `states` leave it and the
heap; every other one must be a suspended normal state. -/
theorem foldlM_removeState_spec : ∀ (rs : List Nat) (e e' : Executor),
    rs.foldlM removeState e = some e' → e.states.Nodup →
    (∀ j, e'.linkView j = if j ∈ rs ∧ j ∈ e.states then none else e.linkView j) ∧
    e'.nextId = e.nextId ∧ e'.idLists = { e.idLists with states := e'.states } ∧
    e'.states.Nodup ∧ (∀ j, j ∈ e'.states ↔ j ∈ e.states ∧ j ∉ rs) ∧
    ∀ j ∈ rs, j ∉ e.states → ∃ X, e.linkView j = some X ∧ X.suspendedNormal = true
  | [], e, e', h, hnd => by
    cases h
    exact ⟨fun j => by simp, rfl, rfl, hnd, by simp, by simp⟩
  | es :: rs, e, e', h, hnd => by
    obtain ⟨e₁, h₁, h⟩ := Option.bind_eq_some.mp h
    unfold removeState at h₁
    split at h₁
    · -- a state of `states`: erased and deleted
      rename_i hes
      have hlv₁ : ∀ j, e₁.linkView j = if j = es then none else e.linkView j := by
        intro j; cases h₁; rw [linkView_deleteState, Function.update_apply]; rfl
      have hst₁ : e₁.states = e.states.erase es := by cases h₁; rfl
      have hls₁ : e₁.idLists = { e.idLists with states := e₁.states } := by cases h₁; rfl
      have hn₁ : e₁.nextId = e.nextId := by cases h₁; rfl
      obtain ⟨hlv, hn, hls, hnd', hmem, hsn⟩ :=
        foldlM_removeState_spec rs e₁ e' h (hst₁ ▸ hnd.erase es)
      have hmem₁ : ∀ j, j ∈ e₁.states ↔ j ∈ e.states ∧ j ≠ es := fun j => by
        rw [hst₁, hnd.mem_erase_iff, and_comm]
      refine ⟨fun j => ?_, hn.trans hn₁, by rw [hls, hls₁], hnd', fun j => ?_, ?_⟩
      · rw [hlv, hlv₁]
        by_cases hj : j = es
        · subst hj; simp [hes]
        · simp [hj, hmem₁]
      · rw [hmem, hmem₁, List.mem_cons, not_or]
        tauto
      · rintro j (_ | ⟨_, hj⟩) hjs
        · exact absurd hes hjs
        · obtain ⟨X, hX, hXsn⟩ := hsn j hj fun h => hjs ((hmem₁ j).mp h).1
          have hne : j ≠ es := fun h => hjs (h ▸ hes)
          exact ⟨X, by rw [← hX, hlv₁, if_neg hne], hXsn⟩
    · -- any other state must be a suspended normal state, and is skipped
      rename_i hes
      split at h₁
      · rename_i s hs
        split at h₁
        · rename_i hsn
          cases h₁
          obtain ⟨hlv, hn, hls, hnd', hmem, hsn'⟩ := foldlM_removeState_spec rs e e' h hnd
          refine ⟨fun j => ?_, hn, hls, hnd', fun j => ?_, ?_⟩
          · rw [hlv]
            by_cases hj : j = es
            · subst hj; simp [hes]
            · simp [hj]
          · rw [hmem, List.mem_cons, not_or]
            constructor
            · rintro ⟨h₁, h₂⟩; exact ⟨h₁, fun h => hes (h ▸ h₁), h₂⟩
            · rintro ⟨h₁, -, h₂⟩; exact ⟨h₁, h₂⟩
          · rintro j (_ | ⟨_, hj⟩) hjs
            · exact ⟨s.links, by simp [linkView, hs], by simpa using hsn⟩
            · exact hsn' j hj hjs
        · cases h₁
      · cases h₁

/-- The states `newCheck2Offload` may choose are states of `states`. -/
theorem map_fst_filterMap_sublist (h : Nat → Option ExecutionState) : ∀ l : List Nat,
    ((l.filterMap fun id => (h id).map (id, ·)).map Prod.fst).Sublist l
  | [] => List.Sublist.slnil
  | a :: l => by
    rw [List.filterMap_cons]
    cases h a with
    | none => exact (map_fst_filterMap_sublist h l).cons a
    | some s => exact (map_fst_filterMap_sublist h l).cons₂ a

theorem chosen_sublist (p : Nat × ExecutionState → Bool) (n : Nat) :
    ((((e.states.filterMap fun id => (e.heap id).map (id, ·)).filter p).take n).map
      Prod.fst).Sublist e.states :=
  (((List.take_sublist _ _).trans (List.filter_sublist _)).map Prod.fst).trans
    (map_fst_filterMap_sublist e.heap e.states)

theorem chosen_mem {p : Nat × ExecutionState → Bool} {n j : Nat}
    (hj : j ∈ (((e.states.filterMap fun id => (e.heap id).map (id, ·)).filter p).take n).map
      Prod.fst) : ∃ s, e.heap j = some s ∧ p (j, s) = true := by
  obtain ⟨⟨j', s⟩, hq, rfl⟩ := List.mem_map.mp hj
  obtain ⟨hq, hp⟩ := List.mem_filter.mp (List.mem_of_mem_take hq)
  obtain ⟨id, -, hid⟩ := List.mem_filterMap.mp hq
  obtain ⟨s', hs', hq⟩ := Option.map_eq_some'.mp hid
  cases hq
  exact ⟨s, hs', hp⟩

theorem skel_updateOffloadReadiness : e.updateOffloadReadiness.1.skel = e.skel ∧
    e.updateOffloadReadiness.1.haltExecution = e.haltExecution := by
  unfold updateOffloadReadiness
  split_ifs <;> exact ⟨rfl, rfl⟩

/-- The removed states `updateStates` removes from the searcher: those that are not suspended
normal states. -/
theorem mem_filter_removed {j : Nat} :
    j ∈ e.removedStates.filter (fun id => !(match e.heap id with
      | some s => s.isNormalState && s.isSuspended | none => false)) ↔
      j ∈ e.removedStates ∧ ¬∃ X, e.linkView j = some X ∧ X.suspendedNormal = true := by
  rw [List.mem_filter]
  cases hj : e.heap j <;> simp [linkView, hj, ExecutionState.isSuspended, or_iff_not_imp_left]

variable {e}

/-! ## One turn -/

/-- One instruction of the selected state, from the invariant between moves. -/
theorem mid_executeInstruction {id : Nat} {instr : Instr} {e' : Executor}
    {sent : List Message} (hi : e.skel.Inv false) (hsel : id ∈ e.searcher)
    (h : e.executeInstruction id instr = some (e', sent)) : e'.skel.Mid := by
  cases instr with
  | plain => cases h; exact hi.toMid
  | fork fi =>
    obtain ⟨⟨e₁, t, f⟩, h₁, h⟩ := Option.map_eq_some'.mp h
    cases h
    exact (mid_fork hi.toMid (hi.searcher_active hsel).2 (hi.not_removed _) h₁).1
  | switch conditions rng =>
    obtain ⟨⟨e₁, r⟩, h₁, h⟩ := Option.map_eq_some'.mp h
    cases h; exact mid_branch hi hsel h₁
  | call f hasSideEffects =>
    obtain ⟨e₁, h₁, h⟩ := Option.map_eq_some'.mp h
    cases h; exact mid_executeSkippedCall hi.toMid h₁
  | load mayBlock hasUses address size mods =>
    obtain ⟨e₁, h₁, h⟩ := Option.map_eq_some'.mp h
    cases h; exact mid_executeLoad hi hsel h₁
  | store address v mayOverride =>
    obtain ⟨e₁, h₁, h⟩ := Option.map_eq_some'.mp h
    cases h; rw [skel_executeStore e h₁]; exact hi.toMid
  | exit => cases h; exact mid_terminateSelected hi hsel
  | error termReason message lastInst file line =>
    obtain rfl := congrArg Prod.fst (Option.some.inj h)
    rw [terminateStateOnError, skel_haltOnError]
    exact mid_terminateSelected hi hsel
  | early => cases h; exact mid_terminateSelected hi hsel
  | recoveryExit =>
    simp only [executeInstruction] at h
    split at h
    · rename_i s hs
      split at h
      · obtain ⟨e₁, h₁, h⟩ := Option.map_eq_some'.mp h
        cases h
        exact mid_onRecoveryStateExit hi hsel
          (show e.linkView id = some s.links by simp [linkView, hs])
          (by simpa) h₁
      · cases h; exact hi.toMid
    · cases h
  | resolve fis incomplete lastInst file line =>
    obtain ⟨e₁, u, h₁, hr⟩ := executeResolution_cases _ h
    obtain ⟨hm₁, hu⟩ := mid_resolveStates hi.toMid (hi.searcher_active hsel).2 hi.removed h₁
    rcases hr with ⟨-, hr⟩ | ⟨x, rfl, ⟨-, hr⟩ | ⟨-, hr⟩⟩
    · cases hr; exact hm₁
    · cases hr; exact mid_terminateActive hm₁ (hu x rfl).1 (by simp [(hu x rfl).2])
    · obtain rfl := congrArg Prod.fst hr
      rw [terminateStateOnError, skel_haltOnError]
      exact mid_terminateActive hm₁ (hu x rfl).1 (by simp [(hu x rfl).2])


/-- The answer to an `OFFLOAD` from the invariant between moves, for chosen states of
`states` that are not suspended. -/
theorem inv_offloadChosen (hi : e.skel.Inv false) {C S V : List Nat} (hsub : C.Sublist e.states)
    (hCs : ∀ j ∈ C, ∃ s, e.heap j = some s ∧ (!s.isSuspended) = true)
    (hV : dfsUpdate e.searcher [] C = some V)
    (hS : C.foldlM (fun l id => if id ∈ l then some (l.erase id) else none) e.states = some S) :
    Skel.Inv ⟨e.linkView, e.nextId, ⟨S, V, e.addedStates, e.removedStates.filter (· ∉ C),
      e.suspendedStates, e.resumedStates, e.rangingSuspendedStates ++ C,
      e.prefixSuspendedStatesMap.map Prod.snd⟩⟩ false := by
  obtain ⟨hVnd, hVm⟩ :=
    dfsUpdate_spec hV (by simpa using (hi.sched.resolve_left Bool.false_ne_true).1)
  obtain ⟨hSnd, hSm⟩ := foldlM_erase_spec C _ S hS hi.statesNodup
  have hrem : e.removedStates.filter (fun j => decide (j ∉ C)) = e.removedStates := by
    rw [show e.removedStates = [] from hi.removed]; rfl
  rw [hrem]
  have hCa : ∀ j ∈ C, e.skel.Active j := fun j hj => by
    obtain ⟨s, hs, hsus⟩ := hCs j hj
    simp only [ExecutionState.isSuspended, Bool.not_eq_true'] at hsus
    exact ⟨s.links, by simp [skel, linkView, hs], by simp [hsus]⟩
  refine (hi.leave hCa hSnd hSm hVnd fun j => by simpa using hVm j).addRanging
    (hsub.nodup hi.statesNodup) fun j hj => ⟨hCa j hj, fun h => ((hSm j).mp h).2 hj, fun h => ?_,
      fun h => ?_⟩
  · exact (hi.pending j (List.mem_append_left _ h)).2 (hsub.subset hj)
  · exact (hi.pending j (List.mem_append_right _ h)).2 (hsub.subset hj)

/-- `newCheck2Offload` from the invariant between moves: a `KILL` halts the node. -/
theorem inv_newCheck2Offload {incoming : Option Tag} {e' : Executor} {sent : List Message}
    (hi : e.skel.Inv false) (h : e.newCheck2Offload incoming = some (e', sent)) :
    e'.skel.Inv e'.haltExecution := by
  unfold newCheck2Offload at h
  split at h
  · dsimp only at h
    split at h
    · cases h; exact hi.of_false _
    · obtain ⟨V, hV, h⟩ := Option.bind_eq_some.mp h
      obtain ⟨S, hS, h⟩ := Option.bind_eq_some.mp h
      cases h
      exact (inv_offloadChosen hi (chosen_sublist e _ _) (fun j hj => chosen_mem e hj) hV
        hS).of_false _
  · cases h; exact hi.halt
  · cases h; exact hi.of_false _

/-- `updateStates` from the invariant within a turn gives the invariant between moves. -/
theorem inv_updateStates {incoming : Option Tag} {e' : Executor} {sent : List Message}
    (hm : e.skel.Mid) (h : e.updateStates incoming = some (e', sent)) :
    e'.skel.Inv e'.haltExecution := by
  rw [updateStates] at h
  obtain ⟨v₁, h₁, h⟩ := Option.bind_eq_some.mp h
  obtain ⟨v₂, h₂, h⟩ := Option.bind_eq_some.mp h
  obtain ⟨v₃, h₃, h⟩ := Option.bind_eq_some.mp h
  rw [foldlM_dfsUpdate_add] at h₃
  cases h₃
  dsimp only at h
  obtain ⟨l', hl', hsk₂⟩ := skel_foldl_indexSuspended e.rangingSuspendedStates
    { e with searcher := v₂ ++ e.resumedStates, suspendedStates := [], resumedStates := [],
             states := e.addedStates.foldl insertState e.states }
  generalize e.rangingSuspendedStates.foldl indexSuspended _ = e₂ at hsk₂ h
  obtain ⟨e₄, h₄, h⟩ := Option.bind_eq_some.mp h
  simp only [skel, Skel.mk.injEq] at hsk₂
  obtain ⟨hlv₂, hn₂, hls₂⟩ := hsk₂
  change e₂.linkView = e.linkView at hlv₂
  change e₂.nextId = e.nextId at hn₂
  have hst₂ : e₂.states = e.addedStates.foldl insertState e.states := congrArg IdLists.states hls₂
  have hrm₂ : e₂.removedStates = e.removedStates := congrArg IdLists.removed hls₂
  obtain ⟨hlv₄, hn₄, hls₄, hnd₄, hmem₄, hsn₄⟩ := foldlM_removeState_spec _ _ e₄ h₄
    (show e₂.states.Nodup by rw [hst₂]; exact nodup_foldl_insertState _ _ hm.statesNodup)
  -- the searcher: the added states and the resumed ones join it, the removed and suspended
  -- ones leave it
  obtain ⟨hnd₁, hmem₁⟩ := dfsUpdate_spec h₁ hm.searcherAdded
  obtain ⟨hnd₂, hmem₂⟩ := foldlM_dfsUpdate_remove _ _ _ h₂ hnd₁
  have hrf := dfsUpdate_mem_of_removed h₁ hm.searcherAdded
  have hres : ∀ j ∈ e.resumedStates, j ∉ e.removedStates := fun j hj hjr => by
    obtain ⟨hact, -, hjs, hja⟩ := hm.resumedOK j hj
    rcases List.mem_append.mp (hrf j ((mem_filter_removed e).mpr
      ⟨hjr, fun ⟨_, hX, hsn⟩ => hact.ne hX hsn rfl⟩)) with h | h
    · exact hjs h
    · exact hja h
  have hinv : Skel.Inv ⟨e₄.linkView, e.nextId,
      ⟨e₄.states, v₂ ++ e.resumedStates, [], [], [], [], [], e.idLists.indexed ++ l'⟩⟩ false := by
    refine hm.settle (fun j => ?_) (fun j hj hjs hja => ?_) hnd₄ (fun j => ?_)
      (List.nodup_append.mpr ⟨hnd₂, hm.resumedNodup, fun a ha hb => ?_⟩) (fun j hj => ?_)
      (List.nodup_append.mpr ⟨hm.indexedNodup, hl'.nodup hm.rangingNodup, fun a ha hb =>
        hm.rangingIndexed a (hl'.subset hb) ha⟩)
      fun j hj => by
        rw [List.mem_append, or_comm]; exact (List.mem_append.mp hj).imp_right (hl'.subset ·)
    · rw [hlv₄ j]
      show (if j ∈ e₂.removedStates ∧ j ∈ e₂.states then none else e₂.linkView j) = _
      simp only [hrm₂, hst₂, hlv₂, mem_foldl_insertState, or_comm]
      rfl
    · obtain ⟨X, hX, hsn⟩ := hsn₄ j (show j ∈ e₂.removedStates by rw [hrm₂]; exact hj)
        (show j ∉ e₂.states by rw [hst₂, mem_foldl_insertState]; tauto)
      exact ⟨X, (show e₂.linkView j = X from hX) ▸ hlv₂ ▸ rfl, hsn⟩
    · rw [hmem₄]
      show j ∈ e₂.states ∧ j ∉ e₂.removedStates ↔ _
      rw [hst₂, hrm₂, mem_foldl_insertState]
      exact Iff.rfl
    · obtain ⟨-, -, hjs, hja⟩ := hm.resumedOK a hb
      rcases List.mem_append.mp ((hmem₁ a).mp ((hmem₂ a).mp ha).1).1 with h | h
      · exact hjs h
      · exact hja h
    · rcases List.mem_append.mp hj with hj | hj
      · obtain ⟨hj₁, hjs⟩ := (hmem₂ j).mp hj
        obtain ⟨hsa, hjf⟩ := (hmem₁ j).mp hj₁
        exact .inl ⟨List.mem_append.mp hsa, hjs, fun hjr => by
          by_contra hn; exact hjf ((mem_filter_removed e).mpr ⟨hjr, hn⟩)⟩
      · exact .inr ⟨hj, hres j hj⟩
  -- the executor that `updateStates` hands to `newCheck2Offload` has this skeleton
  have hk : ({ e₄ with removedStates := [] } : Executor).skel = ⟨e₄.linkView, e.nextId,
      ⟨e₄.states, v₂ ++ e.resumedStates, [], [], [], [], [], e.idLists.indexed ++ l'⟩⟩ := by
    show Skel.mk e₄.linkView e₄.nextId ⟨e₄.states, e₄.searcher, e₄.addedStates, [],
      e₄.suspendedStates, e₄.resumedStates, e₄.rangingSuspendedStates,
      e₄.prefixSuspendedStatesMap.map Prod.snd⟩ = _
    have hse : e₄.searcher = e₂.searcher := congrArg IdLists.searcher hls₄
    have hsu : e₄.suspendedStates = e₂.suspendedStates := congrArg IdLists.suspended hls₄
    have hre : e₄.resumedStates = e₂.resumedStates := congrArg IdLists.resumed hls₄
    have hin :
        e₄.prefixSuspendedStatesMap.map Prod.snd = e₂.prefixSuspendedStatesMap.map Prod.snd :=
      congrArg IdLists.indexed hls₄
    have hse₂ : e₂.searcher = v₂ ++ e.resumedStates := congrArg IdLists.searcher hls₂
    have hsu₂ : e₂.suspendedStates = [] := congrArg IdLists.suspended hls₂
    have hre₂ : e₂.resumedStates = [] := congrArg IdLists.resumed hls₂
    have hin₂ : e₂.prefixSuspendedStatesMap.map Prod.snd = e.idLists.indexed ++ l' :=
      congrArg IdLists.indexed hls₂
    rw [hn₄.trans hn₂, hse, hse₂, hsu, hsu₂, hre, hre₂, hin, hin₂,
      show e₄.addedStates = [] from congrArg IdLists.added hls₄,
      show e₄.rangingSuspendedStates = [] from congrArg IdLists.ranging hls₄]
  rw [← hk] at hinv
  split at h
  · exact inv_newCheck2Offload hinv h
  · cases h; exact hinv.of_false _

/-- A turn of the inner loop, from the invariant between moves of a node that has not
halted: the master halts at its bound of states, a worker prunes the selected state past the
depth bound, and otherwise the selected state executes an instruction. -/
theorem inv_runStep {instr : Instr} {mbs : Nat} {picks : List Nat} {incoming : Option Tag}
    {e' : Executor} {sent : List Message} (hi : e.skel.Inv false)
    (h : e.runStep instr mbs picks incoming = some (e', sent)) : e'.skel.Inv e'.haltExecution := by
  rw [runStep] at h
  obtain ⟨sel, hsel, h⟩ := Option.bind_eq_some.mp h
  obtain ⟨s, -, h⟩ := Option.bind_eq_some.mp h
  have hsel := List.mem_of_getLast?_eq_some hsel
  split at h
  · cases h; exact hi.halt
  split at h
  · -- the worker prunes the selected state
    obtain ⟨V, hV, h⟩ := Option.bind_eq_some.mp h
    split at h
    · cases h
    rename_i hs
    cases h
    obtain ⟨hVnd, hVm⟩ :=
      dfsUpdate_spec hV (by simpa using (hi.sched.resolve_left Bool.false_ne_true).1)
    refine (hi.leave (C := [sel]) (fun j hj => ?_) (hi.statesNodup.erase sel) (fun j => ?_) hVnd
      fun j => by simpa using hVm j).of_false _
    · rw [List.mem_singleton.mp hj]; exact (hi.searcher_active hsel).2
    · rw [hi.statesNodup.mem_erase_iff, List.mem_singleton, and_comm]
  · -- the selected state executes an instruction
    obtain ⟨⟨e₁, sent₁⟩, h₁, h⟩ := Option.bind_eq_some.mp h
    obtain ⟨⟨e₃, sent₂⟩, h₃, h⟩ := Option.bind_eq_some.mp h
    have hi₃ := inv_updateStates
      (mid_checkMemoryUsage mbs picks
        (mid_executeInstruction (e := e.stepInstruction) hi hsel h₁)) h₃
    dsimp only at h
    generalize hp : e₃.updateOffloadReadiness = p at h
    obtain ⟨e₄, sent₃⟩ := p
    cases h
    obtain ⟨hsk, hhalt⟩ := skel_updateOffloadReadiness e₃
    rw [hp] at hsk hhalt
    dsimp only at hsk hhalt
    show e₄.skel.Inv e₄.haltExecution
    rw [hsk, hhalt]
    exact hi₃

end Executor

end PChop
