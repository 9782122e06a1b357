import PChop.Verify.ChainCopy

/-!
# The invariant of recovery chains

Stated on the skeleton of an executor (`PChop.Verify.Skeleton`), in two forms.

`Skel.Inv k halted` holds between two moves of the run loop: every recovery state is `Linked`
(`links`); no pointer at or past `nextId` has a state (`fresh`); a suspended normal recovery
state outside `states` has its dependent outside `states` too (`mono`: chain copies and
erased chains are never half in `states`); the per-step buffers are empty; and the states
suspended for ranging or indexed for a prefix task are live, not suspended normal states, and
outside `states`. Unless the node has halted, the searcher holds, once each, states of
`states` that are not suspended normal states (`sched`): a dependent state is never selected.

`Skel.Mid k` holds within a turn, after the instruction and before `updateStates`: its list
part `Skel.Lists` says how the buffers relate to `states` and the searcher, and its link part
exempts the one kind of state a turn unlinks, a recovery state that has exited and is queued
for removal (`links`), and says that a dependent state is queued for removal only with its
recovery state (`removedUp`).
-/

namespace PChop

namespace Skel

variable (k : Skel)

/-- `j` has a state. -/
def Live (j : Nat) : Prop := ∃ L, k.lv j = some L

/-- `j` has a state, and it is not a suspended normal state. -/
def Active (j : Nat) : Prop := ∃ L, k.lv j = some L ∧ L.suspendedNormal = false

/-- A suspended normal recovery state outside `states` has its dependent state outside
`states`. -/
def Mono : Prop :=
  ∀ r R, k.lv r = some R → R.isRecovery = true → R.suspendedNormal = true → r ∉ k.ls.states →
    ∀ d, R.dependentState = some d → d ∉ k.ls.states

/-- The list part of the invariant within a turn. -/
structure Lists : Prop where
  fresh : ∀ j, k.nextId ≤ j → k.lv j = none
  mono : k.Mono
  statesNodup : k.ls.states.Nodup
  statesLive : ∀ j ∈ k.ls.states, k.Live j
  searcherAdded : (k.ls.searcher ++ k.ls.added).Nodup
  searcherOK : ∀ j ∈ k.ls.searcher, j ∈ k.ls.states ∧ (j ∉ k.ls.suspended → k.Active j)
  addedOK : ∀ j ∈ k.ls.added, k.Active j ∧ j ∉ k.ls.states ∧ j ∉ k.ls.removed
  resumedNodup : k.ls.resumed.Nodup
  resumedOK : ∀ j ∈ k.ls.resumed,
    k.Active j ∧ j ∈ k.ls.states ∧ j ∉ k.ls.searcher ∧ j ∉ k.ls.added
  removedLive : ∀ j ∈ k.ls.removed, k.Live j
  rangingNodup : k.ls.ranging.Nodup
  indexedNodup : k.ls.indexed.Nodup
  rangingIndexed : ∀ j ∈ k.ls.ranging, j ∉ k.ls.indexed
  pending : ∀ j ∈ k.ls.ranging ++ k.ls.indexed, k.Active j ∧ j ∉ k.ls.states ∧ j ∉ k.ls.added

/-- A recovery state that has exited within the turn: queued for removal, in `states`, not
a suspended normal state. -/
def Exited (r : Nat) : Prop := r ∈ k.ls.removed ∧ r ∈ k.ls.states ∧ k.Active r

/-- The invariant within a turn. -/
structure Mid extends Lists k : Prop where
  links : LinksWF k.lv k.Exited
  removedUp : ∀ r R, k.lv r = some R → R.isRecovery = true → ∀ d, R.dependentState = some d →
    d ∈ k.ls.removed → r ∈ k.ls.removed

/-- The invariant between two moves of the run loop. -/
structure Inv (halted : Bool) : Prop where
  fresh : ∀ j, k.nextId ≤ j → k.lv j = none
  links : LinksWF k.lv fun _ => False
  mono : k.Mono
  added : k.ls.added = []
  removed : k.ls.removed = []
  suspended : k.ls.suspended = []
  resumed : k.ls.resumed = []
  statesNodup : k.ls.states.Nodup
  statesLive : ∀ j ∈ k.ls.states, k.Live j
  rangingNodup : k.ls.ranging.Nodup
  indexedNodup : k.ls.indexed.Nodup
  rangingIndexed : ∀ j ∈ k.ls.ranging, j ∉ k.ls.indexed
  pending : ∀ j ∈ k.ls.ranging ++ k.ls.indexed, k.Active j ∧ j ∉ k.ls.states
  sched : halted = true ∨
    (k.ls.searcher.Nodup ∧ ∀ j ∈ k.ls.searcher, j ∈ k.ls.states ∧ k.Active j)

variable {k}

theorem Active.live {j : Nat} (h : k.Active j) : k.Live j :=
  let ⟨L, hL, _⟩ := h; ⟨L, hL⟩

/-- An active state is not the suspended normal state `y`. -/
theorem Active.ne {x y : Nat} {Y : Links} (h : k.Active x) (hY : k.lv y = some Y)
    (hsn : Y.suspendedNormal = true) : x ≠ y := by
  rintro rfl
  obtain ⟨L, hL, hL'⟩ := h
  cases hY.symm.trans hL
  simp [hsn] at hL'

/-- A pointer with a state is below `nextId`. -/
theorem lt_of_live (hfresh : ∀ j, k.nextId ≤ j → k.lv j = none) {j : Nat} (h : k.Live j) :
    j < k.nextId := by
  obtain ⟨L, hL⟩ := h
  by_contra hge
  simp [hfresh j (by omega)] at hL

/-- A state that is not a suspended normal state is the dependent of no linked state. -/
theorem Active.not_dep {j r : Nat} {R : Links} (h : k.Active j) (hl : Linked k.lv r R) :
    R.dependentState ≠ some j :=
  hl.dep_ne fun X hX => by obtain ⟨L, hL, hsn⟩ := h; cases hX.symm.trans hL; exact hsn

/-- Between two moves, before a turn: the turn starts from the invariant within a turn. -/
theorem Inv.toMid (hi : k.Inv false) : k.Mid := by
  obtain ⟨hnd, hsch⟩ := hi.sched.resolve_left Bool.false_ne_true
  refine ⟨⟨hi.fresh, hi.mono, hi.statesNodup, hi.statesLive, ?_, ?_, ?_, ?_, ?_, ?_,
    hi.rangingNodup, hi.indexedNodup, hi.rangingIndexed, ?_⟩, ?_, ?_⟩
  · simpa [hi.added] using hnd
  · exact fun j hj => ⟨(hsch j hj).1, fun _ => (hsch j hj).2⟩
  · simp [hi.added]
  · simp [hi.resumed]
  · simp [hi.resumed]
  · simp [hi.removed]
  · exact fun j hj => ⟨(hi.pending j hj).1, (hi.pending j hj).2, by simp [hi.added]⟩
  · exact hi.links.mono fun _ h => h.elim
  · intro r R _ _ d _ hd; simp [hi.removed] at hd

/-! ## Changing the links or one list -/

/-- New link fields that keep every state alive and every active state active, with the
same lists, keep the list part. -/
theorem Lists.transfer {k' : Skel} (h : k.Lists) (hls : k'.ls = k.ls)
    (hfresh : ∀ j, k'.nextId ≤ j → k'.lv j = none) (hmono : k'.Mono)
    (hlive : ∀ j, k.Live j → k'.Live j) (hact : ∀ j, k.Active j → k'.Active j) : k'.Lists := by
  obtain ⟨lv', n', ls'⟩ := k'
  cases hls
  exact ⟨hfresh, hmono, h.statesNodup, fun j hj => hlive j (h.statesLive j hj), h.searcherAdded,
    fun j hj => ⟨(h.searcherOK j hj).1, fun hs => hact j ((h.searcherOK j hj).2 hs)⟩,
    fun j hj => ⟨hact j (h.addedOK j hj).1, (h.addedOK j hj).2⟩, h.resumedNodup,
    fun j hj => ⟨hact j (h.resumedOK j hj).1, (h.resumedOK j hj).2⟩,
    fun j hj => hlive j (h.removedLive j hj), h.rangingNodup, h.indexedNodup, h.rangingIndexed,
    fun j hj => ⟨hact j (h.pending j hj).1, (h.pending j hj).2⟩⟩

/-- A new added state: active, and in no list. -/
theorem Lists.addAdded (h : k.Lists) {x : Nat} (hx : k.Active x) (hxs : x ∉ k.ls.states)
    (hxr : x ∉ k.ls.removed) (hxse : x ∉ k.ls.searcher) (hxa : x ∉ k.ls.added)
    (hxres : x ∉ k.ls.resumed) (hxp : x ∉ k.ls.ranging ++ k.ls.indexed) :
    Lists { k with ls := { k.ls with added := k.ls.added ++ [x] } } where
  __ := h
  searcherAdded := by
    rw [← List.append_assoc]
    exact List.nodup_append.mpr ⟨h.searcherAdded, List.nodup_singleton x, fun a ha hb => by
      rw [List.mem_singleton.mp hb] at ha
      rcases List.mem_append.mp ha with ha | ha
      · exact hxse ha
      · exact hxa ha⟩
  addedOK := fun j hj => by
    rcases List.mem_append.mp hj with hj | hj
    · exact h.addedOK j hj
    · rw [List.mem_singleton.mp hj]; exact ⟨hx, hxs, hxr⟩
  resumedOK := fun j hj => by
    refine ⟨(h.resumedOK j hj).1, (h.resumedOK j hj).2.1, (h.resumedOK j hj).2.2.1, ?_⟩
    simp only [List.mem_append, List.mem_singleton, not_or]
    exact ⟨(h.resumedOK j hj).2.2.2, fun hjx => hxres (hjx ▸ hj)⟩
  pending := fun j hj => by
    refine ⟨(h.pending j hj).1, (h.pending j hj).2.1, ?_⟩
    simp only [List.mem_append, List.mem_singleton, not_or]
    exact ⟨(h.pending j hj).2.2, fun hjx => hxp (hjx ▸ hj)⟩

/-- A resumed state of `states`: active, not in the searcher and not added. -/
theorem Lists.addResumed (h : k.Lists) {x : Nat} (hx : k.Active x) (hxs : x ∈ k.ls.states)
    (hxse : x ∉ k.ls.searcher) (hxa : x ∉ k.ls.added) (hxres : x ∉ k.ls.resumed) :
    Lists { k with ls := { k.ls with resumed := k.ls.resumed ++ [x] } } where
  __ := h
  resumedNodup := List.nodup_append.mpr ⟨h.resumedNodup, List.nodup_singleton x,
    fun a ha hb => by rw [List.mem_singleton.mp hb] at ha; exact hxres ha⟩
  resumedOK := fun j hj => by
    rcases List.mem_append.mp hj with hj | hj
    · exact h.resumedOK j hj
    · rw [List.mem_singleton.mp hj]; exact ⟨hx, hxs, hxse, hxa⟩

end Skel

end PChop
