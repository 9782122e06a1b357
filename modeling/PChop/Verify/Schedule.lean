import PChop.Verify.RecoveryChains

/-!
# The searcher loses no state

`Skel.Inv` bounds the searcher from above: unless the node has halted, it holds, once each,
states of `states` that are not suspended normal states. This module bounds it from below:
unless the node has halted, every state of `states` that is not a suspended normal state is
in the searcher (`Skel.Complete`), in every configuration a node reaches
(`Reachable.complete`). The searcher then holds exactly the states of `states` that can run
(`searcher_eq_runnable`).

Within a turn the bound is `Skel.Sched`: an active state of `states` is in the searcher or
waits in `resumedStates`, and a suspended state is a state of the searcher that is no longer
active. Most operations of a turn change nothing the bound reads (`Skel.Frame`): they queue
states for removal, delete added states, allocate fresh ones, and write links that keep the
suspension of every state of `states`. The others are the suspension of the loading state
(`Sched.suspend`), the resumption of a dependent state (`Sched.resume`), and the ranged
switch, after which the selected state leaves the searcher and `states` together
(`Sched.erase`). `updateStates` hands the searcher the added and the resumed states and takes
from it only removed and suspended states (`Sched.settle`).
-/

namespace PChop

namespace Skel

variable (k : Skel)

/-- Unless the node has halted, every state of `states` that is not a suspended normal state
is in the searcher. -/
def Complete (halted : Bool) : Prop :=
  halted = true ∨ ∀ j ∈ k.ls.states, k.Active j → j ∈ k.ls.searcher

/-- The bound within a turn. -/
structure Sched : Prop where
  complete : ∀ j ∈ k.ls.states, k.Active j → j ∈ k.ls.searcher ∨ j ∈ k.ls.resumed
  suspended : ∀ j ∈ k.ls.suspended, j ∈ k.ls.searcher ∧ j ∈ k.ls.states ∧ ¬ k.Active j

/-- `k'` keeps what the bound reads of `k`: the lists `states`, searcher, suspended and resumed,
and no state of `states` becomes active. -/
structure Frame (k' : Skel) : Prop where
  states : k'.ls.states = k.ls.states
  searcher : k'.ls.searcher = k.ls.searcher
  suspended : k'.ls.suspended = k.ls.suspended
  resumed : k'.ls.resumed = k.ls.resumed
  active : ∀ j ∈ k.ls.states, k'.Active j → k.Active j

variable {k}

theorem Frame.refl : k.Frame k := ⟨rfl, rfl, rfl, rfl, fun _ _ h => h⟩

theorem Frame.trans {k₁ k₂ : Skel} (h₁ : k.Frame k₁) (h₂ : k₁.Frame k₂) : k.Frame k₂ :=
  ⟨h₂.states.trans h₁.states, h₂.searcher.trans h₁.searcher, h₂.suspended.trans h₁.suspended,
    h₂.resumed.trans h₁.resumed,
    fun j hj ha => h₁.active j hj (h₂.active j (by rw [h₁.states]; exact hj) ha)⟩

theorem Frame.of_eq {k' : Skel} (h : k' = k) : k.Frame k' := h ▸ Frame.refl

/-- New lists with the four the bound reads, and the same links. -/
theorem Frame.of_lv {k' : Skel} (hlv : k'.lv = k.lv) (hst : k'.ls.states = k.ls.states)
    (hse : k'.ls.searcher = k.ls.searcher) (hsu : k'.ls.suspended = k.ls.suspended)
    (hre : k'.ls.resumed = k.ls.resumed) : k.Frame k' :=
  ⟨hst, hse, hsu, hre, fun j _ ⟨L, hL, hsn⟩ => ⟨L, (congrFun hlv j).symm.trans hL, hsn⟩⟩

/-- Links that agree below `nextId`, with the lists the bound reads. -/
theorem Frame.of_agree (hl : k.Lists) {k' : Skel} (hst : k'.ls.states = k.ls.states)
    (hse : k'.ls.searcher = k.ls.searcher) (hsu : k'.ls.suspended = k.ls.suspended)
    (hre : k'.ls.resumed = k.ls.resumed) (hagree : ∀ j, j < k.nextId → k'.lv j = k.lv j) :
    k.Frame k' :=
  ⟨hst, hse, hsu, hre, fun j hj ⟨L, hL, hsn⟩ =>
    ⟨L, (hagree j (lt_of_live hl.fresh (hl.statesLive j hj))).symm.trans hL, hsn⟩⟩

/-- Deleting a state makes no state active. -/
theorem Frame.delete (x : Nat) (ls : IdLists) (hst : ls.states = k.ls.states)
    (hse : ls.searcher = k.ls.searcher) (hsu : ls.suspended = k.ls.suspended)
    (hre : ls.resumed = k.ls.resumed) : k.Frame ⟨Function.update k.lv x none, k.nextId, ls⟩ :=
  ⟨hst, hse, hsu, hre, fun j _ ⟨L, hL, hsn⟩ => by
    rcases update_eq_some hL with ⟨-, h⟩ | ⟨-, hL⟩
    · cases h
    · exact ⟨L, hL, hsn⟩⟩

/-- A fresh recovery state linked to `d`, which points back to it: the suspension of `d` is
kept. -/
theorem Frame.startRecovery (hl : k.Lists) {d : Nat} {D R : Links} (hD : k.lv d = some D) :
    k.Frame ⟨Function.update (Function.update k.lv k.nextId (some R)) d
        (some { D with recoveryState := some k.nextId }), k.nextId + 1,
      { k.ls with added := k.ls.added ++ [k.nextId] }⟩ :=
  ⟨rfl, rfl, rfl, rfl, fun j hj ⟨L, hL, hsn⟩ => by
    have hjn : j ≠ k.nextId := (lt_of_live hl.fresh (hl.statesLive j hj)).ne
    rcases update_eq_some hL with ⟨rfl, h⟩ | ⟨-, hL⟩
    · cases h; exact ⟨D, hD, hsn⟩
    · rw [Function.update_noteq hjn] at hL; exact ⟨L, hL, hsn⟩⟩

theorem Complete.of_false (hc : k.Complete false) (halted : Bool) : k.Complete halted :=
  .inr (hc.resolve_left Bool.false_ne_true)

/-! ## The bound within a turn -/

/-- At the top of a turn the bound between moves is the bound within the turn. -/
theorem Inv.toSched (hi : k.Inv false) (hc : k.Complete false) : k.Sched :=
  ⟨fun j hj ha => .inl ((hc.resolve_left Bool.false_ne_true) j hj ha),
    fun j hj => by rw [hi.suspended] at hj; cases hj⟩

theorem Sched.frame (hs : k.Sched) {k' : Skel} (hf : k.Frame k') : k'.Sched := by
  refine ⟨fun j hj ha => ?_, fun j hj => ?_⟩
  · rw [hf.states] at hj
    rw [hf.searcher, hf.resumed]
    exact hs.complete j hj (hf.active j hj ha)
  · rw [hf.suspended] at hj
    obtain ⟨h₁, h₂, h₃⟩ := hs.suspended j hj
    exact ⟨hf.searcher ▸ h₁, hf.states ▸ h₂, fun ha => h₃ (hf.active j h₂ ha)⟩

/-- The selected normal state `x` is suspended. -/
theorem Sched.suspend (hs : k.Sched) {x : Nat} {X : Links} (hXn : X.isNormal = true)
    (hxse : x ∈ k.ls.searcher) (hxs : x ∈ k.ls.states) :
    Sched ⟨Function.update k.lv x (some { X with suspendStatus := true }), k.nextId,
      { k.ls with suspended := k.ls.suspended ++ [x] }⟩ := by
  have hnx : ∀ j, Skel.Active ⟨Function.update k.lv x (some { X with suspendStatus := true }),
      k.nextId, { k.ls with suspended := k.ls.suspended ++ [x] }⟩ j → j ≠ x ∧ k.Active j :=
    fun j ⟨L, hL, hsn⟩ => by
      rcases update_eq_some hL with ⟨rfl, h⟩ | ⟨hj, hL⟩
      · cases h; simp [Links.suspendedNormal, hXn] at hsn
      · exact ⟨hj, L, hL, hsn⟩
  refine ⟨fun j hj ha => hs.complete j hj (hnx j ha).2, fun j hj => ?_⟩
  rcases List.mem_append.mp hj with hj | hj
  · obtain ⟨h₁, h₂, h₃⟩ := hs.suspended j hj
    exact ⟨h₁, h₂, fun ha => h₃ (hnx j ha).2⟩
  · rw [List.mem_singleton.mp hj]
    exact ⟨hxse, hxs, fun ha => (hnx x ha).1 rfl⟩

/-- The dependent state `d`, not suspended within the turn, is resumed: it joins
`resumedStates` when it is in `states`. -/
theorem Sched.resume (hs : k.Sched) {d : Nat} {D : Links} (hdsu : d ∉ k.ls.suspended)
    {implicitlyCreated : Bool} (hic : implicitlyCreated = decide (d ∉ k.ls.states)) :
    Sched ⟨Function.update k.lv d (some { D with suspendStatus := false, recoveryState := none }),
      k.nextId, if implicitlyCreated then { k.ls with added := k.ls.added ++ [d] }
        else { k.ls with resumed := k.ls.resumed ++ [d] }⟩ := by
  have hold : ∀ {ls : IdLists} j, j ≠ d → Skel.Active ⟨Function.update k.lv d
      (some { D with suspendStatus := false, recoveryState := none }), k.nextId, ls⟩ j →
      k.Active j := fun j hj ⟨L, hL, hsn⟩ => ⟨L, (Function.update_noteq hj _ _).symm.trans hL, hsn⟩
  subst hic
  by_cases hds : d ∈ k.ls.states
  · simp only [hds, not_true_eq_false, decide_False, Bool.false_eq_true, if_false]
    refine ⟨fun j hj ha => ?_, fun j hj => ?_⟩
    · by_cases hjd : j = d
      · exact .inr (List.mem_append_right _ (List.mem_singleton.mpr hjd))
      · exact (hs.complete j hj (hold j hjd ha)).imp_right (List.mem_append_left _)
    · obtain ⟨h₁, h₂, h₃⟩ := hs.suspended j hj
      exact ⟨h₁, h₂, fun ha => h₃ (hold j (fun h => hdsu (h ▸ hj)) ha)⟩
  · simp only [hds, not_false_eq_true, decide_True, if_true]
    refine ⟨fun j hj ha => hs.complete j hj (hold j (fun h => hds (h ▸ hj)) ha), fun j hj => ?_⟩
    obtain ⟨h₁, h₂, h₃⟩ := hs.suspended j hj
    exact ⟨h₁, h₂, fun ha => h₃ (hold j (fun h => hdsu (h ▸ hj)) ha)⟩

/-- The selected state `cur` leaves the searcher, and it and other states leave `states`,
while no state is suspended. -/
theorem Sched.erase (hs : k.Sched) (hsu : k.ls.suspended = []) {c : Nat} {S V : List Nat}
    (hS : ∀ j ∈ S, j ∈ k.ls.states ∧ j ≠ c) (hV : ∀ j ∈ k.ls.searcher, j ≠ c → j ∈ V) :
    Sched { k with ls := { k.ls with states := S, searcher := V } } :=
  ⟨fun j hj ha => (hs.complete j (hS j hj).1 ha).imp_left (hV j · (hS j hj).2),
    fun j hj => by change j ∈ k.ls.suspended at hj; rw [hsu] at hj; cases hj⟩

/-- What `updateStates` makes of the bound: a state of the new `states` that is active is in
the new searcher, when the searcher takes every added or old state that is neither suspended
nor removed, and every resumed state. -/
theorem Sched.settle (hs : k.Sched) (hl : k.Lists) {lv' : LinkHeap} {S V : List Nat}
    (hlv : ∀ j, j ∉ k.ls.removed → lv' j = k.lv j)
    (hS : ∀ j ∈ S, (j ∈ k.ls.states ∨ j ∈ k.ls.added) ∧ j ∉ k.ls.removed)
    (hV : ∀ j, j ∈ k.ls.searcher ∨ j ∈ k.ls.added → j ∉ k.ls.suspended → j ∉ k.ls.removed →
      j ∈ V)
    (hVr : ∀ j ∈ k.ls.resumed, j ∈ V) :
    ∀ j ∈ S, (∃ L, lv' j = some L ∧ L.suspendedNormal = false) → j ∈ V := by
  intro j hj ⟨L, hL, hsn⟩
  obtain ⟨hsa, hnr⟩ := hS j hj
  have ha : k.Active j := ⟨L, (hlv j hnr).symm.trans hL, hsn⟩
  rcases hsa with hjs | hja
  · rcases hs.complete j hjs ha with hjv | hjr
    · exact hV j (.inl hjv) (fun hsu => (hs.suspended j hsu).2.2 ha) hnr
    · exact hVr j hjr
  · refine hV j (.inr hja) (fun hsu => ?_) hnr
    exact (List.nodup_append.mp hl.searcherAdded).2.2 (hs.suspended j hsu).1 hja

end Skel

/-- A state an update of the DFS searcher does not remove stays in it, whether or not the
searcher has duplicates. -/
theorem mem_dfsUpdate {v added removed v' : List Nat} (h : dfsUpdate v added removed = some v')
    {j : Nat} (hj : j ∈ v ++ added) (hr : j ∉ removed) : j ∈ v' := by
  unfold dfsUpdate at h
  generalize v ++ added = w at h hj
  induction removed generalizing w with
  | nil => cases h; exact hj
  | cons es rest ih =>
    obtain ⟨w₁, h₁, h⟩ := Option.bind_eq_some.mp h
    have hne : j ≠ es := fun h => hr (h ▸ List.mem_cons_self _ _)
    refine ih (fun h' => hr (List.mem_cons_of_mem _ h')) _ h ?_
    dsimp only at h₁
    split at h₁
    · cases h₁
      obtain ⟨l', rfl⟩ := List.getLast?_eq_some_iff.mp ‹_›
      rw [List.dropLast_concat]
      exact (List.mem_append.mp hj).resolve_right (by simpa using hne)
    · split at h₁
      · cases h₁; exact (List.mem_erase_of_ne hne).mpr hj
      · cases h₁

namespace Executor

variable (e : Executor)

/-- A state is active exactly when the heap holds it and it is not a suspended normal state. -/
theorem active_iff {j : Nat} : e.skel.Active j ↔
    ∃ s, e.heap j = some s ∧ (s.isNormalState && s.isSuspended) = false := by
  constructor
  · rintro ⟨L, hL, hsn⟩
    obtain ⟨s, hs, rfl⟩ := Option.map_eq_some'.mp hL
    exact ⟨s, hs, hsn⟩
  · rintro ⟨s, hs, hsn⟩
    exact ⟨s.links, by simp [skel, linkView, hs], hsn⟩

/-! ## Operations that keep the bound -/

/-- Ending a state queues it for removal or deletes it. -/
theorem frame_terminateState (id : Nat) : e.skel.Frame (e.terminateState id).skel := by
  by_cases h : id ∈ e.addedStates
  · rw [skel_terminateState_added e h]; exact Skel.Frame.delete id _ rfl rfl rfl rfl
  · rw [skel_terminateState e h]; exact ⟨rfl, rfl, rfl, rfl, fun _ _ h => h⟩

theorem frame_terminateStateRecursivelyAux : ∀ (fuel : Nat) (e : Executor) (id : Nat),
    e.skel.Frame (terminateStateRecursivelyAux fuel e id).skel
  | 0, _, _ => .refl
  | fuel + 1, e, id => by
    simp only [terminateStateRecursivelyAux]
    split
    · exact (frame_terminateState e id).trans (frame_terminateStateRecursivelyAux fuel _ _)
    · exact frame_terminateState e id

theorem frame_terminateStateOrChain (id : Nat) : e.skel.Frame (e.terminateStateOrChain id).skel := by
  unfold terminateStateOrChain
  split
  · split
    · exact frame_terminateStateRecursivelyAux _ e id
    · exact frame_terminateState e id
  · exact frame_terminateState e id

theorem sched_terminateStateOrChain {e : Executor} {id : Nat} (hs : e.skel.Sched) :
    (e.terminateStateOrChain id).skel.Sched :=
  hs.frame (frame_terminateStateOrChain e id)

theorem frame_killStates : ∀ (toKill : Nat) (arr picks : List Nat) (e : Executor),
    e.skel.Frame (killStates toKill arr picks e).skel
  | 0, _, _, _ => by rw [killStates]; exact .refl
  | _ + 1, [], _, _ => by simp only [killStates]; exact .refl
  | toKill + 1, a :: arr, picks, e => by
    simp only [killStates]
    exact (frame_terminateStateOrChain e _).trans (frame_killStates toKill _ _ _)

theorem frame_checkMemoryUsage (mbs : Nat) (picks : List Nat) :
    e.skel.Frame (e.checkMemoryUsage mbs picks).skel := by
  unfold checkMemoryUsage
  split
  · exact .refl
  · split
    · show e.skel.Frame (Executor.skel (if _ then _ else _))
      split
      · exact frame_killStates _ _ _ e
      · exact .refl
    · exact .refl

variable {e}

/-- A skipped call leaves the skeleton or allocates a fresh state. -/
theorem frame_executeSkippedCall {id f : Nat} {hasSideEffects : Bool} {e' : Executor}
    (hm : e.skel.Mid) (h : e.executeSkippedCall id f hasSideEffects = some e') :
    e.skel.Frame e'.skel := by
  rcases skel_executeSkippedCall e (hm.fresh _ le_rfl) h with h | ⟨L, -, h⟩
  · exact .of_eq h
  · rw [h]
    exact Skel.Frame.of_agree hm.toLists rfl rfl rfl rfl fun j hj =>
      Function.update_noteq (Nat.ne_of_lt hj) _ _

/-- `forkStates` keeps the lists and the states below `nextId`. -/
theorem frame_forkStates {cur : Nat} {fi : ForkInput} {curIsTrue removePrefixes : Bool}
    {e' : Executor} {t f : Nat} (hm : e.skel.Mid) (hact : e.skel.Active cur)
    (hrem : cur ∉ e.removedStates)
    (h : e.forkStates cur fi curIsTrue removePrefixes = some (e', t, f)) :
    e.skel.Frame e'.skel := by
  obtain ⟨-, hls, -, hagree, -⟩ := mid_forkStates hm hact hrem h
  exact Skel.Frame.of_agree hm.toLists (congrArg IdLists.states hls :)
    (congrArg IdLists.searcher hls :) (congrArg IdLists.suspended hls :)
    (congrArg IdLists.resumed hls :) hagree

/-- `fork` on an active state not yet queued. -/
theorem frame_fork {cur : Nat} {fi : ForkInput} {e' : Executor} {t f : Option Nat}
    (hm : e.skel.Mid) (hact : e.skel.Active cur) (hrem : cur ∉ e.removedStates)
    (h : e.fork cur fi = some (e', t, f)) : e.skel.Frame e'.skel := by
  rw [fork] at h
  obtain ⟨s, -, h⟩ := Option.bind_eq_some.mp h
  obtain ⟨dec, -, h⟩ := Option.bind_eq_some.mp h
  split at h
  · cases h; exact frame_terminateStateOrChain e cur
  rename_i res forkAndSuspend
  dsimp only at h
  generalize hfc : e.forcedChoice cur s fi res = p at h
  obtain ⟨e₁, res'⟩ := p
  have hsk₁ : e₁.skel = e.skel := by
    have := skel_forcedChoice e cur s fi res; rw [hfc] at this; exact this
  have hforked : ∀ {E E₂ : Executor} {b r : Bool} {t₁ f₁ : Nat}, E.skel = e.skel →
      E.forkStates cur fi b r = some (E₂, t₁, f₁) → e.skel.Frame E₂.skel := by
    intro E E₂ b r t₁ f₁ hE h₂
    exact hE ▸ frame_forkStates (hE ▸ hm) (hE ▸ hact) (show cur ∉ E.skel.ls.removed from hE ▸ hrem) h₂
  split at h
  · obtain ⟨⟨e₂, t₂, f₂⟩, h₂, h⟩ := Option.bind_eq_some.mp h
    cases h
    exact (hforked hsk₁ h₂).trans ⟨rfl, rfl, rfl, rfl, fun _ _ h => h⟩
  · cases h; exact .of_eq ((skel_followBranch e₁ cur fi '2').trans hsk₁)
  · obtain ⟨⟨e₂, t₂, f₂⟩, h₂, h⟩ := Option.bind_eq_some.mp h
    cases h
    exact (hforked (E := { e₁ with forks := e₁.forks + 1 }) hsk₁ h₂).trans
      ⟨rfl, rfl, rfl, rfl, fun _ _ h => h⟩
  · cases h; exact .of_eq ((skel_followBranch e₁ cur fi '3').trans hsk₁)
  · obtain ⟨⟨e₂, t₂, f₂⟩, h₂, h⟩ := Option.bind_eq_some.mp h
    cases h
    exact (hforked (E := { e₁ with forks := e₁.forks + 1 }) hsk₁ h₂).trans
      ⟨rfl, rfl, rfl, rfl, fun _ _ h => h⟩

/-- The loop over the resolutions of an address. -/
theorem frame_resolveStates {fis : List ForkInput} {cur : Nat} {e' : Executor} {u : Option Nat}
    (hm : e.skel.Mid) (hact : e.skel.Active cur) (hrem : e.removedStates = [])
    (h : resolveStates fis e cur = some (e', u)) : e.skel.Frame e'.skel :=
  (resolveStates_induct
    (fun E x => E.skel.Mid ∧ E.skel.Active x ∧ E.removedStates = [] ∧ e.skel.Frame E.skel)
    (fun E => e.skel.Frame E.skel) (fun _ _ h => h.2.2.2)
    (fun _ _ _ _ _ _ ⟨hm, ha, hr, hf⟩ hf' => by
      have hfr := hf.trans (frame_fork hm ha (by simp [hr]) hf')
      obtain ⟨hm', hx⟩ := mid_fork hm ha (by simp [hr]) hf'
      exact ⟨hfr, fun y hy => ⟨hm', (hx y hy).1, (hx y hy).2.trans hr, hfr⟩⟩)
    fis e cur ⟨hm, hact, hrem, .refl⟩ h).1

/-! ## Instructions of the selected state -/

/-- A load of the selected state: a blocking load starts a recovery state, in `addedStates`,
and suspends the loading state. -/
theorem sched_executeLoad {id : Nat} {mayBlock hasUses : Bool} {address size : Nat}
    {mods : List (Nat × Nat)} {e' : Executor} (hi : e.skel.Inv false) (hc : e.skel.Complete false)
    (hsel : id ∈ e.searcher)
    (h : e.executeLoad id mayBlock hasUses address size mods = some e') : e'.skel.Sched := by
  rcases executeLoad_cases e h with h | ⟨S, ri, e₀, e₁, hS, hSn, h₀, h₁, h⟩
  · rw [h]; exact hi.toSched hc
  have hlv₀ : e₀.linkView = e.linkView := congrArg Skel.lv h₀
  have hn₀ : e₀.nextId = e.nextId := congrArg Skel.nextId h₀
  obtain ⟨D, R, hD, -, -, -, -, -, hsk⟩ :=
    startRecoveryState_spec e₀ (by rw [hlv₀, hn₀]; exact hi.fresh) h₁
  rw [hlv₀] at hD
  cases hS.symm.trans hD
  obtain ⟨hids, L, hL, hLsn⟩ := hi.searcher_active hsel
  cases hS.symm.trans hL
  rcases h with ⟨hsus, -⟩ | rfl
  · simp [Links.suspendedNormal, hSn, hsus] at hLsn
  rw [h₀, hlv₀, hn₀] at hsk
  have hs₁ : e₁.skel.Sched := hsk ▸ (hi.toSched hc).frame (Skel.Frame.startRecovery hi.toMid.toLists hS)
  have hX : e₁.linkView id = some { S with recoveryState := some e.nextId } := by
    have := congrFun (congrArg Skel.lv hsk) id
    simpa using this
  have hls₁ : e₁.idLists = { e.idLists with added := e.idLists.added ++ [e.nextId] } :=
    congrArg Skel.ls hsk
  rw [skel_suspendState, hX, Option.map_some']
  exact hs₁.suspend hSn (by rw [show e₁.skel.ls = _ from hls₁]; exact hsel)
    (by rw [show e₁.skel.ls = _ from hls₁]; exact hids)

/-- The exit of the selected recovery state: the next recovery state starts, or the dependent
state is resumed; the exited state is queued for removal. -/
theorem sched_onRecoveryStateExit {rec : Nat} {e' : Executor} (hi : e.skel.Inv false)
    (hc : e.skel.Complete false) (h : e.onRecoveryStateExit rec = some e') : e'.skel.Sched := by
  simp only [onRecoveryStateExit, Option.bind_eq_bind'] at h
  obtain ⟨r, hr, h⟩ := Option.bind_eq_some.mp h
  obtain ⟨d, hd, h⟩ := Option.bind_eq_some.mp h
  obtain ⟨ds, hds, h⟩ := Option.bind_eq_some.mp h
  have hD : e.linkView d = some ds.links := by simp [linkView, hds]
  split at h
  · rename_i ri rest _
    obtain ⟨e₃, he₃, h⟩ := Option.bind_eq_some.mp h
    obtain ⟨e₁, he₁, h⟩ := Option.bind_eq_some.mp h
    cases h
    have h₃ : e₃.skel = e.skel :=
      (skel_replicateBranchHist _ he₃).trans (skel_setState_of_links e hds rfl)
    have hl₃ : e₃.skel.Lists := h₃ ▸ hi.toMid.toLists
    obtain ⟨D, R, hD₃, -, -, -, -, -, hsk⟩ := startRecoveryState_spec e₃ hl₃.fresh he₁
    have hs₁ : e₁.skel.Sched := hsk ▸ (h₃ ▸ hi.toSched hc).frame (Skel.Frame.startRecovery hl₃ hD₃)
    exact hs₁.frame (frame_terminateState e₁ rec)
  · obtain ⟨e₁, he₁, h⟩ := Option.bind_eq_some.mp h
    cases h
    rw [notifyDependentState] at he₁
    simp only [Option.bind_eq_bind', Option.bind_eq_some] at he₁
    obtain ⟨r', hr', d', hd', he₁⟩ := he₁
    cases hr.symm.trans hr'
    cases hd.symm.trans hd'
    have hs₁ : e₁.skel.Sched := by
      rw [skel_resumeState e he₁, hD, Option.map_some']
      exact (hi.toSched hc).resume (by simp [hi.suspended]) rfl
    exact hs₁.frame (frame_terminateState e₁ rec)

/-- `branch` on the selected state: the copies join `addedStates` or are ranged, and when a
ranging worker follows a copy, the selected state leaves the searcher and `states`. -/
theorem sched_branch {cur : Nat} {conditions : List Expr} {rng : Nat} {e' : Executor}
    {result : List (Option Nat)} (hi : e.skel.Inv false) (hc : e.skel.Complete false)
    (hsel : cur ∈ e.searcher) (h : e.branch cur conditions rng = some (e', result)) :
    e'.skel.Sched := by
  have hs := hi.toSched hc
  have hl := hi.toMid.toLists
  rw [branch] at h
  split at h
  · cases h
  rename_i hN
  obtain ⟨s, hs', h⟩ := Option.bind_eq_some.mp h
  have hC : e.linkView cur = some s.links := by simp [linkView, hs']
  have hend : ∀ {e₁ : Executor} {res : List (Option Nat)},
      (do let e ← branchTail (res.zip conditions) none e₁
          let e ← branchConstraints (res.zip conditions) e
          some (e, res)) = some (e', result) →
      ∃ e₂, branchTail (res.zip conditions) none e₁ = some e₂ ∧ e'.skel = e₂.skel := by
    intro e₁ res h
    obtain ⟨e₂, h₂, h⟩ := Option.bind_eq_some.mp h
    obtain ⟨e₃, h₃, h⟩ := Option.bind_eq_some.mp h
    cases h
    exact ⟨e₂, h₂, skel_branchConstraints _ _ _ h₃⟩
  dsimp only at h
  split at h
  · -- after `MaxForks` forks the state follows one case: nothing forks
    obtain ⟨y, hy, h⟩ := Option.bind_eq_some.mp h
    cases hy
    have hlen : ((List.range conditions.length).map fun i =>
        if i = rng % conditions.length then some cur else none).length ≤ conditions.length := by
      simp
    obtain ⟨e₂, h₂, hsk⟩ := hend h
    rw [hsk, branchTail_of_chain _ _ h₂ ?_]
    · exact hs
    rw [List.map_fst_zip _ _ hlen, List.chain'_cons']
    refine ⟨fun _ _ => Or.inl rfl, ?_⟩
    obtain ⟨M, hM⟩ : ∃ M, conditions.length = M + 1 := ⟨conditions.length - 1, by omega⟩
    rw [hM, List.chain'_map, List.chain'_range_succ]
    intro k hk
    by_cases hkr : k = rng % (M + 1)
    · refine Or.inr fun id s' hid _ => ?_
      rw [if_neg (by omega)] at hid; cases hid
    · exact Or.inl (if_neg hkr)
  have hlen : ∀ l : List Nat, l = [cur] ++ List.range' e.nextId (conditions.length - 1) →
      (l.map some).length ≤ conditions.length := by
    rintro l rfl; simp; omega
  have hcurn : cur < e.nextId :=
    Skel.lt_of_live hi.fresh (hi.statesLive cur (hi.searcher_active hsel).1)
  split at h
  · -- on the master, or without a prefix to range: the copies are added states
    obtain ⟨disc, hdisc, h⟩ := Option.bind_eq_some.mp h
    obtain ⟨y, hy, h⟩ := Option.bind_eq_some.mp h
    cases hy
    obtain ⟨hres, hsk₄⟩ := branchCopies_spec _ _ _ _ hdisc ⟨cur, rfl, hC⟩ hi.fresh
    obtain ⟨e₂, h₂, hsk⟩ := hend h
    obtain ⟨hls₂, -, -, hold⟩ := branch_links hi hsel hs' (congrArg Skel.lv hsk₄)
      (congrArg Skel.nextId hsk₄) (by rw [List.map_fst_zip _ _ (hlen _ hres), hres]; rfl) h₂
    have hls := hls₂.trans (congrArg Skel.ls hsk₄)
    rw [hsk]
    exact hs.frame (Skel.Frame.of_agree hl (congrArg IdLists.states hls :)
      (congrArg IdLists.searcher hls :) (congrArg IdLists.suspended hls :)
      (congrArg IdLists.resumed hls :) hold)
  · -- a ranging worker: the cases are ranged against the upper bound
    obtain ⟨disc, hdisc, h⟩ := Option.bind_eq_some.mp h
    obtain ⟨e₅, h₅, h⟩ := Option.bind_eq_some.mp h
    obtain ⟨y, hy, h⟩ := Option.bind_eq_some.mp h
    cases hy
    obtain ⟨hres, hsk₄⟩ := branchCopies_spec _ _ _ _ hdisc ⟨cur, rfl, hC⟩ hi.fresh
    have hls₄ : disc.1.idLists = e.idLists := by simpa using congrArg Skel.ls hsk₄
    rw [hres, List.singleton_append] at h₅
    have hcurnd : (cur :: List.range' e.nextId (conditions.length - 1)).Nodup :=
      List.nodup_cons.mpr ⟨fun hx => by rw [List.mem_range'_1] at hx; omega, List.nodup_range' _ _⟩
    have hst₄ : disc.1.states = e.states := congrArg IdLists.states hls₄
    have hse₄ : disc.1.searcher = e.searcher := congrArg IdLists.searcher hls₄
    obtain ⟨hlv₅, hn₅, hout⟩ := rangeCases_cases disc.1 h₅ hcurnd (hst₄ ▸ hi.statesNodup)
      (hse₄ ▸ (hi.sched.resolve_left Bool.false_ne_true).1)
    obtain ⟨e₂, h₂, hsk⟩ := hend h
    obtain ⟨hls₂, -, -, hold⟩ := branch_links hi hsel hs'
      (hlv₅.trans (congrArg Skel.lv hsk₄)) (hn₅.trans (congrArg Skel.nextId hsk₄))
      (by rw [List.map_fst_zip _ _ (hlen _ hres), hres]; rfl) h₂
    rw [hsk]
    have hs₂ : Skel.Sched ⟨e₂.linkView, e₂.nextId, e.idLists⟩ :=
      hs.frame (Skel.Frame.of_agree hl rfl rfl rfl rfl hold)
    rcases hout with ⟨R, -, -, hls₅⟩ | ⟨R, x, E, -, -, hls₅, -, hVm, -, hSm, hcurE, -, -, -⟩
    · rw [hls₄] at hls₅
      have hls := hls₂.trans hls₅
      exact hs₂.frame (Skel.Frame.of_lv rfl (congrArg IdLists.states hls :)
        (congrArg IdLists.searcher hls :) (congrArg IdLists.suspended hls :)
        (congrArg IdLists.resumed hls :))
    · rw [hls₄] at hls₅
      rw [hst₄] at hSm
      rw [hse₄] at hVm
      have hls := hls₂.trans hls₅
      refine (hs₂.erase hi.suspended (c := cur) (S := e₅.states) (V := e₅.searcher)
        (fun j hj => ⟨((hSm j).mp hj).1, fun hjc => ((hSm j).mp hj).2 (hjc ▸ hcurE)⟩)
        (fun j hj hjc => (hVm j).mpr ⟨hj, hjc⟩)).frame
        (Skel.Frame.of_lv rfl (congrArg IdLists.states hls :) (congrArg IdLists.searcher hls :)
          (congrArg IdLists.suspended hls :) (congrArg IdLists.resumed hls :))

/-- One instruction of the selected state, from the bounds between moves. -/
theorem sched_executeInstruction {id : Nat} {instr : Instr} {e' : Executor}
    {sent : List Message} (hi : e.skel.Inv false) (hc : e.skel.Complete false)
    (hsel : id ∈ e.searcher) (h : e.executeInstruction id instr = some (e', sent)) :
    e'.skel.Sched := by
  have hs := hi.toSched hc
  have hact := (hi.searcher_active hsel).2
  cases instr with
  | plain => cases h; exact hs
  | fork fi =>
    obtain ⟨⟨e₁, t, f⟩, h₁, h⟩ := Option.map_eq_some'.mp h
    cases h
    exact hs.frame (frame_fork hi.toMid hact (hi.not_removed _) h₁)
  | switch conditions rng =>
    obtain ⟨⟨e₁, r⟩, h₁, h⟩ := Option.map_eq_some'.mp h
    cases h; exact sched_branch hi hc hsel h₁
  | call f hasSideEffects =>
    obtain ⟨e₁, h₁, h⟩ := Option.map_eq_some'.mp h
    cases h; exact hs.frame (frame_executeSkippedCall hi.toMid h₁)
  | load mayBlock hasUses address size mods =>
    obtain ⟨e₁, h₁, h⟩ := Option.map_eq_some'.mp h
    cases h; exact sched_executeLoad hi hc hsel h₁
  | store address v mayOverride =>
    obtain ⟨e₁, h₁, h⟩ := Option.map_eq_some'.mp h
    cases h; rw [skel_executeStore e h₁]; exact hs
  | exit => cases h; exact sched_terminateStateOrChain hs
  | error termReason message lastInst file line =>
    obtain rfl := congrArg Prod.fst (Option.some.inj h)
    rw [terminateStateOnError, skel_haltOnError]
    exact sched_terminateStateOrChain hs
  | early => cases h; exact sched_terminateStateOrChain hs
  | recoveryExit =>
    simp only [executeInstruction] at h
    split at h
    · split at h
      · obtain ⟨e₁, h₁, h⟩ := Option.map_eq_some'.mp h
        cases h
        exact sched_onRecoveryStateExit hi hc h₁
      · cases h; exact hs
    · cases h
  | resolve fis incomplete lastInst file line =>
    obtain ⟨e₁, u, h₁, hr⟩ := executeResolution_cases _ h
    have hs₁ := hs.frame (frame_resolveStates hi.toMid hact hi.removed h₁)
    rcases hr with ⟨-, hr⟩ | ⟨x, rfl, ⟨-, hr⟩ | ⟨-, hr⟩⟩
    · cases hr; exact hs₁
    · cases hr; exact sched_terminateStateOrChain hs₁
    · obtain rfl := congrArg Prod.fst hr
      rw [terminateStateOnError, skel_haltOnError]
      exact sched_terminateStateOrChain hs₁

/-! ## The end of a turn -/

/-- The answer to an `OFFLOAD`: the chosen states leave the searcher and `states` together. -/
theorem complete_newCheck2Offload {incoming : Option Tag} {e' : Executor} {sent : List Message}
    (hnd : e.states.Nodup) (hc : e.skel.Complete false)
    (h : e.newCheck2Offload incoming = some (e', sent)) : e'.skel.Complete e'.haltExecution := by
  unfold newCheck2Offload at h
  split at h
  · dsimp only at h
    split at h
    · cases h; exact hc.of_false _
    · obtain ⟨V, hV, h⟩ := Option.bind_eq_some.mp h
      obtain ⟨S, hS, h⟩ := Option.bind_eq_some.mp h
      cases h
      have hSm := (foldlM_erase_spec _ _ S hS hnd).2
      refine .inr fun j hj ha => mem_dfsUpdate hV ?_ ((hSm j).mp hj).2
      rw [List.append_nil]
      exact (hc.resolve_left Bool.false_ne_true) j ((hSm j).mp hj).1 ha
  · cases h; exact .inl rfl
  · cases h; exact hc.of_false _

/-- `updateStates` takes the bound within a turn to the bound between moves. -/
theorem complete_updateStates {incoming : Option Tag} {e' : Executor} {sent : List Message}
    (hm : e.skel.Mid) (hs : e.skel.Sched) (h : e.updateStates incoming = some (e', sent)) :
    e'.skel.Complete e'.haltExecution := by
  rw [updateStates] at h
  obtain ⟨v₁, h₁, h⟩ := Option.bind_eq_some.mp h
  obtain ⟨v₂, h₂, h⟩ := Option.bind_eq_some.mp h
  obtain ⟨v₃, h₃, h⟩ := Option.bind_eq_some.mp h
  rw [foldlM_dfsUpdate_add] at h₃
  cases h₃
  dsimp only at h
  obtain ⟨l', -, hsk₂⟩ := skel_foldl_indexSuspended e.rangingSuspendedStates
    { e with searcher := v₂ ++ e.resumedStates, suspendedStates := [], resumedStates := [],
             states := e.addedStates.foldl insertState e.states }
  generalize e.rangingSuspendedStates.foldl indexSuspended _ = e₂ at hsk₂ h
  obtain ⟨e₄, h₄, h⟩ := Option.bind_eq_some.mp h
  simp only [skel, Skel.mk.injEq] at hsk₂
  obtain ⟨hlv₂, -, hls₂⟩ := hsk₂
  change e₂.linkView = e.linkView at hlv₂
  have hst₂ : e₂.states = e.addedStates.foldl insertState e.states := congrArg IdLists.states hls₂
  have hrm₂ : e₂.removedStates = e.removedStates := congrArg IdLists.removed hls₂
  obtain ⟨hlv₄, -, hls₄, hnd₄, hmem₄, -⟩ := foldlM_removeState_spec _ _ e₄ h₄
    (show e₂.states.Nodup by rw [hst₂]; exact nodup_foldl_insertState _ _ hm.statesNodup)
  have hse₄ : e₄.searcher = v₂ ++ e.resumedStates :=
    (congrArg IdLists.searcher hls₄).trans (congrArg IdLists.searcher hls₂)
  -- the searcher keeps the states that are neither removed nor suspended, and takes the added
  -- and the resumed ones
  obtain ⟨hnd₁, hmem₁⟩ := dfsUpdate_spec h₁ hm.searcherAdded
  have hmem₂ := (foldlM_dfsUpdate_remove _ _ _ h₂ hnd₁).2
  have hc₄ : ∀ j ∈ e₄.states, e₄.skel.Active j → j ∈ e₄.searcher := by
    rw [hse₄]
    refine hs.settle hm.toLists (fun j hj => ?_) (fun j hj => ?_) (fun j hj hsu hr => ?_)
      (fun j hj => List.mem_append_right _ hj)
    · show e₄.linkView j = e.linkView j
      rw [hlv₄ j]
      show (if j ∈ e₂.removedStates ∧ j ∈ e₂.states then none else e₂.linkView j) = _
      rw [hrm₂, if_neg fun h' => hj h'.1, hlv₂]
    · rw [hmem₄, hst₂, hrm₂, mem_foldl_insertState] at hj; exact hj
    · refine List.mem_append_left _ ((hmem₂ j).mpr ⟨(hmem₁ j).mpr ⟨List.mem_append.mpr hj,
        fun hf => hr ((mem_filter_removed e).mp hf).1⟩, hsu⟩)
  have hc₅ : Skel.Complete ({ e₄ with removedStates := [] } : Executor).skel false := .inr hc₄
  split at h
  · exact complete_newCheck2Offload (e := { e₄ with removedStates := [] }) hnd₄ hc₅ h
  · cases h; exact hc₅.of_false _

/-- A turn of the inner loop, from the bounds between moves of a node that has not halted. -/
theorem complete_runStep {instr : Instr} {mbs : Nat} {picks : List Nat} {incoming : Option Tag}
    {e' : Executor} {sent : List Message} (hi : e.skel.Inv false) (hc : e.skel.Complete false)
    (h : e.runStep instr mbs picks incoming = some (e', sent)) :
    e'.skel.Complete e'.haltExecution := by
  rw [runStep] at h
  obtain ⟨sel, hsel, h⟩ := Option.bind_eq_some.mp h
  obtain ⟨s, -, h⟩ := Option.bind_eq_some.mp h
  have hsel := List.mem_of_getLast?_eq_some hsel
  split at h
  · cases h; exact .inl rfl
  split at h
  · -- the worker prunes the selected state from the searcher and `states`
    obtain ⟨V, hV, h⟩ := Option.bind_eq_some.mp h
    split at h
    · cases h
    cases h
    refine .inr fun j hj ha => ?_
    obtain ⟨hjsel, hjs⟩ := hi.statesNodup.mem_erase_iff.mp hj
    exact mem_dfsUpdate hV (List.mem_append_left _
      ((hc.resolve_left Bool.false_ne_true) j hjs ha)) fun h => hjsel (List.mem_singleton.mp h)
  · -- the selected state executes an instruction
    obtain ⟨⟨e₁, sent₁⟩, h₁, h⟩ := Option.bind_eq_some.mp h
    obtain ⟨⟨e₃, sent₂⟩, h₃, h⟩ := Option.bind_eq_some.mp h
    have hm₁ := mid_executeInstruction (e := e.stepInstruction) hi hsel h₁
    have hs₁ := sched_executeInstruction (e := e.stepInstruction) hi hc hsel h₁
    have hc₃ := complete_updateStates (mid_checkMemoryUsage mbs picks hm₁)
      (hs₁.frame (frame_checkMemoryUsage e₁ mbs picks)) h₃
    dsimp only at h
    generalize hp : e₃.updateOffloadReadiness = p at h
    obtain ⟨e₄, sent₃⟩ := p
    cases h
    obtain ⟨hsk, hhalt⟩ := skel_updateOffloadReadiness e₃
    rw [hp] at hsk hhalt
    dsimp only at hsk hhalt
    show e₄.skel.Complete e₄.haltExecution
    rw [hsk, hhalt]
    exact hc₃

/-- `startPrefixTask` hands all of `states` to the searcher. -/
theorem complete_startPrefixTask {msg : List Char} {e' : Executor}
    (h : e.startPrefixTask msg = some e') : e'.skel.Complete e'.haltExecution := by
  rw [startPrefixTask] at h
  obtain ⟨⟨e₁, resumed⟩, -, h⟩ := Option.bind_eq_some.mp h
  dsimp only at h
  obtain ⟨V, hV, h⟩ := Option.bind_eq_some.mp h
  cases h
  refine .inr fun j hj _ => ?_
  rw [← Option.some.inj hV]
  exact List.mem_append_right _ hj

end Executor

namespace Node

/-- One move of the run loop keeps the bound between moves. -/
theorem complete_next {n n' : Node} {ev : Event} (hi : n.e.skel.Inv n.e.haltExecution)
    (hc : n.e.skel.Complete n.e.haltExecution) (h : n.next ev = some n') :
    n'.e.skel.Complete n'.e.haltExecution := by
  cases ev with
  | step instr mbs picks incoming =>
    simp only [next] at h
    split at h
    · cases h
    rename_i hcond
    obtain ⟨⟨e', sent⟩, h₁, rfl⟩ := Option.map_eq_some'.mp h
    have hhalt : n.e.haltExecution = false := by
      simp only [Bool.or_eq_true, not_or] at hcond; simpa using hcond.2
    exact Executor.complete_runStep (hhalt ▸ hi) (hhalt ▸ hc) h₁
  | finish reply =>
    simp only [next] at h
    split at h
    · cases h
    split at h
    · cases h; exact hc
    cases reply with
    | KILL => cases h; exact .inl rfl
    | START_PREFIX_TASK msg =>
      obtain ⟨e', h₁, rfl⟩ := Option.map_eq_some'.mp h
      exact Executor.complete_startPrefixTask h₁
    | other => cases h; exact hc
  | stop =>
    simp only [next] at h
    split at h
    · cases h
    · cases h; exact hc

end Node

/-- In every configuration a node reaches, unless it has halted, every state of `states` that
is not a suspended normal state is in the searcher. -/
theorem Reachable.complete {opts : Options} {upperBound : List Char} {prefixDepth : Nat}
    {n : Node} (h : Reachable (Node.init opts upperBound prefixDepth) n) :
    n.e.skel.Complete n.e.haltExecution := by
  induction h with
  | init => exact .inr fun j hj _ => hj
  | step _ hr hn ih => exact Node.complete_next hr.inv ih hn

/-- In every configuration a node reaches, unless it has halted, the searcher holds, once
each, exactly the states of `states` that are not suspended normal states: the run loop
selects no suspended state and loses no state that can run. -/
theorem searcher_eq_runnable {opts : Options} {upperBound : List Char} {prefixDepth : Nat}
    {n : Node} (h : Reachable (Node.init opts upperBound prefixDepth) n)
    (hh : n.e.haltExecution = false) :
    n.e.searcher.Nodup ∧ ∀ j, j ∈ n.e.searcher ↔
      j ∈ n.e.states ∧ ∃ s, n.e.heap j = some s ∧ (s.isNormalState && s.isSuspended) = false := by
  have hi := h.inv
  have hc := h.complete
  rw [hh] at hi hc
  obtain ⟨hnd, hsched⟩ := hi.sched.resolve_left Bool.false_ne_true
  refine ⟨hnd, fun j => ⟨fun hj => ?_, fun ⟨hjs, hja⟩ => ?_⟩⟩
  · exact ⟨(hsched j hj).1, (n.e.active_iff).mp (hsched j hj).2⟩
  · exact (hc.resolve_left Bool.false_ne_true) j hjs ((n.e.active_iff).mpr hja)

/-- After the master skips a call and starts a recovery state for a blocking load, the
suspended state `0` stays in `states` and leaves the searcher, which holds the recovery
state. -/
theorem searcher_eq_runnable_recoveryTrace : ∃ n, Reachable (Node.init masterOptions [] 0) n ∧
    n.e.haltExecution = false ∧ (n.e.searcher.Nodup ∧ ∀ j, j ∈ n.e.searcher ↔
      j ∈ n.e.states ∧ ∃ s, n.e.heap j = some s ∧ (s.isNormalState && s.isSuspended) = false) := by
  have h := (Reachable.init : Reachable (Node.init masterOptions [] 0) _).run recoveryTrace rfl
  exact ⟨_, h, rfl, searcher_eq_runnable h rfl⟩

end PChop
