import PChop.Verify.ForkHistories

/-!
# Branch histories along a run

The history invariant `HistOK` through a turn of the inner loop (`histOK_executeInstruction`,
`histOK_updateStates`, `histOK_runStep`), the handler of a prefix task and every move of a node
(`Node.histOK_next`), and so in every configuration a node reaches (`Reachable.histOK`). The
selected state of a turn is active, so no recovery state depends on it, and every recovery
state is linked, so it is the one recovery state of its dependent state: both come from the
skeleton invariant `Skel.Inv`.

From the invariant, what the branches, the loads and the exits of a turn do to the histories
(`fork_branchHist`, `branch_branchHist`, `executeLoad_branchHist`,
`onRecoveryStateExit_branchHist`), the alignment of depths and histories in every reachable
configuration (`branchHist_aligned`), and the codes of the cases of a multi-way branch
(`branch_cases_unaryCode`).
-/

namespace PChop

open ExecutionState (HistView)

namespace Executor

variable {e : Executor}

/-! ## What the skeleton invariant gives -/

theorem linked_of_inv {halted : Bool} (hinv : e.skel.Inv halted) {r : Nat} {R : ExecutionState}
    (hr : e.heap r = some R) (hrec : R.isRecoveryState = true) : Linked e.skel.lv r R.links :=
  (hinv.links r R.links (by simp [skel, linkView, hr]) hrec).resolve_left fun h => h

/-- Between two moves, each recovery state is the one recovery state of its dependent state. -/
theorem soleDeps_of_inv {halted : Bool} (hinv : e.skel.Inv halted) : e.SoleDeps := by
  intro r R d hr hrec hd
  have hl := linked_of_inv hinv hr hrec
  refine ⟨fun hrd => hl.dep_ne_self (by simp [skel, linkView, hr]) hrec (hrd ▸ hd),
    fun r' R' hr' hrec' hd' => (hl.unique (linked_of_inv hinv hr' hrec') hd hd').symm⟩

/-- No recovery state depends on an active state. -/
theorem notDep_of_active {halted : Bool} (hinv : e.skel.Inv halted) {x : Nat}
    (hx : e.skel.Active x) : e.NotDep x :=
  fun _ _ hr hrec hd => hx.not_dep (linked_of_inv hinv hr hrec) hd

/-- Within a turn in which no state is queued for removal, no recovery state depends on an
active state either. -/
theorem notDep_of_mid (hm : e.skel.Mid) (hrem : e.removedStates = []) {x : Nat}
    (hx : e.skel.Active x) : e.NotDep x := fun r s hr hrec hd =>
  hx.not_dep ((hm.links r s.links (by simp [skel, linkView, hr]) hrec).resolve_left fun hex =>
    absurd (show r ∈ e.removedStates from hex.1) (by simp [hrem])) hd

/-! ## One instruction -/

/-- The loop over the resolutions of an address keeps the invariant: each fork is on a known
active state, which no recovery state depends on. -/
theorem histOK_resolveStates (hi : e.Inert) (hinv : e.skel.Inv false) (h : HistOK e.views)
    {cur : Nat} (hsel : cur ∈ e.searcher) {fis : List ForkInput} {e' : Executor}
    {u : Option Nat} (he : resolveStates fis e cur = some (e', u)) :
    Tracks e e' ∧ HistOK e'.views ∧ ∀ x, u = some x → e'.Known e x := by
  obtain ⟨hq, hu⟩ := resolveStates_induct
    (fun E x => Tracks e E ∧ E.Known e x ∧ HistOK E.views ∧ E.skel.Mid ∧
      E.removedStates = [] ∧ E.skel.Active x)
    (fun E => Tracks e E ∧ HistOK E.views) (fun _ _ h => ⟨h.1, h.2.2.1⟩)
    (fun _ _ _ _ _ _ ⟨ht, hx, h, hm, hr, ha⟩ hf => by
      obtain ⟨ht', hk'⟩ := ht.fork hx hf
      have h' := (histOK_fork hi ht h hx (notDep_of_mid hm hr ha) hf).1
      obtain ⟨hm', ha'⟩ := mid_fork hm ha (by simp [hr]) hf
      exact ⟨⟨ht', h'⟩, fun y hy =>
        ⟨ht', hk' y hy, h', hm', (ha' y hy).2.trans hr, (ha' y hy).1⟩⟩)
    fis e cur ⟨Tracks.refl e, .inl (Named.of_searcher e hsel), h, hinv.toMid, hinv.removed,
      (hinv.searcher_active hsel).2⟩ he
  exact ⟨hq.1, hq.2, fun x hx => (hu x hx).2.1⟩

theorem histOK_executeInstruction (hi : e.Inert) (hinv : e.skel.Inv false) (h : HistOK e.views)
    {id : Nat} (hsel : id ∈ e.searcher) {instr : Instr} {r : Executor × List Message}
    (he : e.executeInstruction id instr = some r) : HistOK r.1.views := by
  have hid := Named.of_searcher e hsel
  have hnd := notDep_of_active hinv (hinv.searcher_active hsel).2
  cases instr with
  | plain => cases he; exact h
  | fork fi =>
    obtain ⟨⟨e₁, t, f⟩, h₁, rfl⟩ := Option.map_eq_some'.mp he
    exact (histOK_fork hi (Tracks.refl e) h (.inl hid) hnd h₁).1
  | switch conditions rng =>
    obtain ⟨⟨e₁, res⟩, h₁, rfl⟩ := Option.map_eq_some'.mp he
    exact (histOK_branch hi h hid hnd h₁).1
  | call f hasSideEffects =>
    obtain ⟨e₁, h₁, rfl⟩ := Option.map_eq_some'.mp he
    exact histOK_executeSkippedCall hi h hid h₁
  | load mayBlock hasUses address size mods =>
    obtain ⟨e₁, h₁, rfl⟩ := Option.map_eq_some'.mp he
    exact (histOK_executeLoad hi h hid h₁).1
  | store address v mayOverride =>
    obtain ⟨e₁, h₁, rfl⟩ := Option.map_eq_some'.mp he
    show HistOK e₁.views
    rw [views_executeStore h₁]
    exact h
  | exit => cases he; exact histOK_terminateStateOrChain hi (Tracks.refl e) (.inl hid) h
  | error termReason message lastInst file line =>
    cases he
    exact histOK_terminateStateOnError hi (Tracks.refl e) h (.inl hid) termReason message lastInst
      file line
  | early => cases he; exact histOK_terminateStateOrChain hi (Tracks.refl e) (.inl hid) h
  | recoveryExit =>
    simp only [Executor.executeInstruction] at he
    split at he
    · rename_i s hs'
      split at he
      · obtain ⟨e₁, h₁, rfl⟩ := Option.map_eq_some'.mp he
        exact (histOK_onRecoveryStateExit hi h (soleDeps_of_inv hinv) hid
          (fun R hR => by rw [hs'] at hR; cases hR; assumption) h₁).1
      · cases he; exact h
    · cases he
  | resolve fis incomplete lastInst file line =>
    obtain ⟨e₁, u, h₁, hr⟩ := executeResolution_cases _ he
    obtain ⟨ht, hH, hu⟩ := histOK_resolveStates hi hinv h hsel h₁
    rcases hr with ⟨-, rfl⟩ | ⟨x, rfl, ⟨-, rfl⟩ | ⟨-, rfl⟩⟩
    · exact hH
    · exact histOK_terminateStateOrChain hi ht (hu x rfl) hH
    · exact histOK_terminateStateOnError hi ht hH (hu x rfl) _ _ _ _ _

/-! ## The end of a turn -/

theorem views_indexSuspended (id : Nat) :
    (e.indexSuspended id).views = e.views ∧ (e.indexSuspended id).states = e.states := by
  unfold Executor.indexSuspended
  exact ⟨views_modifyState e id fun _ => rfl, by rw [modifyState_eq]⟩

theorem views_foldl_indexSuspended : ∀ (l : List Nat) (e : Executor),
    (l.foldl Executor.indexSuspended e).views = e.views ∧
      (l.foldl Executor.indexSuspended e).states = e.states
  | [], _ => ⟨rfl, rfl⟩
  | id :: l, e => by
    obtain ⟨hv, hs⟩ := views_indexSuspended (e := e) id
    rw [List.foldl_cons, (views_foldl_indexSuspended l _).1, (views_foldl_indexSuspended l _).2,
      hv, hs]
    exact ⟨rfl, rfl⟩

/-- A removed state leaves the heap: nothing it owned is pointed to by a snapshot. -/
theorem histOK_removeState (h : HistOK e.views)
    (hst : ∀ x ∈ e.states, ∀ j v, e.views j = some v → ∀ sn ∈ v.snapshots, sn.state ≠ x)
    {es : Nat} {e' : Executor} (he : e.removeState es = some e') :
    HistOK e'.views ∧ ∀ x ∈ e'.states, ∀ j v, e'.views j = some v →
      ∀ sn ∈ v.snapshots, sn.state ≠ x := by
  unfold Executor.removeState at he
  split at he
  · rename_i hes
    cases he
    rw [views_deleteState]
    show HistOK (Function.update e.views es none) ∧ ∀ x ∈ e.states.erase es, ∀ j v,
      Function.update e.views es none j = some v → ∀ sn ∈ v.snapshots, sn.state ≠ x
    refine ⟨h.erase (hst es hes), fun x hx j v hv => hst x (List.mem_of_mem_erase hx) j v ?_⟩
    by_cases hj : j = es
    · subst hj; simp at hv
    · rwa [Function.update_noteq hj] at hv
  · split at he
    · split at he
      · cases he; exact ⟨h, hst⟩
      · cases he
    · cases he

theorem views_newCheck2Offload {incoming : Option Tag} {r : Executor × List Message}
    (he : e.newCheck2Offload incoming = some r) : r.1.views = e.views := by
  unfold Executor.newCheck2Offload at he
  split at he
  · dsimp only at he
    split at he
    · cases he; rfl
    · obtain ⟨V, -, he⟩ := Option.bind_eq_some.mp he
      obtain ⟨S, -, he⟩ := Option.bind_eq_some.mp he
      cases he; rfl
  · cases he; rfl
  · cases he; rfl

/-- `updateStates` only removes states of `states`, which no snapshot points to. -/
theorem histOK_updateStates (hi : e.Inert) (h : HistOK e.views) {incoming : Option Tag}
    {r : Executor × List Message} (he : e.updateStates incoming = some r) : HistOK r.1.views := by
  rw [Executor.updateStates] at he
  obtain ⟨v₁, -, he⟩ := Option.bind_eq_some.mp he
  obtain ⟨v₂, -, he⟩ := Option.bind_eq_some.mp he
  obtain ⟨v₃, -, he⟩ := Option.bind_eq_some.mp he
  dsimp only at he
  obtain ⟨hv₂, hs₂⟩ := views_foldl_indexSuspended e.rangingSuspendedStates { e with
    searcher := v₃, suspendedStates := [], resumedStates := [],
    states := e.addedStates.foldl insertState e.states }
  generalize e.rangingSuspendedStates.foldl Executor.indexSuspended _ = e₂ at he hv₂ hs₂
  obtain ⟨e₄, h₄, he⟩ := Option.bind_eq_some.mp he
  have hE₄ := foldlM_invariant (fun E : Executor => HistOK E.views ∧ ∀ x ∈ E.states, ∀ j v,
      E.views j = some v → ∀ sn ∈ v.snapshots, sn.state ≠ x)
    (fun _ _ _ hr hp => histOK_removeState hp.1 hp.2 hr) _ _ _ h₄ ⟨hv₂ ▸ h, fun x hx => ?_⟩
  · split at he
    · rw [views_newCheck2Offload he]; exact hE₄.1
    · cases he; exact hE₄.1
  · -- a state of `states` after the turn was in `states` or added
    change x ∈ e₂.states at hx
    rw [hs₂] at hx
    intro j v hv
    have hv' : e.views j = some v := (congrFun hv₂ j).symm.trans hv
    rcases (mem_foldl_insertState _ _ _).mp hx with hx | hx
    · exact hi.not_snap (Named.of_states e hx) j v hv'
    · exact hi.not_snap (Named.of_added e hx) j v hv'

theorem views_updateOffloadReadiness : e.updateOffloadReadiness.1.views = e.views := by
  unfold updateOffloadReadiness
  split_ifs <;> rfl

/-- The selected state of a turn is in the searcher, so it is named, and active, so no recovery
state depends on it; counting the instruction keeps the names. -/
theorem stepInstruction_selected (hi : e.Inert) (hinv : e.skel.Inv false) {cur : Nat}
    (hcur : cur ∈ e.searcher) :
    e.stepInstruction.Inert ∧ e.stepInstruction.Named cur ∧ e.stepInstruction.NotDep cur ∧
      e.stepInstruction.SoleDeps :=
  ⟨hi.tracks ((Tracks.refl e).of_lists rfl rfl fun _ hj => .inl hj), Named.of_searcher e hcur,
    notDep_of_active hinv ((hinv.sched.resolve_left Bool.false_ne_true).2 cur hcur).2,
    soleDeps_of_inv hinv⟩

/-- A turn of the inner loop keeps the invariant. -/
theorem histOK_runStep (hi : e.Inert) (hinv : e.skel.Inv false) (h : HistOK e.views)
    {instr : Instr} {mbs : Nat} {picks : List Nat} {incoming : Option Tag}
    {r : Executor × List Message} (he : e.runStep instr mbs picks incoming = some r) :
    HistOK r.1.views := by
  rw [Executor.runStep] at he
  obtain ⟨sel, hsel, he⟩ := Option.bind_eq_some.mp he
  obtain ⟨s, -, he⟩ := Option.bind_eq_some.mp he
  have hmem := List.mem_of_getLast?_eq_some hsel
  split at he
  · cases he; exact h
  split at he
  · -- the worker prunes the selected state and keeps the heap
    obtain ⟨V, -, he⟩ := Option.bind_eq_some.mp he
    split at he
    · cases he
    cases he; exact h
  · obtain ⟨⟨e₁, sent₁⟩, h₁, he⟩ := Option.bind_eq_some.mp he
    obtain ⟨⟨e₃, sent₂⟩, h₃, he⟩ := Option.bind_eq_some.mp he
    obtain ⟨hi₀, hid, -, -⟩ := stepInstruction_selected hi hinv hmem
    have hv₁ : HistOK e₁.views := histOK_executeInstruction hi₀ hinv h hmem h₁
    have hi₁ : e₁.Inert := hi₀.executeInstruction hid h₁
    have hv₃ : HistOK e₃.views := histOK_updateStates
      (hi₁.tracks ((Tracks.refl e₁).checkMemoryUsage mbs picks))
      (histOK_checkMemoryUsage hi₁ hv₁ mbs picks) h₃
    dsimp only at he
    cases he
    show HistOK e₃.updateOffloadReadiness.1.views
    rw [views_updateOffloadReadiness]
    exact hv₃

/-! ## A prefix task -/

theorem views_startPrefixTask {msg : List Char} {e' : Executor}
    (he : e.startPrefixTask msg = some e') : e'.views = e.views := by
  rw [Executor.startPrefixTask] at he
  obtain ⟨⟨e₁, resumed⟩, h₁, he⟩ := Option.bind_eq_some.mp he
  have hv₁ : e₁.views = e.views := by
    refine foldlM_invariant (fun p : Executor × List (Nat × List Char) => p.1.views = e.views)
      (fun ⟨e₂, _⟩ recvP ⟨e₃, _⟩ hr hp => ?_) _ _ _ h₁ rfl
    simp only [Executor.resumePrefix, Option.bind_eq_bind'] at hr
    obtain ⟨⟨path, id⟩, -, hr⟩ := Option.bind_eq_some.mp hr
    cases hr
    exact (views_modifyState e₂ id (f := fun s => s.addPrefix recvP recvP.length)
      fun _ => rfl).trans hp
  dsimp only at he
  obtain ⟨V, -, he⟩ := Option.bind_eq_some.mp he
  cases he
  exact hv₁

/-! ## What a turn does to the histories -/

theorem depth_eq_length (h : HistOK e.views) {j : Nat} {s : ExecutionState}
    (hs : e.heap j = some s) : s.depth = s.branchHist.length :=
  h.depth j _ (views_of_heap e hs)

section Turn

variable (hi : e.Inert) (hinv : e.skel.Inv false) (h : HistOK e.views) {cur : Nat}
  (hcur : cur ∈ e.searcher) {C : ExecutionState} (hC : e.heap cur = some C)
include hi hinv h hcur hC

/-- A two-way branch of the selected state: each state it continues in has one more character
in its history and one more level of depth, or, for an internal fork, neither. -/
theorem fork_branchHist {fi : ForkInput} {e' : Executor} {t f : Option Nat}
    (he : e.stepInstruction.fork cur fi = some (e', t, f)) {x : Nat} (hx : t = some x ∨ f = some x) :
    ∃ X c, e'.heap x = some X ∧
      X.branchHist = C.branchHist ++ (if fi.isInternal then [] else [c]) ∧
      X.depth = C.depth + (if fi.isInternal then 0 else 1) := by
  obtain ⟨hi₀, hid, hnd, -⟩ := stepInstruction_selected hi hinv hcur
  obtain ⟨h', hres⟩ := histOK_fork hi₀ (Tracks.refl _) h (.inl hid) hnd he
  obtain ⟨C', X', hC', hX', c, hXh⟩ := hres x hx
  rw [show e.stepInstruction.views cur = some C.histView from views_of_heap e hC] at hC'
  cases hC'
  obtain ⟨X, hX, rfl⟩ := views_eq_some e' hX'
  refine ⟨X, c, hX, hXh, ?_⟩
  rw [depth_eq_length h' hX, depth_eq_length h hC, show X.branchHist = C.branchHist ++ _ from hXh]
  split <;> simp

/-- A multi-way branch of the selected state: each of its cases extends the history, one
character per level of depth. -/
theorem branch_branchHist {conditions : List Expr} {rng : Nat} {e' : Executor}
    {result : List (Option Nat)} (he : e.stepInstruction.branch cur conditions rng = some (e', result))
    {x : Nat} (hx : some x ∈ result) :
    ∃ X w, e'.heap x = some X ∧ X.branchHist = C.branchHist ++ w ∧ X.depth = C.depth + w.length := by
  obtain ⟨hi₀, hid, hnd, -⟩ := stepInstruction_selected hi hinv hcur
  obtain ⟨h', C', hC', hres⟩ := histOK_branch hi₀ h hid hnd he
  rw [show e.stepInstruction.views cur = some C.histView from views_of_heap e hC] at hC'
  cases hC'
  obtain ⟨X', hX', w, hw⟩ := hres x hx
  obtain ⟨X, hX, rfl⟩ := views_eq_some e' hX'
  refine ⟨X, w, hX, hw.symm, ?_⟩
  rw [depth_eq_length h' hX, depth_eq_length h hC, ← show C.branchHist ++ w = X.branchHist from hw,
    List.length_append]

/-- A load of the selected state either starts no recovery state, or starts one with the
history and the depth of the selected state. -/
theorem executeLoad_branchHist {mayBlock hasUses : Bool} {address size : Nat}
    {mods : List (Nat × Nat)} {e' : Executor}
    (he : e.stepInstruction.executeLoad cur mayBlock hasUses address size mods = some e') :
    e'.nextId = e.nextId ∨ e'.nextId = e.nextId + 1 ∧ ∃ X, e'.heap e.nextId = some X ∧
      X.branchHist = C.branchHist ∧ X.depth = C.depth := by
  obtain ⟨hi₀, hid, -, -⟩ := stepInstruction_selected hi hinv hcur
  obtain ⟨-, hn | ⟨hn, C', X', hC', hX', hXh, hXd⟩⟩ := histOK_executeLoad hi₀ h hid he
  · exact .inl hn
  rw [show e.stepInstruction.views cur = some C.histView from views_of_heap e hC] at hC'
  cases hC'
  obtain ⟨X, hX, rfl⟩ := views_eq_some e' hX'
  exact .inr ⟨hn, X, hX, hXh, hXd⟩

/-- The exit of the selected recovery state: its dependent state, and the next recovery state
when one starts, take its history and its depth. -/
theorem onRecoveryStateExit_branchHist (hrec : C.isRecoveryState = true) {e' : Executor}
    (he : e.stepInstruction.onRecoveryStateExit cur = some e') :
    ∃ d, C.dependentState = some d ∧
      (∃ D, e'.heap d = some D ∧ D.branchHist = C.branchHist ∧ D.depth = C.depth) ∧
      (e'.nextId = e.nextId ∨ e'.nextId = e.nextId + 1 ∧ ∃ X, e'.heap e.nextId = some X ∧
        X.branchHist = C.branchHist ∧ X.depth = C.depth) := by
  obtain ⟨hi₀, hid, -, hs⟩ := stepInstruction_selected hi hinv hcur
  obtain ⟨-, R, d, hR, hd, ⟨D', hD', hDh, hDd⟩, hnew⟩ :=
    histOK_onRecoveryStateExit hi₀ h hs hid (fun R hR => by cases hR.symm.trans hC; exact hrec) he
  cases hR.symm.trans hC
  obtain ⟨D, hD, rfl⟩ := views_eq_some e' hD'
  refine ⟨d, hd, ⟨D, hD, hDh, hDd⟩, hnew.imp_right fun ⟨hn, X', hX', hXh, hXd⟩ => ?_⟩
  obtain ⟨X, hX, rfl⟩ := views_eq_some e' hX'
  exact ⟨hn, X, hX, hXh, hXd⟩

end Turn

end Executor

namespace Node

/-- The initial state has an empty history and holds no snapshot. -/
theorem histOK_init (opts : Options) (upperBound : List Char) (prefixDepth : Nat) :
    HistOK (init opts upperBound prefixDepth).e.views := by
  have h0 : ∀ j v, (init opts upperBound prefixDepth).e.views j = some v →
      v = ({} : ExecutionState).histView := by
    intro j v hv
    simp only [Executor.views, init] at hv
    split at hv
    · cases hv; rfl
    · cases hv
  refine ⟨fun j v hv => ?_, fun r R d D hr hrec => ?_, fun j v hv => ?_, fun j v hv => ?_⟩
  · rw [h0 _ _ hv]; rfl
  · rw [h0 _ _ hr] at hrec; exact absurd hrec (by decide)
  · rw [h0 _ _ hv]; exact fun _ h => absurd h (List.not_mem_nil _)
  · rw [h0 _ _ hv]; exact fun _ h => absurd h (List.not_mem_nil _)

/-- One move of the run loop keeps the invariant; a turn is taken only while the node is not
halted, where the skeleton invariant schedules active states. -/
theorem histOK_next {n n' : Node} {ev : Event} (hi : n.e.Inert)
    (hinv : n.e.skel.Inv n.e.haltExecution) (h : HistOK n.e.views) (hn : n.next ev = some n') :
    HistOK n'.e.views := by
  cases ev with
  | step instr mbs picks incoming =>
    simp only [next] at hn
    split at hn
    · cases hn
    rename_i hg
    obtain ⟨⟨e', sent⟩, h₁, rfl⟩ := Option.map_eq_some'.mp hn
    have hhalt : n.e.haltExecution = false := by simp_all
    rw [hhalt] at hinv
    exact Executor.histOK_runStep hi hinv h h₁
  | finish reply =>
    simp only [next] at hn
    split at hn
    · cases hn
    split at hn
    · cases hn; exact h
    cases reply with
    | KILL => cases hn; exact h
    | START_PREFIX_TASK msg =>
      obtain ⟨e', h₁, rfl⟩ := Option.map_eq_some'.mp hn
      show HistOK e'.views
      rw [Executor.views_startPrefixTask h₁]
      exact h
    | other => cases hn; exact h
  | stop =>
    simp only [next] at hn
    split at hn
    · cases hn
    · cases hn; exact h

end Node

/-- In every configuration a node reaches, the histories agree with the depths, the snapshots
and the recovery states. -/
theorem Reachable.histOK {opts : Options} {upperBound : List Char} {prefixDepth : Nat} {n : Node}
    (h : Reachable (Node.init opts upperBound prefixDepth) n) : HistOK n.e.views := by
  induction h with
  | init => exact Node.histOK_init opts upperBound prefixDepth
  | step _ hr hn ih => exact Node.histOK_next hr.inert hr.inv ih hn

/-- In every configuration a node reaches, the depth of every state is the length of its
history, and the history of a dependent state is a prefix of that of its recovery state, so
`replicateBranchHist` from the recovery state passes its assertion and makes the two agree; the
snapshot states a recovery starts from have prefixes of their owners' histories. In a turn of
the selected state, a two-way branch adds one character and one level to each state it
continues in (an internal fork neither), every case of a multi-way branch extends the history
by as many characters as levels, a load starts a recovery state with the history and the depth
of the loading state, and the exit of a recovery state gives them to its dependent state and to
the next recovery state. -/
theorem branchHist_aligned {opts : Options} {upperBound : List Char} {prefixDepth : Nat}
    {n : Node} (h : Reachable (Node.init opts upperBound prefixDepth) n) :
    (∀ j s, n.e.heap j = some s → s.depth = s.branchHist.length) ∧
    (∀ r R d D, n.e.heap r = some R → R.isRecoveryState = true → R.dependentState = some d →
      n.e.heap d = some D → D.branchHist <+: R.branchHist ∧
        n.e.replicateBranchHist r d = some (n.e.setState d
          { D with branchHist := R.branchHist, depth := R.depth, prefixes := R.prefixes })) ∧
    (∀ j s, n.e.heap j = some s → ∀ sn ∈ s.snapshots,
      ∃ S, n.e.heap sn.state = some S ∧ S.branchHist <+: s.branchHist) ∧
    (n.e.haltExecution = false → ∀ cur ∈ n.e.searcher, ∀ C, n.e.heap cur = some C →
      (∀ fi e' t f x, n.e.stepInstruction.fork cur fi = some (e', t, f) →
        t = some x ∨ f = some x → ∃ X c, e'.heap x = some X ∧
          X.branchHist = C.branchHist ++ (if fi.isInternal then [] else [c]) ∧
          X.depth = C.depth + (if fi.isInternal then 0 else 1)) ∧
      (∀ conditions rng e' result x,
        n.e.stepInstruction.branch cur conditions rng = some (e', result) → some x ∈ result →
        ∃ X w, e'.heap x = some X ∧ X.branchHist = C.branchHist ++ w ∧
          X.depth = C.depth + w.length) ∧
      (∀ mayBlock hasUses address size mods e',
        n.e.stepInstruction.executeLoad cur mayBlock hasUses address size mods = some e' →
        e'.nextId = n.e.nextId ∨ e'.nextId = n.e.nextId + 1 ∧ ∃ X, e'.heap n.e.nextId = some X ∧
          X.branchHist = C.branchHist ∧ X.depth = C.depth) ∧
      (∀ e', C.isRecoveryState = true → n.e.stepInstruction.onRecoveryStateExit cur = some e' →
        ∃ d, C.dependentState = some d ∧
          (∃ D, e'.heap d = some D ∧ D.branchHist = C.branchHist ∧ D.depth = C.depth) ∧
          (e'.nextId = n.e.nextId ∨ e'.nextId = n.e.nextId + 1 ∧ ∃ X,
            e'.heap n.e.nextId = some X ∧ X.branchHist = C.branchHist ∧ X.depth = C.depth))) := by
  have hh := h.histOK
  have hi := h.inert
  refine ⟨fun j s hs => Executor.depth_eq_length hh hs, fun r R d D hr hrec hd hD => ?_,
    fun j s hs sn hsn => ?_, fun hrun cur hcur C hC => ?_⟩
  · have hp : D.branchHist <+: R.branchHist :=
      hh.dep r _ d _ (Executor.views_of_heap _ hr) hrec hd (Executor.views_of_heap _ hD)
    exact ⟨hp, n.e.replicateBranchHist_of_aligned hr hD hp (Executor.depth_eq_length hh hr)
      (Executor.depth_eq_length hh hD)⟩
  · obtain ⟨S, hS, hp⟩ := hh.snap j _ (Executor.views_of_heap _ hs) sn hsn
    obtain ⟨S', hS', rfl⟩ := Executor.views_eq_some _ hS
    exact ⟨S', hS', hp⟩
  · have hinv := h.inv
    rw [hrun] at hinv
    exact ⟨fun _ _ _ _ _ he hx => Executor.fork_branchHist hi hinv hh hcur hC he hx,
      fun _ _ _ _ _ he hx => Executor.branch_branchHist hi hinv hh hcur hC he hx,
      fun _ _ _ _ _ _ he => Executor.executeLoad_branchHist hi hinv hh hcur hC he,
      fun _ hrec he => Executor.onRecoveryStateExit_branchHist hi hinv hh hcur hC hrec he⟩

/-- The master branches on an unknown condition; the new state `1` skips a call of function
`7` and loads from address `100`, which starts the recovery state `3` for it. -/
def branchedRecoveryTrace : List Event :=
  [.step (.fork { condition := .cond 0, isInternal := false, evaluate := some .Unknown,
                  rng := false }) 0 [] none,
   .step (.call 7 true) 0 [] none,
   .step (.load true true 100 1 [(7, 0)]) 0 [] none]

/-- After `branchedRecoveryTrace` the recovery state `3` has the history `1` of its dependent
state `1` as a prefix, and `replicateBranchHist` from it passes its assertion. -/
theorem branchedRecoveryTrace_branchHist_aligned :
    ∃ n R D, Reachable (Node.init masterOptions [] 0) n ∧
      n.e.heap 3 = some R ∧ R.isRecoveryState = true ∧ R.dependentState = some 1 ∧
      n.e.heap 1 = some D ∧ D.branchHist = ['1'] ∧ D.branchHist <+: R.branchHist ∧
      n.e.replicateBranchHist 3 1 = some (n.e.setState 1
        { D with branchHist := R.branchHist, depth := R.depth, prefixes := R.prefixes }) := by
  have h := (Reachable.init : Reachable (Node.init masterOptions [] 0) _).run
    branchedRecoveryTrace rfl
  exact ⟨_, _, _, h, rfl, rfl, rfl, rfl, rfl, (branchHist_aligned h).2.1 3 _ 1 _ rfl rfl rfl rfl⟩

/-- Below `MaxForks`, a multi-way branch of the selected state on `N` conditions returns `N`
cases, the `i`-th with the history of the branching state followed by `unaryCode N i` (`i`
ones and a zero, `N - 1` ones for the last) and as many more levels of depth; no two of these
codes is a prefix of the other. -/
theorem branch_cases_unaryCode {opts : Options} {upperBound : List Char} {prefixDepth : Nat}
    {n : Node} (h : Reachable (Node.init opts upperBound prefixDepth) n)
    (hrun : n.e.haltExecution = false) {cur : Nat} (hcur : cur ∈ n.e.searcher)
    {C : ExecutionState} (hC : n.e.heap cur = some C)
    (hmax : ∀ m, n.e.opts.MaxForks = some m → n.e.forks < m) {conditions : List Expr} {rng : Nat}
    {e' : Executor} {result : List (Option Nat)}
    (he : n.e.stepInstruction.branch cur conditions rng = some (e', result)) :
    result.length = conditions.length ∧
      (∀ i < conditions.length, ∃ x X, result[i]? = some (some x) ∧ e'.heap x = some X ∧
        X.branchHist = C.branchHist ++ unaryCode conditions.length i ∧
        X.depth = C.depth + (unaryCode conditions.length i).length) ∧
      ∀ i < conditions.length, ∀ j < conditions.length, i ≠ j →
        ¬ unaryCode conditions.length i <+: unaryCode conditions.length j := by
  have hh := h.histOK
  have hinv := h.inv
  rw [hrun] at hinv
  obtain ⟨hi₀, hid, hnd, -⟩ := Executor.stepInstruction_selected h.inert hinv hcur
  have h' := (Executor.histOK_branch hi₀ hh hid hnd he).1
  obtain ⟨C', hC', hlen, hcodes⟩ := Executor.branch_unaryCode hi₀ hh hid hnd hmax he
  rw [show n.e.stepInstruction.views cur = some C.histView from Executor.views_of_heap _ hC] at hC'
  cases hC'
  refine ⟨hlen, fun i hi => ?_, fun i hi j hj hij hp => hij (unaryCode_prefix_inj hi hj hp)⟩
  obtain ⟨x, X', hx, hX', hXh⟩ := hcodes i hi
  obtain ⟨X, hX, rfl⟩ := Executor.views_eq_some e' hX'
  refine ⟨x, X, hx, hX, hXh, ?_⟩
  rw [Executor.depth_eq_length h' hX, Executor.depth_eq_length hh hC,
    show X.branchHist = _ from hXh, List.length_append]
  rfl

/-- The master's first state switches on three conditions: the cases take the codes `0`, `10`
and `11`. -/
theorem switch_three_unaryCode : ∃ C e' result, (Node.init masterOptions [] 0).e.heap 0 = some C ∧
    (Node.init masterOptions [] 0).e.stepInstruction.branch 0 [.cond 0, .cond 1, .cond 2] 0 =
      some (e', result) ∧
    result.length = 3 ∧ (∀ i < 3, ∃ x X, result[i]? = some (some x) ∧ e'.heap x = some X ∧
      X.branchHist = C.branchHist ++ unaryCode 3 i ∧ X.depth = C.depth + (unaryCode 3 i).length) ∧
    ∀ i < 3, ∀ j < 3, i ≠ j → ¬ unaryCode 3 i <+: unaryCode 3 j := by
  have h := (Reachable.init : Reachable (Node.init masterOptions [] 0) _)
  obtain ⟨r, hr⟩ : ∃ r, (Node.init masterOptions [] 0).e.stepInstruction.branch 0
      [.cond 0, .cond 1, .cond 2] 0 = some r := ⟨_, rfl⟩
  obtain ⟨C, hC⟩ : ∃ C, (Node.init masterOptions [] 0).e.heap 0 = some C := ⟨_, rfl⟩
  exact ⟨C, r.1, r.2, hC, hr,
    branch_cases_unaryCode h rfl (by decide) hC (fun _ hm => by cases hm) hr⟩

end PChop
