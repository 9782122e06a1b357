import PChop.Verify.Step

/-!
# Recovery chains are well formed in every reachable configuration

The invariant between moves (`Skel.Inv`) holds in the configuration `run` starts from
(`Node.inv_init`) and every move keeps it (`Node.inv_next`): a turn of the inner loop
(`Executor.inv_runStep`), the master's `KILL`, and a new prefix task, whose resumed states
come from the index of suspended states (`Executor.inv_startPrefixTask`). So it holds in
every reachable configuration (`Reachable.inv`), and with it the links of every recovery
state and the walk from it to its originating state (`recoveryChains_wellFormed`). The loop of
`terminateStateRecursively` follows that walk and stops at its end, long before the bound of
turns the model gives it (`terminateStateRecursively_walk`).
-/

namespace PChop

namespace Skel

variable {k : Skel}

/-- Indexed states `X` are resumed into `states`, their entries leave the index (`I` keeps
the others), and the searcher becomes `V`. -/
theorem Inv.resumeIndexed {halted : Bool} (hi : k.Inv halted) {X S V I : List Nat}
    (hX : ∀ j ∈ X, j ∈ k.ls.indexed) (hS : S.Nodup)
    (hSm : ∀ j, j ∈ S ↔ j ∈ k.ls.states ∨ j ∈ X)
    (hI : I.Sublist k.ls.indexed) (hIX : ∀ j ∈ I, j ∉ X)
    (hV : halted = true ∨ (V.Nodup ∧ ∀ j ∈ V, j ∈ S ∧ k.Active j)) :
    Inv { k with ls := { k.ls with states := S, searcher := V, indexed := I } } halted := by
  have hXa : ∀ j ∈ X, k.Active j := fun j hj =>
    (hi.pending j (List.mem_append_right _ (hX j hj))).1
  refine ⟨hi.fresh, hi.links, ?mono, hi.added, hi.removed, hi.suspended, hi.resumed, hS,
    ?live, hi.rangingNodup, hI.nodup hi.indexedNodup,
    fun j hj hjI => hi.rangingIndexed j hj (hI.subset hjI), ?pending, hV⟩
  case mono =>
    intro r R hr hrec hsn hrS d hd hdS
    obtain ⟨D, hD, hDsn⟩ := ((hi.links r R hr hrec).resolve_left id).dep_suspendedNormal hd
    rcases (hSm d).mp hdS with hds | hdX
    · exact hi.mono r R hr hrec hsn (fun h => hrS ((hSm r).mpr (.inl h))) d hd hds
    · exact (hXa d hdX).ne hD hDsn rfl
  case live =>
    intro j hj
    rcases (hSm j).mp hj with hj | hj
    · exact hi.statesLive j hj
    · exact (hXa j hj).live
  case pending =>
    intro j hj
    rcases List.mem_append.mp hj with hj | hj
    · have hp := hi.pending j (List.mem_append_left _ hj)
      refine ⟨hp.1, fun hjS => ((hSm j).mp hjS).elim hp.2 fun hjX => ?_⟩
      exact hi.rangingIndexed j hj (hX j hjX)
    · have hp := hi.pending j (List.mem_append_right _ (hI.subset hj))
      exact ⟨hp.1, fun hjS => ((hSm j).mp hjS).elim hp.2 (hIX j hj)⟩

end Skel

namespace Executor

variable {e : Executor}

/-- The loop of `startPrefixTask` over the prefixes keeps the skeleton and the index, and
every state it resumes is indexed at its path. -/
theorem foldlM_resumePrefix (l : List (List Char)) {e' : Executor}
    {resumed : List (Nat × List Char)}
    (h : l.foldlM resumePrefix (e, []) = some (e', resumed)) :
    e'.skel = e.skel ∧ e'.prefixSuspendedStatesMap = e.prefixSuspendedStatesMap ∧
      e'.haltExecution = e.haltExecution ∧
      ∀ r ∈ resumed, (r.2, r.1) ∈ e.prefixSuspendedStatesMap := by
  refine foldlM_invariant (fun (p : Executor × List (Nat × List Char)) =>
    p.1.skel = e.skel ∧ p.1.prefixSuspendedStatesMap = e.prefixSuspendedStatesMap ∧
      p.1.haltExecution = e.haltExecution ∧
      ∀ r ∈ p.2, (r.2, r.1) ∈ e.prefixSuspendedStatesMap) ?_ l _ _ h
    ⟨rfl, rfl, rfl, fun r hr => absurd hr (List.not_mem_nil _)⟩
  rintro ⟨e₁, res₁⟩ recvP ⟨e₂, res₂⟩ h₂ ⟨hsk, hmap, hhalt, hres⟩
  simp only [resumePrefix, Option.bind_eq_bind'] at h₂
  obtain ⟨⟨path, id⟩, hfind, h₂⟩ := Option.bind_eq_some.mp h₂
  cases h₂
  have hmem := List.mem_of_find?_eq_some hfind
  have hkey := List.find?_some hfind
  simp only [decide_eq_true_eq] at hkey
  refine ⟨(skel_modifyState e₁ id (f := (·.addPrefix recvP recvP.length)) fun _ => rfl).trans hsk,
    by rw [modifyState_eq]; exact hmap,
    by rw [modifyState_eq]; exact hhalt, fun r hr => ?_⟩
  split at hr
  · exact hres r hr
  · rcases List.mem_append.mp hr with hr | hr
    · exact hres r hr
    · rw [List.mem_singleton.mp hr, ← hmap]; simpa [hkey] using hmem

/-- `startPrefixTask` on a worker whose inner loop has ended: the resumed states join
`states` and the searcher, and leave the index. -/
theorem inv_startPrefixTask {msg : List Char} {e' : Executor} (hi : e.skel.Inv e.haltExecution)
    (hend : e.states = [] ∨ e.haltExecution = true) (h : e.startPrefixTask msg = some e') :
    e'.skel.Inv e'.haltExecution := by
  rw [startPrefixTask] at h
  obtain ⟨⟨e₁, resumed⟩, h₁, h⟩ := Option.bind_eq_some.mp h
  obtain ⟨hsk, hmap, hhalt, hres⟩ := foldlM_resumePrefix _ h₁
  change e₁.skel = e.skel at hsk
  change e₁.prefixSuspendedStatesMap = e.prefixSuspendedStatesMap at hmap
  change e₁.haltExecution = e.haltExecution at hhalt
  dsimp only at h
  obtain ⟨V, hV, h⟩ := Option.bind_eq_some.mp h
  cases h
  have hV' : V = e₁.searcher ++ (resumed.map Prod.fst).foldl insertState e₁.states :=
    (Option.some.inj hV).symm
  rw [← hsk, ← hhalt] at hi
  subst hV'
  rw [← hmap] at hres
  -- the resumed states are indexed
  have hX : ∀ j ∈ resumed.map Prod.fst, j ∈ e₁.skel.ls.indexed := fun j hj => by
    obtain ⟨r, hr, rfl⟩ := List.mem_map.mp hj
    exact List.mem_map.mpr ⟨_, hres r hr, rfl⟩
  refine hi.resumeIndexed hX (nodup_foldl_insertState _ _ hi.statesNodup)
    (mem_foldl_insertState _ _) ((List.filter_sublist _).map _) (fun j hj hjX => ?_) ?_
  · obtain ⟨⟨path, j'⟩, hent, rfl⟩ := List.mem_map.mp hj
    obtain ⟨r, hr, hrj⟩ := List.mem_map.mp hjX
    obtain ⟨hent, hnot⟩ := List.mem_filter.mp hent
    have := List.inj_on_of_nodup_map hi.indexedNodup hent (hres r hr) hrj.symm
    cases this
    simp [List.any_eq_false] at hnot
    exact hnot r.1 r.2 hr rfl
  · rcases hend with hst | hh
    · cases hhalt₁ : e₁.haltExecution
      · right
        obtain ⟨-, hv⟩ := hi.sched.resolve_left (by simp [hhalt₁])
        have hst₁ : e₁.states = [] := (congrArg (fun k => k.ls.states) hsk).trans hst
        have hse₁ : e₁.searcher = [] := List.eq_nil_iff_forall_not_mem.mpr fun j hj => by
          have := (hv j hj).1
          rw [show e₁.skel.ls.states = [] from hst₁] at this
          cases this
        rw [hse₁, List.nil_append]
        refine ⟨nodup_foldl_insertState _ _ hi.statesNodup, fun j hj => ⟨hj, ?_⟩⟩
        rcases (mem_foldl_insertState _ _ _).mp hj with h | h
        · rw [hst₁] at h; cases h
        · exact (hi.pending j (List.mem_append_right _ (hX j h))).1
      · exact .inl rfl
    · exact .inl (hhalt.trans hh)

end Executor

namespace Node

/-- One move of the run loop keeps the invariant between moves. -/
theorem inv_next {n n' : Node} {ev : Event} (hi : n.e.skel.Inv n.e.haltExecution)
    (h : n.next ev = some n') : n'.e.skel.Inv n'.e.haltExecution := by
  cases ev with
  | step instr mbs picks incoming =>
    simp only [next] at h
    split at h
    · cases h
    rename_i hc
    obtain ⟨⟨e', sent⟩, h₁, rfl⟩ := Option.map_eq_some'.mp h
    have hhalt : n.e.haltExecution = false := by
      simp only [Bool.or_eq_true, not_or] at hc; simpa using hc.2
    exact Executor.inv_runStep (hhalt ▸ hi) h₁
  | finish reply =>
    simp only [next] at h
    split at h
    · cases h
    rename_i hc
    split at h
    · cases h; exact hi
    cases reply with
    | KILL => cases h; exact hi.halt
    | START_PREFIX_TASK msg =>
      obtain ⟨e', h₁, rfl⟩ := Option.map_eq_some'.mp h
      have hend : n.e.states = [] ∨ n.e.haltExecution = true := by
        rw [← List.isEmpty_iff]
        revert hc; cases n.e.states.isEmpty <;> cases n.e.haltExecution <;> simp
      exact Executor.inv_startPrefixTask hi hend h₁
    | other => cases h; exact hi
  | stop =>
    simp only [next] at h
    split at h
    · cases h
    · cases h; exact hi

/-- The configuration `run` starts from: one state, not a recovery state, neither suspended. -/
theorem inv_init (opts : Options) (upperBound : List Char) (prefixDepth : Nat) :
    (init opts upperBound prefixDepth).e.skel.Inv
      (init opts upperBound prefixDepth).e.haltExecution := by
  have hlv : ∀ j, (init opts upperBound prefixDepth).e.linkView j =
      if j = 0 then some ⟨NORMAL_STATE, false, none, none, none, 0⟩ else none := fun j => by
    by_cases hj : j = 0
    · subst hj; rfl
    · simp [init, Executor.linkView, hj]
  have hnrec : ∀ j L, (init opts upperBound prefixDepth).e.linkView j = some L →
      L.isRecovery = true → False := fun j L hL hrec => by
    rw [hlv] at hL
    split at hL
    · cases hL; exact absurd hrec (by decide)
    · cases hL
  have h0 : (init opts upperBound prefixDepth).e.skel.Active 0 := ⟨_, hlv 0, rfl⟩
  refine ⟨fun j hj => ?_, fun r R hr hrec => (hnrec r R hr hrec).elim,
    fun r R hr hrec => (hnrec r R hr hrec).elim, rfl, rfl, rfl, rfl, List.nodup_singleton 0,
    fun j hj => ?_, List.nodup_nil, List.nodup_nil, fun j hj => absurd hj (List.not_mem_nil _),
    fun j hj => absurd hj (List.not_mem_nil _), .inr ⟨List.nodup_singleton 0, fun j hj => ?_⟩⟩
  · show (init opts upperBound prefixDepth).e.linkView j = none
    rw [hlv, if_neg (by change 1 ≤ j at hj; omega)]
  · rw [List.mem_singleton.mp hj]; exact h0.live
  · rw [List.mem_singleton.mp hj]; exact ⟨List.mem_singleton_self 0, h0⟩

end Node

/-- Every configuration a node reaches satisfies the invariant between moves. -/
theorem Reachable.inv {opts : Options} {upperBound : List Char} {prefixDepth : Nat} {n : Node}
    (h : Reachable (Node.init opts upperBound prefixDepth) n) : n.e.skel.Inv n.e.haltExecution := by
  induction h with
  | init => exact Node.inv_init opts upperBound prefixDepth
  | step _ _ hn ih => exact Node.inv_next ih hn

/-- In every configuration a node reaches, every recovery state is linked to its dependent
state (a suspended normal state that points back, one level below), and the walk along
dependent states from it takes `level + 1` links and ends at its originating state, which is
not a recovery state. -/
theorem recoveryChains_wellFormed {opts : Options} {upperBound : List Char} {prefixDepth : Nat}
    {n : Node} (h : Reachable (Node.init opts upperBound prefixDepth) n) {r : Nat}
    {s : ExecutionState} (hr : n.e.heap r = some s) (hrec : s.isRecoveryState = true) :
    Linked n.e.linkView r s.links ∧ ∃ o ys, ChainEnd n.e.linkView r o (r :: ys) ∧
      s.originatingState = some o ∧ ys.length = s.level := by
  have hi := h.inv
  have hr' : n.e.linkView r = some s.links := by simp [Executor.linkView, hr]
  have hl := (hi.links r s.links hr' hrec).resolve_left id
  exact ⟨hl, hi.links.chainEnd (fun _ h => h.elim) s.level r s.links hr' hrec rfl hl⟩

/-- The master skips a call of function `7` and loads from address `100`: the recovery state
`2` starts for the suspended state `0`. -/
def recoveryTrace : List Event :=
  [.step (.call 7 true) 0 [] none,
   .step (.load true true 100 1 [(7, 0)]) 0 [] none]

theorem recoveryTrace_wellFormed : ∃ n s, Reachable (Node.init masterOptions [] 0) n ∧
    n.e.heap 2 = some s ∧ s.isRecoveryState = true ∧
    (Linked n.e.linkView 2 s.links ∧ ∃ o ys, ChainEnd n.e.linkView 2 o (2 :: ys) ∧
      s.originatingState = some o ∧ ys.length = s.level) := by
  have h := (Reachable.init : Reachable (Node.init masterOptions [] 0) _).run recoveryTrace rfl
  exact ⟨_, _, h, rfl, rfl, recoveryChains_wellFormed h rfl rfl⟩

/-! ## The walk of terminateStateRecursively -/

namespace Executor

/-- Ending one state leaves the link fields of every other state. -/
theorem linkView_terminateState_of_ne (e : Executor) {id j : Nat} (hj : j ≠ id) :
    (e.terminateState id).linkView j = e.linkView j := by
  unfold terminateState
  split
  · rw [linkView_deleteState, Function.update_noteq hj]; rfl
  · rfl

/-- Along a walk that `fuel` covers, the loop of `terminateStateRecursively` ends every state
of the walk in turn, and its end last. -/
theorem terminateStateRecursivelyAux_of_chainEnd {h : LinkHeap} {x o : Nat} {ys : List Nat}
    (hc : ChainEnd h x o ys) : ∀ (e : Executor) (fuel : Nat),
    (∀ y, y ∈ ys ∨ y = o → e.linkView y = h y) → ys.length < fuel →
    terminateStateRecursivelyAux fuel e x = (ys ++ [o]).foldl terminateState e := by
  induction hc with
  | stop hO hrec =>
    rintro e (_ | fuel) he hf
    · cases hf
    rw [terminateStateRecursivelyAux, nextDependent_eq, he _ (.inr rfl), hO]
    simp [hrec]
  | @link x d o X D ys hX hrec hd hD hsn hb hl hc ih =>
    rintro e (_ | fuel) he hf
    · cases hf
    have hnd := (ChainEnd.link hX hrec hd hD hsn hb hl hc).nodup
    rw [terminateStateRecursivelyAux, nextDependent_eq, he _ (.inl (List.mem_cons_self _ _)), hX]
    simp only [Option.some_bind, hrec, if_true, hd]
    refine ih _ fuel (fun y hy => ?_) (by simpa using hf)
    have hyx : y ≠ x := by
      rintro rfl
      rcases hy with hy | rfl
      · exact (List.nodup_cons.mp hnd.1).1 hy
      · exact hnd.2 (List.mem_cons_self _ _)
    rw [linkView_terminateState_of_ne e hyx, he y (hy.imp_left (List.mem_cons_of_mem _))]

end Executor

/-- In every configuration a node reaches, `terminateStateRecursively` on a recovery state
ends the states of its walk and then its originating state, and stops there: the bound of
`nextId` turns the model gives the loop is never reached. -/
theorem terminateStateRecursively_walk {opts : Options} {upperBound : List Char}
    {prefixDepth : Nat} {n : Node} (h : Reachable (Node.init opts upperBound prefixDepth) n)
    {r : Nat} {s : ExecutionState} (hr : n.e.heap r = some s) (hrec : s.isRecoveryState = true) :
    ∃ o ys, s.originatingState = some o ∧ ys.length = s.level ∧
      n.e.terminateStateRecursively r = ((r :: ys) ++ [o]).foldl Executor.terminateState n.e := by
  have hi := h.inv
  have hr' : n.e.linkView r = some s.links := by simp [Executor.linkView, hr]
  obtain ⟨o, ys, hc, ho, hlen⟩ := hi.links.chainEnd (fun _ h => h.elim) s.level r s.links hr'
    hrec rfl ((hi.links r s.links hr' hrec).resolve_left id)
  refine ⟨o, ys, ho, hlen, Executor.terminateStateRecursivelyAux_of_chainEnd hc _ _
    (fun _ _ => rfl) ?_⟩
  -- the walk visits distinct states, all below `nextId`
  obtain ⟨hnd, ho'⟩ := hc.nodup
  have hall : (r :: ys ++ [o]).Nodup :=
    List.nodup_append.mpr ⟨hnd, List.nodup_singleton o, fun a ha hb => by
      rw [List.mem_singleton.mp hb] at ha; exact ho' ha⟩
  have hle := (List.subperm_of_subset hall fun x hx => List.mem_range.mpr (show x < n.e.nextId from
    Skel.lt_of_live hi.fresh
      (hc.live x ((List.mem_append.mp hx).imp_right List.mem_singleton.mp)))).length_le
  simp only [List.length_append, List.length_cons, List.length_singleton, List.length_range] at hle
  exact hle

end PChop
