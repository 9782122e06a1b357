import PChop.Verify.Turn

/-!
# Forks keep the invariant within a turn

`fork` on the selected state copies it (`forkStates`): the copy takes the next fresh pointer
and, when the state is a recovery state, gets a copy of its chain of dependent states
(`forkDependentStates`), linked as `PChop.Verify.ChainCopy` shows. The copy then joins
`addedStates`, or `rangingSuspendedStates` when the fork suspends one side for ranging; a
branch followed without forking, a forced choice and the end of a state on a solver timeout
change no link.
-/

namespace PChop

namespace ExecutionState

theorem links_removeFalsePrefixes (s : ExecutionState) : s.removeFalsePrefixes.links = s.links :=
  rfl

theorem links_removeTruePrefixes (s : ExecutionState) : s.removeTruePrefixes.links = s.links :=
  rfl

end ExecutionState

namespace Skel

variable {k : Skel}

/-- A state suspended for ranging: active, outside `states` and the added states, and not yet
pending. -/
theorem Lists.addRanging (h : k.Lists) {x : Nat} (hx : k.Active x) (hxs : x ∉ k.ls.states)
    (hxa : x ∉ k.ls.added) (hxp : x ∉ k.ls.ranging ++ k.ls.indexed) :
    Lists { k with ls := { k.ls with ranging := k.ls.ranging ++ [x] } } where
  __ := h
  rangingNodup := List.nodup_append.mpr ⟨h.rangingNodup, List.nodup_singleton x,
    fun a ha hb => by rw [List.mem_singleton.mp hb] at ha; exact hxp (List.mem_append_left _ ha)⟩
  rangingIndexed := fun j hj => by
    rcases List.mem_append.mp hj with hj | hj
    · exact h.rangingIndexed j hj
    · rw [List.mem_singleton.mp hj]; exact fun hi => hxp (List.mem_append_right _ hi)
  pending := fun j hj => by
    simp only [List.append_assoc, List.mem_append, List.mem_singleton] at hj
    rcases hj with hj | rfl | hj
    · exact h.pending j (List.mem_append_left _ hj)
    · exact ⟨hx, hxs, hxa⟩
    · exact h.pending j (List.mem_append_right _ hj)

theorem Mid.addRanging (hm : k.Mid) {x : Nat} (hx : k.Active x) (hxs : x ∉ k.ls.states)
    (hxa : x ∉ k.ls.added) (hxp : x ∉ k.ls.ranging ++ k.ls.indexed) :
    Mid { k with ls := { k.ls with ranging := k.ls.ranging ++ [x] } } :=
  ⟨hm.toLists.addRanging hx hxs hxa hxp, hm.links, hm.removedUp⟩

end Skel

namespace Executor

variable (e : Executor)

theorem skel_modifyState_hist (id : Nat) (c : Char) :
    (e.modifyState id fun s =>
      { s with depth := s.depth + 1, branchHist := s.branchHist ++ [c] }).skel = e.skel :=
  skel_modifyState _ _ fun _ => rfl

/-- `forkStates`: a copy of `cur` at `nextId`, which is the true or the false state; when `cur`
is a recovery state the copy then gets a copy of `cur`'s chain. -/
theorem forkStates_cases {cur : Nat} {fi : ForkInput} {curIsTrue removePrefixes : Bool}
    {e' : Executor} {t f : Nat} (hfresh : e.linkView e.nextId = none)
    (h : e.forkStates cur fi curIsTrue removePrefixes = some (e', t, f)) :
    ∃ cs, e.heap cur = some cs ∧ (t, f) = (if curIsTrue then (cur, e.nextId) else (e.nextId, cur)) ∧
      ∃ e₂ : Executor, e₂.skel =
          ⟨Function.update e.linkView e.nextId (some cs.links), e.nextId + 1, e.idLists⟩ ∧
        ((cs.isRecoveryState = false ∧ e'.skel = e₂.skel) ∨
          (cs.isRecoveryState = true ∧ ∃ e₃ : Executor,
            e₂.forkDependentStates cur e.nextId = some e₃ ∧ e'.skel = e₃.skel)) := by
  rw [forkStates] at h
  obtain ⟨⟨e₁, new⟩, hb, h⟩ := Option.bind_eq_some.mp h
  obtain ⟨cs₀, hcs₀, hb⟩ := Option.map_eq_some'.mp hb
  have hsk₁ : e₁.skel = ⟨Function.update e.linkView e.nextId (some cs₀.links), e.nextId + 1,
      e.idLists⟩ := by
    rw [show e₁ = (e.newState cs₀).1 from (congrArg Prod.fst hb).symm]
    simp [skel, linkView_newState]
  obtain rfl : new = e.nextId := (congrArg Prod.snd hb).symm
  clear hb
  refine ⟨cs₀, hcs₀, ?_⟩
  dsimp only at h
  generalize hp : (if curIsTrue = true then (cur, e.nextId) else (e.nextId, cur)) = p at h
  obtain ⟨t₀, f₀⟩ := p
  generalize hep : (if removePrefixes = true then _ else e₁) = ep at h
  have hskp : ep.skel = e₁.skel := by
    rw [← hep]; split
    · rw [skel_modifyState _ _ ExecutionState.links_removeTruePrefixes,
        skel_modifyState _ _ ExecutionState.links_removeFalsePrefixes]
    · rfl
  obtain ⟨cs, hcs, h⟩ := Option.bind_eq_some.mp h
  have hcur : cur ≠ e.nextId := fun hc => by simp [linkView, ← hc, hcs₀] at hfresh
  have hlinks : cs.links = cs₀.links := by
    have := congrFun (congrArg Skel.lv (hskp.trans hsk₁)) cur
    simp only [skel, Function.update_noteq hcur, linkView_apply, hcs, hcs₀, Option.map_some']
      at this
    exact Option.some_injective _ this
  generalize hed : Executor.modifyState
    (Executor.modifyState (if fi.isInternal = true then _ else _) _ _) _ _ = ed at h
  have hsked : ed.skel = e₁.skel := by
    rw [← hed, skel_modifyState _ _ (fun _ => ExecutionState.links_addConstraint ..),
      skel_modifyState _ _ (fun _ => ExecutionState.links_addConstraint ..)]
    split
    · rw [skel_splitNode, hskp]
    · rw [skel_modifyState_hist, skel_modifyState_hist, skel_splitNode, hskp]
  have hrec : cs.isRecoveryState = cs₀.isRecoveryState := congrArg Links.isRecovery hlinks
  refine ⟨?_, ed, hsked.trans hsk₁, ?_⟩
  · split at h
    · obtain ⟨e₃, -, h⟩ := Option.bind_eq_some.mp h
      obtain ⟨e₄, -, h⟩ := Option.bind_eq_some.mp h
      obtain ⟨e₅, -, h⟩ := Option.bind_eq_some.mp h
      cases h; rfl
    · cases h; rfl
  · split at h
    · rename_i hr
      obtain ⟨e₃, h₃, h⟩ := Option.bind_eq_some.mp h
      obtain ⟨e₄, h₄, h⟩ := Option.bind_eq_some.mp h
      obtain ⟨e₅, h₅, h⟩ := Option.bind_eq_some.mp h
      cases h
      exact Or.inr ⟨hrec ▸ hr, e₃, h₃, (skel_mergeConstraintsForAll _ h₅).trans
        (skel_mergeConstraintsForAll _ h₄)⟩
    · rename_i hr
      cases h
      exact Or.inl ⟨by simpa [hrec] using hr, rfl⟩
variable {e}

/-- `forkStates` on an active state not yet queued: the invariant within a turn holds, with the
lists and the old states unchanged and the copy active. -/
theorem mid_forkStates {cur : Nat} {fi : ForkInput} {curIsTrue removePrefixes : Bool}
    {e' : Executor} {t f : Nat} (hm : e.skel.Mid) (hact : e.skel.Active cur)
    (hrem : cur ∉ e.removedStates)
    (h : e.forkStates cur fi curIsTrue removePrefixes = some (e', t, f)) :
    e'.skel.Mid ∧ e'.idLists = e.idLists ∧ e'.skel.Active e.nextId ∧
      (∀ j < e.nextId, e'.linkView j = e.linkView j) ∧
      (t, f) = (if curIsTrue then (cur, e.nextId) else (e.nextId, cur)) := by
  obtain ⟨cs, hcs, htf, e₂, hsk₂, hcase⟩ := forkStates_cases e (hm.fresh _ le_rfl) h
  have hC : e.linkView cur = some cs.links := by simp [linkView, hcs]
  obtain ⟨L, hL, hLsn⟩ := hact
  cases hC.symm.trans hL
  have hlt : ∀ j, e.skel.Live j → j < e.nextId := fun j hj => Skel.lt_of_live hm.fresh hj
  have hlv₂ : e₂.linkView = Function.update e.linkView e.nextId (some cs.links) :=
    congrArg Skel.lv hsk₂
  have hn₂ : e₂.nextId = e.nextId + 1 := congrArg Skel.nextId hsk₂
  have hls₂ : e₂.idLists = e.idLists := congrArg Skel.ls hsk₂
  rcases hcase with ⟨hrec, hsk⟩ | ⟨hrec, e₃, h₃, hsk⟩
  · refine ⟨?_, (congrArg Skel.ls hsk).trans hls₂, ?_, fun j hj => ?_, htf⟩
    · rw [hsk, hsk₂]; exact hm.alloc (by simpa using hrec)
    · rw [hsk, hsk₂]; exact ⟨_, Function.update_same _ _ _, hLsn⟩
    · rw [show e'.linkView = e₂.linkView from congrArg Skel.lv hsk, hlv₂,
        Function.update_noteq (by omega)]
  have hrec' : cs.links.isRecovery = true := by simpa using hrec
  obtain ⟨o, ys, hc, -, -⟩ := hm.links.chainEnd
    (fun r hx R hR => by obtain ⟨L', hL', hsn'⟩ := hx.2.2; cases hR.symm.trans hL'; exact hsn')
    _ cur cs.links hC hrec' rfl ((hm.links cur _ hC hrec').resolve_left fun hx => hrem hx.1)
  have hmem : ∀ y, y ∈ cur :: ys ∨ y = o → y < e.nextId := fun y hy => by
    obtain ⟨Y, hY⟩ := hc.live y hy
    exact hlt y ⟨Y, hY⟩
  have hagree : ∀ j, j < e.nextId → e₂.linkView j = e.linkView j := fun j hj => by
    rw [hlv₂, Function.update_noteq (by omega)]
  have hc₂ : ChainEnd e₂.linkView cur o (cur :: ys) :=
    hc.congr fun y hy => hagree y (hmem y hy)
  obtain ⟨hls₃, hn₃, hframe, ⟨F', hF', -, hF'sn, -, hF'd, hF'l⟩, hcopies⟩ :=
    forkDependentStates_spec h₃ hc₂
      ((hagree cur (hmem cur (.inl (List.mem_cons_self _ _)))).trans hC)
      (by rw [hlv₂, Function.update_same]) hrec' rfl
      (fun hm' => absurd (hmem _ (.inl hm')) (by omega))
      (fun ho => absurd (hmem o (.inr rfl)) (by omega)) (by omega)
      (fun j hj => by
        rw [hlv₂, Function.update_noteq (by omega)]; exact hm.fresh j (show e.nextId ≤ j by omega))
  rw [hn₂] at hcopies hn₃
  have hlv₃ : ∀ j, j ≠ e.nextId → (j < e.nextId ∨ e₃.nextId ≤ j) → e₃.linkView j = e.linkView j :=
    fun j hj h' => by
      rw [hframe j hj (h'.imp_left fun h'' => by omega), hlv₂, Function.update_noteq hj]
  refine ⟨?_, (congrArg Skel.ls hsk).trans (hls₃.trans hls₂), ?_, fun j hj => ?_, htf⟩
  rotate_left
  · rw [hsk]; exact ⟨F', hF', hF'sn.trans hLsn⟩
  · rw [show e'.linkView = e₃.linkView from congrArg Skel.lv hsk]
    exact hlv₃ j (by omega) (.inl hj)
  rw [hsk]
  · refine hm.extend (show e₃.skel.ls = _ from hls₃.trans hls₂) (fun j hj => ?_) (fun j hj => ?_)
      (fun r R hr hR hrec => ?_)
    · change e₃.nextId ≤ j at hj
      change e₃.linkView j = none
      rw [hlv₃ j (by omega) (.inr hj)]
      exact hm.fresh j (show e.nextId ≤ j by omega)
    · change j < e.nextId at hj
      exact hlv₃ j (by omega) (.inl hj)
    · change e.nextId ≤ r at hr
      change e₃.linkView r = some R at hR
      change Linked e₃.linkView r R ∧ _
      by_cases hrn : r = e.nextId
      · subst hrn
        cases hF'.symm.trans hR
        exact ⟨hF'l, fun d hd => by
          rw [hF'd, hn₂] at hd; cases hd; show e.nextId ≤ e.nextId + 1; omega⟩
      by_cases hr₃ : r < e₃.nextId
      · obtain ⟨Y, hY, -, hYl⟩ := hcopies r (by omega) hr₃
        cases hY.symm.trans hR
        obtain ⟨hl, hd⟩ := hYl hrec
        exact ⟨hl, fun d h' => by have := hd d h'; show e.nextId ≤ d; omega⟩
      · rw [hlv₃ r hrn (.inr (by omega)),
          show e.linkView r = none from hm.fresh r (show e.nextId ≤ r by omega)] at hR
        cases hR

/-- The pointer `nextId` is in no list of an executor with the same lists. -/
theorem fresh_not_mem_of_idLists {e' : Executor} (hm : e.skel.Mid)
    (hls : e'.idLists = e.idLists) :
    e.nextId ∉ e'.states ∧ e.nextId ∉ e'.searcher ∧ e.nextId ∉ e'.addedStates ∧
      e.nextId ∉ e'.removedStates ∧ e.nextId ∉ e'.rangingSuspendedStates ++
        e'.prefixSuspendedStatesMap.map Prod.snd := by
  have := hm.toLists.not_mem_of_none (hm.fresh e.nextId le_rfl)
  rw [show e'.states = e'.idLists.states from rfl, show e'.searcher = e'.idLists.searcher from rfl,
    show e'.addedStates = e'.idLists.added from rfl,
    show e'.removedStates = e'.idLists.removed from rfl,
    show e'.rangingSuspendedStates ++ e'.prefixSuspendedStatesMap.map Prod.snd =
      e'.idLists.ranging ++ e'.idLists.indexed from rfl, hls]
  exact this

/-- `fork` on an active state not yet queued: the invariant within a turn holds, and a state
left to continue on the false side is active, with the queue of removed states unchanged. -/
theorem mid_fork {cur : Nat} {fi : ForkInput} {e' : Executor} {t f : Option Nat}
    (hm : e.skel.Mid) (hact : e.skel.Active cur) (hrem : cur ∉ e.removedStates)
    (h : e.fork cur fi = some (e', t, f)) :
    e'.skel.Mid ∧
      ∀ x, f = some x → e'.skel.Active x ∧ e'.removedStates = e.removedStates := by
  rw [fork] at h
  obtain ⟨s, hs, h⟩ := Option.bind_eq_some.mp h
  obtain ⟨dec, -, h⟩ := Option.bind_eq_some.mp h
  split at h
  · cases h; exact ⟨mid_terminateActive hm hact hrem, fun _ h => by cases h⟩
  rename_i res forkAndSuspend
  dsimp only at h
  generalize hfc : e.forcedChoice cur s fi res = p at h
  obtain ⟨e₁, res'⟩ := p
  have hsk₁ : e₁.skel = e.skel := by
    have := skel_forcedChoice e cur s fi res; rw [hfc] at this; exact this
  have hsk₂ : ({ e₁ with forks := e₁.forks + 1 } : Executor).skel = e.skel := hsk₁
  -- a fork copies `cur` to the fresh pointer, which is in no list yet
  have hforked : ∀ {E E₂ : Executor} {b r : Bool} {t₁ f₁ : Nat}, E.skel = e.skel →
      E.forkStates cur fi b r = some (E₂, t₁, f₁) →
      E₂.skel.Mid ∧ E₂.idLists = e.idLists ∧ E₂.skel.Active e.nextId ∧
        E₂.skel.Active cur ∧ (t₁, f₁) = (if b then (cur, e.nextId) else (e.nextId, cur)) ∧
        e.nextId ∉ E₂.states ∧ e.nextId ∉ E₂.searcher ∧
        e.nextId ∉ E₂.addedStates ∧ e.nextId ∉ E₂.removedStates ∧
        e.nextId ∉ E₂.rangingSuspendedStates ++ E₂.prefixSuspendedStatesMap.map Prod.snd := by
    intro E E₂ b r t₁ f₁ hE h₂
    have hn : E.nextId = e.nextId := congrArg Skel.nextId hE
    obtain ⟨hm₂, hls, hactN, hframe, htf⟩ := mid_forkStates (hE ▸ hm) (hE ▸ hact)
      (show cur ∉ E.skel.ls.removed from hE ▸ hrem) h₂
    have hls' : E₂.idLists = e.idLists := hls.trans (congrArg Skel.ls hE)
    obtain ⟨L, hL, hLsn⟩ := hact
    refine ⟨hm₂, hls', hn ▸ hactN, ⟨L, ?_, hLsn⟩, hn ▸ htf,
      fresh_not_mem_of_idLists hm hls'⟩
    change E₂.linkView cur = some L
    rw [hframe cur (hn ▸ Skel.lt_of_live hm.fresh ⟨L, hL⟩),
      show E.linkView = e.linkView from congrArg Skel.lv hE]
    exact hL
  split at h
  · obtain ⟨⟨e₂, t₂, f₂⟩, h₂, h⟩ := Option.bind_eq_some.mp h
    cases h
    obtain ⟨hm₂, hls, hactN, -, htf, hs, -, ha, -, hp⟩ := hforked hsk₁ h₂
    cases htf
    exact ⟨hm₂.addRanging hactN hs ha hp, fun x hx => by
      cases hx; exact ⟨hactN, congrArg IdLists.removed hls⟩⟩
  · cases h
    rw [skel_followBranch, hsk₁]
    exact ⟨hm, fun x hx => by cases hx⟩
  · obtain ⟨⟨e₂, t₂, f₂⟩, h₂, h⟩ := Option.bind_eq_some.mp h
    cases h
    obtain ⟨hm₂, hls, hactN, hactC, htf, hs, -, ha, -, hp⟩ := hforked hsk₂ h₂
    cases htf
    exact ⟨hm₂.addRanging hactN hs ha hp, fun x hx => by
      cases hx; exact ⟨hactC, congrArg IdLists.removed hls⟩⟩
  · cases h
    have hsk := (skel_followBranch e₁ cur fi '3').trans hsk₁
    refine ⟨hsk ▸ hm, fun x hx => ?_⟩
    cases hx
    exact ⟨hsk ▸ hact, congrArg (·.ls.removed) hsk⟩
  · obtain ⟨⟨e₂, t₂, f₂⟩, h₂, h⟩ := Option.bind_eq_some.mp h
    cases h
    obtain ⟨hm₂, hls, hactN, -, htf, hs, hse, ha, hr, hp⟩ := hforked hsk₂ h₂
    cases htf
    exact ⟨hm₂.addAdded hactN hs hr hse ha hp, fun x hx => by
      cases hx; exact ⟨hactN, congrArg IdLists.removed hls⟩⟩

/-- The loop over the resolutions of an address: each fork is on an active state, and the
state left unbound is active, while no state is queued for removal. -/
theorem mid_resolveStates {fis : List ForkInput} {cur : Nat} {e' : Executor} {u : Option Nat}
    (hm : e.skel.Mid) (hact : e.skel.Active cur) (hrem : e.removedStates = [])
    (h : resolveStates fis e cur = some (e', u)) :
    e'.skel.Mid ∧ ∀ x, u = some x → e'.skel.Active x ∧ e'.removedStates = [] := by
  obtain ⟨hm', hu⟩ := resolveStates_induct
    (fun E x => E.skel.Mid ∧ E.skel.Active x ∧ E.removedStates = []) (fun E => E.skel.Mid)
    (fun _ _ h => h.1)
    (fun _ _ _ _ _ _ ⟨hm, ha, hr⟩ hf => by
      obtain ⟨hm', hx⟩ := mid_fork hm ha (by simp [hr]) hf
      exact ⟨hm', fun y hy => ⟨hm', (hx y hy).1, (hx y hy).2.trans hr⟩⟩)
    fis e cur ⟨hm, hact, hrem⟩ h
  exact ⟨hm', fun x hx => (hu x hx).2⟩

end Executor

end PChop
