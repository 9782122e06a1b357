import PChop.Verify.Histories

/-!
# Branch histories across forks and switches

The history invariant `HistOK` through the operations that copy states: the fork of a chain
of dependent states (`histOK_forkChain`, `histOK_forkDependentStates`), the two-way branch
(`histOK_forkStates`, `histOK_fork`) and the multi-way branch (`histOK_branchCopies`,
`histOK_branchTail`, `histOK_branch`). Each lemma also says what the operation does to the
histories of the states it returns: below `MaxForks` the `i`-th of the `N` cases of a
multi-way branch extends the history by `unaryCode N i` (`branch_unaryCode`), and no two of
these codes is a prefix of the other (`unaryCode_prefix_inj`).
-/

namespace PChop

open ExecutionState (HistView)

/-- The view of a state that takes the branch `c`: one more character and one more level,
unless the branch is internal. -/
def ExecutionState.HistView.grow (internal : Bool) (c : Char) (v : HistView) : HistView :=
  if internal then v else { v with depth := v.depth + 1, branchHist := v.branchHist ++ [c] }

@[simp] theorem ExecutionState.HistView.grow_isRecovery (internal : Bool) (c : Char)
    (v : HistView) : (v.grow internal c).isRecovery = v.isRecovery := by
  unfold HistView.grow; split <;> rfl

@[simp] theorem ExecutionState.HistView.grow_dependentState (internal : Bool) (c : Char)
    (v : HistView) : (v.grow internal c).dependentState = v.dependentState := by
  unfold HistView.grow; split <;> rfl

@[simp] theorem ExecutionState.HistView.grow_type (internal : Bool) (c : Char) (v : HistView) :
    (v.grow internal c).type = v.type := by
  unfold HistView.grow; split <;> rfl

@[simp] theorem ExecutionState.HistView.grow_snapshots (internal : Bool) (c : Char)
    (v : HistView) : (v.grow internal c).snapshots = v.snapshots := by
  unfold HistView.grow; split <;> rfl

theorem ExecutionState.HistView.grow_branchHist (internal : Bool) (c : Char) (v : HistView) :
    (v.grow internal c).branchHist = v.branchHist ++ if internal then [] else [c] := by
  unfold HistView.grow; split <;> simp

/-- Two states that nothing pins take the two sides of a branch. -/
theorem HistOK.grow₂ {V : ViewHeap} (h : HistOK V) {a b : Nat} (hab : a ≠ b) {C : HistView}
    (ha : V a = some C) (hb : V b = some C) (hua : Unpinned V a) (hub : Unpinned V b)
    (internal : Bool) : HistOK (Function.update (Function.update V a
      (some (C.grow internal '0'))) b (some (C.grow internal '1'))) := by
  unfold HistView.grow
  split
  · rwa [← ha, Function.update_eq_self, ha, ← hb, Function.update_eq_self]
  · exact h.extend₂ hab ha hb hua hub ['0'] ['1']

/-- The two sides of a branch keep `y` unpinned. -/
theorem Unpinned.grow₂ {V : ViewHeap} {y : Nat} (hy : Unpinned V y) {a b : Nat} {C : HistView}
    (ha : V a = some C) (internal : Bool) :
    Unpinned (Function.update (Function.update V a
      (some (C.grow internal '0'))) b (some (C.grow internal '1'))) y := by
  have hC : ∀ c, (C.grow internal c).isRecovery = true →
      (C.grow internal c).dependentState ≠ some y := fun c hr => by
    rw [HistView.grow_dependentState]
    exact hy.1 a C ha (by simpa [HistView.isRecovery] using hr)
  exact (hy.update (hC '0') (by simpa using hy.2 a C ha)).update (hC '1')
    (by simpa using hy.2 a C ha)

theorem FreshFrom.grow₂ {V : ViewHeap} {n : Nat} (h : FreshFrom V n) {a b : Nat} {C : HistView}
    (ha : V a = some C) (internal : Bool) :
    FreshFrom (Function.update (Function.update V a
      (some (C.grow internal '0'))) b (some (C.grow internal '1'))) n :=
  fun j hj => (h j hj).grow₂ ha internal

/-- In the views `V`, `x` is a case of a multi-way branch from a state with view `C`: it has
`C`'s type and a history that extends `C`'s and, as a recovery state, a dependent state whose
history is a prefix of `C`'s. -/
def CaseOf (V : ViewHeap) (C : HistView) (x : Nat) : Prop :=
  ∃ X, V x = some X ∧ X.type = C.type ∧ C.branchHist <+: X.branchHist ∧
    (X.isRecovery = true → ∀ d D, X.dependentState = some d → V d = some D →
      D.branchHist <+: C.branchHist)

/-- A case keeps being one when its view keeps its type and dependent state and its history
grows, while its dependent state keeps its view. -/
theorem CaseOf.transfer {V V' : ViewHeap} {C : HistView} {x y : Nat} (h : CaseOf V C y)
    {X X' : HistView} (hX : V y = some X) (hX' : V' x = some X') (ht : X'.type = X.type)
    (hp : X.branchHist <+: X'.branchHist) (hdep : X'.dependentState = X.dependentState)
    (hd : ∀ d, X.isRecovery = true → X.dependentState = some d →
      (V' d).map HistView.branchHist = (V d).map HistView.branchHist) :
    CaseOf V' C x := by
  obtain ⟨X₀, hX₀, ht₀, hp₀, hd₀⟩ := h
  rw [hX] at hX₀
  cases hX₀
  have hrec : X'.isRecovery = X.isRecovery := by simp only [HistView.isRecovery, ht]
  refine ⟨X', hX', ht.trans ht₀, hp₀.trans hp, fun hr d D hdx hD => ?_⟩
  rw [hrec] at hr
  rw [hdep] at hdx
  have hm := hd d hr hdx
  rw [hD] at hm
  cases hVd : V d with
  | none => rw [hVd] at hm; cases hm
  | some D₀ =>
    rw [hVd] at hm
    rw [Option.some.inj hm]
    exact hd₀ hr d D₀ hdx hVd

/-! ## The codes of the cases of a branch -/

/-- The suffix the `i`-th of `N` cases of a multi-way branch adds to the history: `i` ones and
a zero, and `N - 1` ones for the last case. -/
def unaryCode (N i : Nat) : List Char :=
  if i < N - 1 then List.replicate i '1' ++ ['0'] else List.replicate (N - 1) '1'

theorem unaryCode_length (N i : Nat) : (unaryCode N i).length = min (i + 1) (N - 1) := by
  unfold unaryCode; split <;> simp <;> omega

example :
    (List.range 4).map (unaryCode 4) = [['0'], ['1', '0'], ['1', '1', '0'], ['1', '1', '1']] := by
  decide

theorem unaryCode_succ_of_lt {m i : Nat} (h : i < m - 1) : unaryCode (m + 1) i = unaryCode m i := by
  simp only [unaryCode, if_pos h, if_pos (show i < m + 1 - 1 by omega)]

theorem unaryCode_succ_zero {m : Nat} (hm : 0 < m) :
    unaryCode (m + 1) (m - 1) = unaryCode m (m - 1) ++ ['0'] := by
  simp only [unaryCode, if_pos (show m - 1 < m + 1 - 1 by omega), if_neg (Nat.lt_irrefl _)]

theorem unaryCode_succ_one {m : Nat} (hm : 0 < m) :
    unaryCode (m + 1) m = unaryCode m (m - 1) ++ ['1'] := by
  rw [unaryCode, if_neg (by omega), unaryCode, if_neg (Nat.lt_irrefl _), Nat.add_sub_cancel,
    ← List.replicate_succ', Nat.sub_add_cancel hm]

theorem unaryCode_getElem? (N i k : Nat) : (unaryCode N i)[k]? =
    if k < min (i + 1) (N - 1) then some (if k < i then '1' else '0') else none := by
  unfold unaryCode
  split
  · rcases Nat.lt_or_ge k i with hk | hk
    · rw [List.getElem?_append_left (by simpa using hk), List.getElem?_replicate, if_pos hk,
        if_pos (by omega), if_pos hk]
    · rw [List.getElem?_append_right (by simpa using hk), List.length_replicate]
      by_cases hki : k = i
      · subst hki; simpa
      · rw [if_neg (by omega)]; simp; omega
  · simp only [List.getElem?_replicate]
    split_ifs <;> first | rfl | omega

/-- No code of a case is a prefix of the code of another case. -/
theorem unaryCode_prefix_inj {N i j : Nat} (hi : i < N) (hj : j < N)
    (h : unaryCode N i <+: unaryCode N j) : i = j := by
  obtain ⟨t, ht⟩ := h
  have hk : ∀ k < min (i + 1) (N - 1), (unaryCode N j)[k]? = some (if k < i then '1' else '0') :=
    fun k hk => by rw [← ht, List.getElem?_append_left (by rw [unaryCode_length]; exact hk),
      unaryCode_getElem?, if_pos hk]
  rcases Nat.lt_trichotomy i j with hij | rfl | hij
  · have := hk i (by omega)
    rw [unaryCode_getElem?, if_pos (by omega), if_pos hij, if_neg (Nat.lt_irrefl _)] at this
    cases this
  · rfl
  · have := hk j (by omega)
    rw [unaryCode_getElem?, if_pos (by omega), if_pos hij, if_neg (Nat.lt_irrefl _)] at this
    cases this

namespace Executor

/-! ## Chains of dependent states -/

variable {e : Executor}

/-- One turn of `forkChain` on the views: a copy of `cs` at the fresh pointer, below `prev`. -/
theorem views_forkTurn (cur : Nat) (cs : ExecutionState) {prev : Nat} {P : HistView}
    (hP : e.views prev = some P) (hne : prev ≠ e.nextId) :
    ((((e.newState cs).1.modifyState (e.newState cs).2 fun s =>
      { s with recoveryState := some prev }).modifyState prev fun s =>
        { s with dependentState := some (e.newState cs).2 }).splitNode cs.ptreeNode
          (e.newState cs).2 cur).views =
      Function.update (Function.update e.views e.nextId (some cs.histView)) prev
        (some { P with dependentState := some e.nextId }) := by
  have hf : ∀ s : ExecutionState,
      ({ s with recoveryState := some prev } : ExecutionState).histView = s.histView :=
    fun _ => rfl
  rw [views_splitNode, views_modifyState_of _ prev
    (fun v => { v with dependentState := some e.nextId }) fun _ => rfl,
    views_modifyState _ _ hf, views_newState, Function.update_noteq hne, hP]
  rfl

theorem views_setOriginating : ∀ (fuel : Nat) (e : Executor) (cur orig : Nat),
    (setOriginating fuel e cur orig).views = e.views
  | 0, _, _, _ => rfl
  | fuel + 1, e, cur, orig => by
    have h₁ : (e.modifyState cur fun s => { s with originatingState := some orig }).views =
        e.views := views_modifyState e cur fun _ => rfl
    simp only [Executor.setOriginating]
    split
    · split
      · split
        · rw [views_setOriginating fuel, h₁]
        · exact h₁
      · rfl
    · rfl

theorem views_mergeChain : ∀ (fuel : Nat) (e : Executor) (cur : Nat) (c : Expr),
    (mergeChain fuel e cur c).views = e.views
  | 0, _, _, _ => rfl
  | fuel + 1, e, cur, c => by
    have h₁ : (e.modifyState cur (·.addConstraint c)).views = e.views :=
      views_modifyState e cur fun s => ExecutionState.histView_addConstraint s c
    simp only [Executor.mergeChain]
    split
    · rw [views_mergeChain fuel, h₁]
    · exact h₁

theorem views_mergeConstraintsForAll {rec : Nat} {c : Expr} {e' : Executor}
    (he : e.mergeConstraintsForAll rec c = some e') : e'.views = e.views := by
  simp only [Executor.mergeConstraintsForAll, Option.bind_eq_bind', Option.bind_eq_some] at he
  obtain ⟨_, -, d, -, o, -, he⟩ := he
  cases he
  have h₁ : ((mergeChain e.nextId e d c).modifyState o (·.addGuidingConstraint c)).views =
      (mergeChain e.nextId e d c).views := views_modifyState _ o fun _ => rfl
  rw [h₁, views_mergeChain]

/-- The fork of a chain of dependent states: each state of the chain from `cur` is copied,
and the copy becomes the dependent state of the copy before it, the first of `prev`. Only
`prev` changes among the old states, and only its dependent state: a copy of `cur`. -/
theorem histOK_forkChain : ∀ (fuel : Nat) {e : Executor} {cur prev : Nat} {P : HistView}
    {e' : Executor} {last : Nat}, FreshFrom e.views e.nextId → HistOK e.views →
    prev < e.nextId → e.views prev = some P → P.isRecovery = true →
    (∀ C, e.views cur = some C → C.branchHist <+: P.branchHist) →
    forkChain fuel e cur prev = some (e', last) →
    HistOK e'.views ∧ FreshFrom e'.views e'.nextId ∧
      (∀ j < e.nextId, j ≠ prev → e'.views j = e.views j) ∧
      ∃ x X C, e'.views prev = some { P with dependentState := some x } ∧ e'.views x = some X ∧
        e.views cur = some C ∧ X.branchHist = C.branchHist
  | 0, _, _, _, _, _, _, _, _, _, _, _, _, he => by cases he
  | fuel + 1, e, cur, prev, P, e', last, hfr, h, hprev, hP, hrec, hpre, he => by
    simp only [Executor.forkChain, Option.bind_eq_bind', Option.bind_eq_some] at he
    obtain ⟨cs, hcs, he⟩ := he
    split at he
    · cases he
    have hC := views_of_heap e hcs
    have hne : prev ≠ e.nextId := Nat.ne_of_lt hprev
    have hv := views_forkTurn cur cs hP hne
    set E := (((e.newState cs).1.modifyState (e.newState cs).2 fun s =>
      { s with recoveryState := some prev }).modifyState prev fun s =>
        { s with dependentState := some (e.newState cs).2 }).splitNode cs.ptreeNode
          (e.newState cs).2 cur with hE
    have hn : E.nextId = e.nextId + 1 := by rw [hE]; simp
    have hP₁ : Function.update e.views e.nextId (some cs.histView) prev = some P := by
      rw [Function.update_noteq hne]; exact hP
    -- the copy of `cur` becomes the dependent state of `prev`
    have h₁ : HistOK E.views := by
      rw [hv]
      refine (h.copy hC (hfr _ (Nat.le_refl _))).setDependent hP₁ fun _ F _ hF => ?_
      rw [Function.update_same] at hF
      cases hF
      exact hpre _ hC
    have hfr₁ : FreshFrom E.views E.nextId := by
      rw [hv, hn]
      exact ((hfr.copy hC _).mono (Nat.le_succ _)).setDependent hP₁ (Nat.lt_succ_self _)
    have hx : E.views e.nextId = some cs.histView := by
      rw [hv, Function.update_noteq (Ne.symm hne), Function.update_same]
    have hold : ∀ j < e.nextId, j ≠ prev → E.views j = e.views j := fun j hj hjp => by
      rw [hv, Function.update_noteq hjp, Function.update_noteq (Nat.ne_of_lt hj)]
    have hprev' : E.views prev = some { P with dependentState := some e.nextId } := by
      rw [hv, Function.update_same]
    split at he
    · -- a recovery state: the chain goes on below the copy
      rename_i hcsr
      obtain ⟨next, hnext, he⟩ := Option.bind_eq_some.mp he
      obtain ⟨h', hfr', hframe, y, Y, C', hy, hY, hC', hYC⟩ := histOK_forkChain fuel hfr₁ h₁
        (by omega) hx hcsr (fun C hC => h₁.dep _ _ next C hx hcsr hnext hC) he
      refine ⟨h', hfr', fun j hj hjp => ?_, e.nextId, _, cs.histView, ?_, hy, hC, rfl⟩
      · rw [hframe j (by omega) (Nat.ne_of_lt hj), hold j hj hjp]
      · rw [hframe prev (by omega) hne, hprev']
    · -- a normal state ends the chain
      obtain ⟨rfl, rfl⟩ := Prod.mk.inj_iff.mp (Option.some.inj he)
      exact ⟨h₁, hfr₁, hold, e.nextId, cs.histView, cs.histView, hprev', hx, hC, rfl⟩

/-- `forkDependentStates t f`: `f`, a recovery state whose history extends that of `t`'s
dependent state, takes a copy of `t`'s chain as its own. -/
theorem histOK_forkDependentStates {e : Executor} (hfr : FreshFrom e.views e.nextId)
    (h : HistOK e.views) {t f : Nat} {P : HistView} (hf : f < e.nextId)
    (hP : e.views f = some P) (hrec : P.isRecovery = true)
    (hpre : ∀ ts d C, e.heap t = some ts → ts.dependentState = some d → e.views d = some C →
      C.branchHist <+: P.branchHist)
    {e' : Executor} (he : e.forkDependentStates t f = some e') :
    HistOK e'.views ∧ FreshFrom e'.views e'.nextId ∧
      (∀ j < e.nextId, j ≠ f → e'.views j = e.views j) ∧
      ∃ x X, e'.views f = some { P with dependentState := some x } ∧ e'.views x = some X ∧
        ∃ ts d C, e.heap t = some ts ∧ ts.dependentState = some d ∧ e.views d = some C ∧
          X.branchHist = C.branchHist := by
  simp only [Executor.forkDependentStates, Option.bind_eq_bind', Option.bind_eq_some] at he
  obtain ⟨ts, hts, d, hd, ⟨e₁, orig⟩, h₁, he⟩ := he
  cases he
  obtain ⟨h', hfr', hframe, x, X, C, hx, hX, hC, hXC⟩ :=
    histOK_forkChain _ hfr h hf hP hrec (fun C hC => hpre ts d C hts hd hC) h₁
  rw [views_setOriginating]
  exact ⟨h', hfr'.mono (cacheGrows_setOriginating _ _ _ _).1, hframe, x, X, hx, hX, ts, d, C, hts,
    hd, hC, hXC⟩

/-- Two states with the view `C` take the two sides of a branch. -/
theorem views_grow₂ {t f : Nat} (htf : t ≠ f) {C : HistView} (ht : e.views t = some C)
    (hf : e.views f = some C) :
    ((e.modifyState t fun s =>
      { s with depth := s.depth + 1, branchHist := s.branchHist ++ ['0'] }).modifyState f fun s =>
        { s with depth := s.depth + 1, branchHist := s.branchHist ++ ['1'] }).views =
      Function.update (Function.update e.views t (some (C.grow false '0'))) f
        (some (C.grow false '1')) := by
  have hg : ∀ (c : Char) (s : ExecutionState),
      ({ s with depth := s.depth + 1, branchHist := s.branchHist ++ [c] } : ExecutionState).histView =
        (fun v : HistView => { v with depth := v.depth + 1, branchHist := v.branchHist ++ [c] })
          s.histView :=
    fun _ _ => rfl
  rw [views_modifyState_of _ f
      (fun v : HistView => { v with depth := v.depth + 1, branchHist := v.branchHist ++ ['1'] })
      (hg '1'),
    views_modifyState_of _ t
      (fun v : HistView => { v with depth := v.depth + 1, branchHist := v.branchHist ++ ['0'] })
      (hg '0'),
    Function.update_noteq htf.symm, ht, hf]
  rfl

/-- The growth step of `forkStates` on the views. -/
theorem views_forkGrow {t f : Nat} (htf : t ≠ f) {C : HistView} (ht : e.views t = some C)
    (hf : e.views f = some C) (internal : Bool) :
    (if internal = true then e else (e.modifyState t fun s =>
      { s with depth := s.depth + 1, branchHist := s.branchHist ++ ['0'] }).modifyState f fun s =>
        { s with depth := s.depth + 1, branchHist := s.branchHist ++ ['1'] }).views =
      Function.update (Function.update e.views t (some (C.grow internal '0'))) f
        (some (C.grow internal '1')) := by
  cases internal
  · exact views_grow₂ htf ht hf
  · have hg : ∀ c, C.grow true c = C := fun _ => rfl
    show e.views = _
    rw [hg, hg, ← ht, Function.update_eq_self, ht, ← hf, Function.update_eq_self]

/-- A two-way fork: both sides take the history of the current state, with `0` on the true side
and `1` on the false side unless the fork is internal. -/
theorem histOK_forkStates {e : Executor} (hfr : FreshFrom e.views e.nextId) (h : HistOK e.views)
    {cur : Nat} (hcur : cur < e.nextId) (hu : Unpinned e.views cur) {fi : ForkInput}
    {curIsTrue removePrefixes : Bool}
    {e' : Executor} {t f : Nat}
    (he : e.forkStates cur fi curIsTrue removePrefixes = some (e', t, f)) :
    HistOK e'.views ∧ ∃ C, e.views cur = some C ∧
      (∃ T, e'.views t = some T ∧
        T.branchHist = C.branchHist ++ if fi.isInternal then [] else ['0']) ∧
      ∃ F, e'.views f = some F ∧
        F.branchHist = C.branchHist ++ if fi.isInternal then [] else ['1'] := by
  rw [Executor.forkStates] at he
  obtain ⟨⟨e₁, new⟩, hb, he⟩ := Option.bind_eq_some.mp he
  obtain ⟨cs₀, hcs₀, hb⟩ := Option.map_eq_some'.mp hb
  obtain ⟨rfl, rfl⟩ : (e.newState cs₀).1 = e₁ ∧ e.nextId = new :=
    ⟨congrArg Prod.fst hb, congrArg Prod.snd hb⟩
  have hC := views_of_heap e hcs₀
  have hcn : cur ≠ e.nextId := Nat.ne_of_lt hcur
  have hv₁ := views_newState e cs₀
  set V₁ := Function.update e.views e.nextId (some cs₀.histView) with hV₁
  have hfr₁ : FreshFrom V₁ (e.nextId + 1) := (hfr.copy hC e.nextId).mono (Nat.le_succ _)
  have hc₁ : V₁ cur = some cs₀.histView := by rw [hV₁, Function.update_noteq hcn]; exact hC
  have hx₁ : V₁ e.nextId = some cs₀.histView := Function.update_same _ _ _
  -- the current state and its copy, in either role
  have hp : (if curIsTrue = true then (cur, e.nextId) else (e.nextId, cur)) = (cur, e.nextId) ∨
      (if curIsTrue = true then (cur, e.nextId) else (e.nextId, cur)) = (e.nextId, cur) := by
    split <;> simp
  dsimp only at he
  generalize (if curIsTrue = true then (cur, e.nextId) else (e.nextId, cur)) = p at he hp
  obtain ⟨t₀, f₀⟩ := p
  obtain ⟨htf, ht₁, hf₁, hut, huf, hlt, hcurs, hnews⟩ : t₀ ≠ f₀ ∧ V₁ t₀ = some cs₀.histView ∧
      V₁ f₀ = some cs₀.histView ∧ Unpinned V₁ t₀ ∧ Unpinned V₁ f₀ ∧
      (t₀ < e.nextId + 1 ∧ f₀ < e.nextId + 1) ∧ (cur = t₀ ∨ cur = f₀) ∧
      (e.nextId = t₀ ∨ e.nextId = f₀) := by
    have hu₁ := hu.copy hC e.nextId
    have hn₁ := (hfr _ (Nat.le_refl _)).copy hC e.nextId
    rcases hp with hp | hp <;> obtain ⟨rfl, rfl⟩ := Prod.mk.inj_iff.mp hp
    exacts [⟨hcn, hc₁, hx₁, hu₁, hn₁, by omega, .inl rfl, .inr rfl⟩,
      ⟨hcn.symm, hx₁, hc₁, hn₁, hu₁, by omega, .inr rfl, .inl rfl⟩]
  -- the prefixes split: no view changes
  generalize hep : (if removePrefixes = true then _ else (e.newState cs₀).1) = ep at he
  have hvp : ep.views = V₁ := by
    rw [← hep, ← hv₁]
    split
    · rw [views_modifyState _ _ (f := fun x => x.removeTruePrefixes) fun _ => rfl,
        views_modifyState _ _ (f := fun x => x.removeFalsePrefixes) fun _ => rfl]
    · rfl
  have hnp : ep.nextId = e.nextId + 1 := by rw [← hep]; split <;> simp
  obtain ⟨cs, hcs, he⟩ := Option.bind_eq_some.mp he
  have hcs' : cs.histView = cs₀.histView := by
    have h' := views_of_heap ep hcs
    rw [hvp, hc₁] at h'
    exact (Option.some.inj h').symm
  -- the two sides grow, and take the condition
  generalize hed : Executor.modifyState
    (Executor.modifyState (if fi.isInternal = true then _ else _) _ _) _ _ = ed at he
  set V₄ := Function.update (Function.update V₁ t₀ (some (cs₀.histView.grow fi.isInternal '0')))
    f₀ (some (cs₀.histView.grow fi.isInternal '1')) with hV₄
  have hved : ed.views = V₄ := by
    have hs := views_splitNode ep cs.ptreeNode f₀ t₀
    rw [hvp] at hs
    rw [← hed, views_modifyState _ _ (f := fun x => x.addConstraint fi.condition.createIsZero)
      fun s => ExecutionState.histView_addConstraint s _,
      views_modifyState _ _ (f := fun x => x.addConstraint fi.condition)
      fun s => ExecutionState.histView_addConstraint s _,
      views_forkGrow htf (hs ▸ ht₁) (hs ▸ hf₁), hs]
  have hned : ed.nextId = e.nextId + 1 := by rw [← hed]; split <;> simp [hnp]
  have h₄ : HistOK V₄ := (h.copy hC (hfr _ (Nat.le_refl _))).grow₂ htf ht₁ hf₁ hut huf fi.isInternal
  have ht₄ : V₄ t₀ = some (cs₀.histView.grow fi.isInternal '0') := by
    rw [hV₄, Function.update_noteq htf, Function.update_same]
  have hf₄ : V₄ f₀ = some (cs₀.histView.grow fi.isInternal '1') := Function.update_same _ _ _
  -- the states of both sides: the current state and its copy
  have hside : ∀ j, j = t₀ ∨ j = f₀ → ∃ c, V₄ j = some (cs₀.histView.grow fi.isInternal c) := by
    rintro j (rfl | rfl)
    exacts [⟨'0', ht₄⟩, ⟨'1', hf₄⟩]
  have hend : ∀ E : Executor, HistOK E.views →
      (∀ j, j = t₀ ∨ j = f₀ → ∀ Y, V₄ j = some Y →
        ∃ X, E.views j = some X ∧ X.branchHist = Y.branchHist) →
      HistOK E.views ∧ ∃ C, e.views cur = some C ∧
        (∃ T, E.views t₀ = some T ∧
          T.branchHist = C.branchHist ++ if fi.isInternal then [] else ['0']) ∧
        ∃ F, E.views f₀ = some F ∧
          F.branchHist = C.branchHist ++ if fi.isInternal then [] else ['1'] := by
    intro E hE hkeep
    obtain ⟨T, hT, hTh⟩ := hkeep t₀ (.inl rfl) _ ht₄
    obtain ⟨F, hF, hFh⟩ := hkeep f₀ (.inr rfl) _ hf₄
    exact ⟨hE, _, hC, ⟨T, hT, by rw [hTh, HistView.grow_branchHist]⟩,
      ⟨F, hF, by rw [hFh, HistView.grow_branchHist]⟩⟩
  split at he
  · -- a recovery state: the copy takes a copy of the chain, and the conditions spread
    rename_i hrec
    obtain ⟨e₃, h₃, he⟩ := Option.bind_eq_some.mp he
    obtain ⟨e₄, h₄', he⟩ := Option.bind_eq_some.mp he
    obtain ⟨e₅, h₅, he⟩ := Option.bind_eq_some.mp he
    cases he
    rw [views_mergeConstraintsForAll h₅, views_mergeConstraintsForAll h₄']
    obtain ⟨c, hP⟩ := hside _ hnews
    have hCr : cs₀.histView.isRecovery = true := by rw [← hcs']; exact hrec
    -- the copy's history extends that of the current state's dependent state
    have hpre : ∀ ts d D, ed.heap cur = some ts → ts.dependentState = some d →
        ed.views d = some D → D.branchHist <+: (cs₀.histView.grow fi.isInternal c).branchHist := by
      intro ts d D hts hd hD
      obtain ⟨c', hc'⟩ := hside _ hcurs
      have hts' := views_of_heap ed hts
      rw [hved, hc'] at hts'
      refine h₄.dep _ _ d D hP (by simpa using hCr) ?_ (hved ▸ hD)
      rw [HistView.grow_dependentState, ← hd, ← HistView.grow_dependentState fi.isInternal c',
        Option.some.inj hts']
      rfl
    obtain ⟨h₃', -, hframe, x, -, hx, -⟩ := histOK_forkDependentStates
      (hved ▸ hned ▸ hfr₁.grow₂ ht₁ fi.isInternal)
      (hved ▸ h₄) (by omega) (hved ▸ hP) (by simpa using hCr) hpre h₃
    refine hend _ h₃' fun j hj Y hY => ?_
    by_cases hjn : j = e.nextId
    · subst hjn
      rw [hP] at hY
      cases hY
      exact ⟨_, hx, rfl⟩
    · refine ⟨Y, ?_, rfl⟩
      rw [hframe j (by rw [hned]; rcases hj with rfl | rfl; exacts [hlt.1, hlt.2]) hjn, hved, hY]
  · cases he
    exact hend _ (hved ▸ h₄) fun j _ Y hY => ⟨Y, hved ▸ hY, rfl⟩

theorem views_forcedChoice (cur : Nat) (s : ExecutionState) (fi : ForkInput) (res : Validity) :
    (e.forcedChoice cur s fi res).1.views = e.views := by
  unfold Executor.forcedChoice
  split
  · split <;> exact views_modifyState _ _ fun s => ExecutionState.histView_addConstraint s _
  · rfl

theorem nextId_forcedChoice (cur : Nat) (s : ExecutionState) (fi : ForkInput) (res : Validity) :
    (e.forcedChoice cur s fi res).1.nextId = e.nextId := by
  unfold Executor.forcedChoice
  split
  · split <;> simp
  · rfl

/-- A branch followed without forking: the current state's history takes `c`, unless the
branch is internal. -/
theorem histOK_followBranch (h : HistOK e.views) {cur : Nat} {C : HistView}
    (hC : e.views cur = some C) (hu : Unpinned e.views cur) (fi : ForkInput) (c : Char) :
    HistOK (e.followBranch cur fi c).views ∧
      (e.followBranch cur fi c).views cur = some (C.grow fi.isInternal c) := by
  have hg : ∀ s : ExecutionState,
      ({ s with depth := s.depth + 1, branchHist := s.branchHist ++ [c] } : ExecutionState).histView =
        (fun v : HistView => { v with depth := v.depth + 1, branchHist := v.branchHist ++ [c] })
          s.histView :=
    fun _ => rfl
  unfold Executor.followBranch HistView.grow
  split
  · exact ⟨h, hC⟩
  · rw [views_modifyState_of _ cur
      (fun v : HistView => { v with depth := v.depth + 1, branchHist := v.branchHist ++ [c] }) hg, hC]
    exact ⟨h.extend hC hu [c], Function.update_same _ _ _⟩

/-- `fork`: every state it returns has the history of the current state and, unless the fork
is internal, one more character. -/
theorem histOK_fork {e₀ : Executor} (hi₀ : e₀.Inert) (ht : Tracks e₀ e) (h : HistOK e.views)
    {cur : Nat} (hcur : e.Known e₀ cur) (hnd : e.NotDep cur) {fi : ForkInput} {e' : Executor}
    {t f : Option Nat} (he : e.fork cur fi = some (e', t, f)) :
    HistOK e'.views ∧ ∀ x, t = some x ∨ f = some x → ∃ C X, e.views cur = some C ∧
      e'.views x = some X ∧ ∃ c, X.branchHist = C.branchHist ++ if fi.isInternal then [] else [c] := by
  rw [Executor.fork] at he
  obtain ⟨s, hs, he⟩ := Option.bind_eq_some.mp he
  obtain ⟨dec, -, he⟩ := Option.bind_eq_some.mp he
  have hC := views_of_heap e hs
  split at he
  · cases he
    exact ⟨histOK_terminateStateOrChain hi₀ ht hcur h, by simp⟩
  rename_i res forkAndSuspend
  dsimp only at he
  have hv₁ := views_forcedChoice (e := e) cur s fi res
  have hn₁ := nextId_forcedChoice (e := e) cur s fi res
  generalize e.forcedChoice cur s fi res = p at he hv₁ hn₁
  obtain ⟨e₁, res'⟩ := p
  dsimp only at hv₁ hn₁ he
  obtain ⟨hlt, hu⟩ := hi₀.known ht hcur hnd
  have hfr₁ : FreshFrom e₁.views e₁.nextId := hv₁ ▸ hn₁ ▸ (hi₀.tracks ht).freshFrom
  have hlt₁ : cur < e₁.nextId := hn₁ ▸ hlt
  have hu₁ : Unpinned e₁.views cur := hv₁ ▸ hu
  -- a fork: the two sides, read off `histOK_forkStates`
  have hforked : ∀ {E E₂ : Executor} {b r : Bool} {t₁ f₁ : Nat},
      E.forkStates cur fi b r = some (E₂, t₁, f₁) → E.views = e.views → E.nextId = e₁.nextId →
      HistOK E₂.views ∧ ∀ x, some t₁ = some x ∨ some f₁ = some x → ∃ C X, e.views cur = some C ∧
        E₂.views x = some X ∧ ∃ c, X.branchHist = C.branchHist ++ if fi.isInternal then [] else [c] := by
    intro E E₂ b r t₁ f₁ hE hv hn
    obtain ⟨h', C, hC', ⟨T, hT, hTh⟩, F, hF, hFh⟩ := histOK_forkStates (hv ▸ hn ▸ hv₁ ▸ hfr₁)
      (hv ▸ h) (hn ▸ hlt₁) (hv ▸ hv₁ ▸ hu₁) hE
    rw [hv] at hC'
    refine ⟨h', fun x hx => ?_⟩
    rcases hx with hx | hx <;> cases hx
    exacts [⟨C, T, hC', hT, _, hTh⟩, ⟨C, F, hC', hF, _, hFh⟩]
  -- no fork: the current state follows one side
  have hfollow : ∀ c, HistOK (e₁.followBranch cur fi c).views ∧ ∃ C X, e.views cur = some C ∧
      (e₁.followBranch cur fi c).views cur = some X ∧
        ∃ c', X.branchHist = C.branchHist ++ if fi.isInternal then [] else [c'] := by
    intro c
    obtain ⟨h', hX⟩ := histOK_followBranch (hv₁ ▸ h) (hv₁ ▸ hC) hu₁ fi c
    exact ⟨h', _, _, hC, hX, c, HistView.grow_branchHist _ _ _⟩
  split at he
  · obtain ⟨⟨e₂, t₂, f₂⟩, h₂, he⟩ := Option.bind_eq_some.mp he
    cases he
    exact (hforked h₂ hv₁ rfl :)
  · cases he
    obtain ⟨h', hx⟩ := hfollow '2'
    exact ⟨h', fun x hx' => by rcases hx' with h | h <;> cases h; exact hx⟩
  · obtain ⟨⟨e₂, t₂, f₂⟩, h₂, he⟩ := Option.bind_eq_some.mp he
    cases he
    exact (hforked h₂ hv₁ rfl :)
  · cases he
    obtain ⟨h', hx⟩ := hfollow '3'
    exact ⟨h', fun x hx' => by rcases hx' with h | h <;> cases h; exact hx⟩
  · obtain ⟨⟨e₂, t₂, f₂⟩, h₂, he⟩ := Option.bind_eq_some.mp he
    cases he
    exact (hforked h₂ hv₁ rfl :)

/-! ## Multi-way branches -/

/-- One round of `branchCopies`: the last state `es` of the result is copied to the state
`e.nextId`, which joins the result, and the two histories grow by `0` and `1`. -/
theorem branchCopies_succ {n : Nat} {result : List Nat} {addStates : Bool} {e' : Executor}
    {result' : List Nat} (hlt : ∀ x ∈ result, x < e.nextId)
    (he : branchCopies (n + 1) e result addStates = some (e', result')) :
    ∃ es s₀ e₄, result.getLast? = some es ∧ e.heap es = some s₀ ∧
      e₄.views = Function.update (Function.update (Function.update e.views e.nextId
        (some s₀.histView)) es (some (s₀.histView.grow false '0'))) e.nextId
        (some (s₀.histView.grow false '1')) ∧
      e₄.nextId = e.nextId + 1 ∧ branchCopies n e₄ (result ++ [e.nextId]) addStates = some (e', result') := by
  rw [Executor.branchCopies] at he
  obtain ⟨es, hes, he⟩ := Option.bind_eq_some.mp he
  obtain ⟨⟨e₁, ns⟩, hb, he⟩ := Option.bind_eq_some.mp he
  obtain ⟨s₀, hs₀, hb⟩ := Option.map_eq_some'.mp hb
  obtain ⟨rfl, rfl⟩ : (e.newState s₀).1 = e₁ ∧ e.nextId = ns :=
    ⟨congrArg Prod.fst hb, congrArg Prod.snd hb⟩
  dsimp only at he
  generalize he₂ : (if addStates = true then _ else (e.newState s₀).1) = e₂ at he
  have hv₂ : e₂.views = Function.update e.views e.nextId (some s₀.histView) := by
    rw [← he₂]; split <;> exact views_newState e s₀
  have hn₂ : e₂.nextId = e.nextId + 1 := by rw [← he₂]; split <;> rfl
  obtain ⟨s, -, he⟩ := Option.bind_eq_some.mp he
  have hne : es ≠ e.nextId := Nat.ne_of_lt (hlt es (List.mem_of_getLast?_eq_some hes))
  have hv₄ := views_grow₂ (e := e₂.splitNode s.ptreeNode e.nextId es) hne
    (by rw [views_splitNode, hv₂, Function.update_noteq hne]; exact views_of_heap e hs₀)
    (by rw [views_splitNode, hv₂]; exact Function.update_same _ _ _)
  rw [views_splitNode, hv₂] at hv₄
  exact ⟨es, s₀, _, hes, hs₀, hv₄,
    by rw [nextId_modifyState, nextId_modifyState, nextId_splitNode, hn₂], he⟩

/-- The copies of a multi-way branch: the last state of the result is copied, the copy takes
`1` and the state `0`. Every state of the result is a case of the branch that nothing pins. -/
theorem histOK_branchCopies {C : HistView} : ∀ (n : Nat) {e : Executor} (result : List Nat)
    (addStates : Bool) {e' : Executor} {result' : List Nat},
    FreshFrom e.views e.nextId → HistOK e.views →
    (∀ x ∈ result, x < e.nextId ∧ Unpinned e.views x ∧ CaseOf e.views C x) →
    branchCopies n e result addStates = some (e', result') →
    HistOK e'.views ∧ FreshFrom e'.views e'.nextId ∧
      ∀ x ∈ result', x < e'.nextId ∧ Unpinned e'.views x ∧ CaseOf e'.views C x
  | 0, e, _, _, _, _, hfr, h, hres, he => by cases he; exact ⟨h, hfr, hres⟩
  | n + 1, e, result, addStates, e', result', hfr, h, hres, he => by
    obtain ⟨es, s₀, e₄, hes, hs₀, hv₄, hn₄, he⟩ := branchCopies_succ (fun x hx => (hres x hx).1) he
    have hX := views_of_heap e hs₀
    obtain ⟨hlt, hu, hcase⟩ := hres es (List.mem_of_getLast?_eq_some hes)
    have hne : es ≠ e.nextId := Nat.ne_of_lt hlt
    set V₁ := Function.update e.views e.nextId (some s₀.histView) with hV₁
    have hes₁ : V₁ es = some s₀.histView := by rw [hV₁, Function.update_noteq hne]; exact hX
    have hns₁ : V₁ e.nextId = some s₀.histView := Function.update_same _ _ _
    set V₄ := Function.update (Function.update V₁ es (some (s₀.histView.grow false '0'))) e.nextId
      (some (s₀.histView.grow false '1')) with hV₄
    -- no dependent state of a state of `e` is the copied state or its copy
    have hdeps : ∀ r R d, e.views r = some R → R.isRecovery = true →
        R.dependentState = some d → V₄ d = e.views d := by
      intro r R d hr hrec hd
      have hde : d ≠ es := fun hde => hu.1 r R hr hrec (hde ▸ hd)
      have hdn : d ≠ e.nextId := fun hdn => (hfr _ (Nat.le_refl _)).1 r R hr hrec (hdn ▸ hd)
      rw [hV₄, hV₁, Function.update_noteq hdn, Function.update_noteq hde, Function.update_noteq hdn]
    have hcopy : ∀ c, CaseOf e.views C es → ∀ x, V₄ x = some (s₀.histView.grow false c) →
        CaseOf V₄ C x := fun c hc x hx =>
      hc.transfer hX hx (HistView.grow_type _ _ _)
        (by rw [HistView.grow_branchHist]; exact List.prefix_append _ _)
        (HistView.grow_dependentState _ _ _) fun d hr hd => by rw [hdeps es _ d hX hr hd]
    refine histOK_branchCopies n _ _ ?_ ?_ (fun x hx => ?_) he
    · rw [hv₄, hn₄]
      exact ((hfr.copy hX _).mono (Nat.le_succ _)).grow₂ hes₁ false
    · rw [hv₄]
      exact (h.copy hX (hfr _ (Nat.le_refl _))).grow₂ hne hes₁ hns₁
        ((hu.copy hX _)) ((hfr _ (Nat.le_refl _)).copy hX _) false
    · rw [hv₄, hn₄]
      rcases List.mem_append.mp hx with hx | hx
      · obtain ⟨hxl, hxu, hxc⟩ := hres x hx
        refine ⟨Nat.lt_succ_of_lt hxl, (hxu.copy hX _).grow₂ hes₁ false, ?_⟩
        by_cases hxe : x = es
        · subst hxe
          exact hcopy '0' hxc x (by rw [hV₄, Function.update_noteq hne, Function.update_same])
        · obtain ⟨Y, hY, -⟩ := id hxc
          exact hxc.transfer hY (by rw [hV₄, hV₁, Function.update_noteq (Nat.ne_of_lt hxl),
            Function.update_noteq hxe, Function.update_noteq (Nat.ne_of_lt hxl)]; exact hY)
            rfl (List.prefix_refl _) rfl fun d hr hd => by rw [hdeps x Y d hY hr hd]
      · rw [List.mem_singleton.mp hx]
        exact ⟨Nat.lt_succ_self _, ((hfr _ (Nat.le_refl _)).copy hX _).grow₂ hes₁ false,
          hcopy '1' hcase _ (Function.update_same _ _ _)⟩

/-- The histories `branchCopies` gives: with `m` states in the result, the `i`-th has the
history `h ++ unaryCode m i`. -/
theorem branchCopies_unaryCode {h : List Char} : ∀ (n : Nat) {e : Executor} (result : List Nat)
    (addStates : Bool) {e' : Executor} {result' : List Nat},
    result ≠ [] → result.Nodup → (∀ x ∈ result, x < e.nextId) →
    (∀ i x, result[i]? = some x →
      ∃ X, e.views x = some X ∧ X.branchHist = h ++ unaryCode result.length i) →
    branchCopies n e result addStates = some (e', result') →
    result'.length = result.length + n ∧ ∀ i x, result'[i]? = some x →
      ∃ X, e'.views x = some X ∧ X.branchHist = h ++ unaryCode result'.length i
  | 0, e, _, _, _, _, _, _, _, hcode, he => by cases he; exact ⟨rfl, hcode⟩
  | n + 1, e, result, addStates, e', result', hne, hnd, hlt, hcode, he => by
    obtain ⟨es, s₀, e₄, hes, hs₀, hv₄, hn₄, he⟩ := branchCopies_succ hlt he
    have hm0 : 0 < result.length := List.length_pos.mpr hne
    have hfresh : e.nextId ∉ result := fun hx => Nat.lt_irrefl _ (hlt _ hx)
    rw [List.getLast?_eq_getElem?] at hes
    have hS : s₀.histView.branchHist = h ++ unaryCode result.length (result.length - 1) := by
      obtain ⟨X, hX, hXh⟩ := hcode _ _ hes
      rw [views_of_heap e hs₀] at hX
      cases hX
      exact hXh
    have hcode₄ : ∀ i x, (result ++ [e.nextId])[i]? = some x → ∃ X, e₄.views x = some X ∧
        X.branchHist = h ++ unaryCode (result ++ [e.nextId]).length i := by
      intro i x hx
      rw [hv₄, List.length_append, List.length_singleton]
      rcases Nat.lt_or_ge i result.length with him | him
      · rw [List.getElem?_append_left him] at hx
        have hxn : x ≠ e.nextId := Nat.ne_of_lt (hlt x (List.mem_iff_getElem?.mpr ⟨i, hx⟩))
        rw [Function.update_noteq hxn]
        by_cases hie : i = result.length - 1
        · -- the copied state takes `0`
          subst hie
          cases hes.symm.trans hx
          rw [Function.update_same, unaryCode_succ_zero hm0]
          exact ⟨_, rfl, by rw [HistView.grow_branchHist, hS]; simp⟩
        · have hxe : x ≠ es := fun hxe =>
            hie (List.getElem?_inj him hnd (hx.trans (hxe ▸ hes).symm))
          rw [Function.update_noteq hxe, Function.update_noteq hxn, unaryCode_succ_of_lt (by omega)]
          exact hcode i x hx
      · -- the copy takes `1`
        rw [List.getElem?_append_right him] at hx
        obtain rfl : i = result.length := by
          by_contra hi
          rw [List.getElem?_eq_none (by simp; omega)] at hx
          cases hx
        rw [Nat.sub_self, List.getElem?_cons_zero, Option.some.injEq] at hx
        subst hx
        rw [Function.update_same, unaryCode_succ_one hm0]
        exact ⟨_, rfl, by rw [HistView.grow_branchHist, hS]; simp⟩
    obtain ⟨hlen, hcode'⟩ := branchCopies_unaryCode n _ addStates (by simp)
      (List.nodup_append.mpr ⟨hnd, List.nodup_singleton _, by simpa using hfresh⟩)
      (fun x hx => by
        rw [hn₄]
        rcases List.mem_append.mp hx with hx | hx
        · exact Nat.lt_succ_of_lt (hlt x hx)
        · rw [List.mem_singleton.mp hx]; exact Nat.lt_succ_self _) hcode₄ he
    exact ⟨by rw [hlen, List.length_append, List.length_singleton]; omega, hcode'⟩

theorem views_eraseChain : ∀ (fuel : Nat) {e e' : Executor} (cur : Nat),
    eraseChain fuel e cur = some e' → e'.views = e.views ∧ e'.nextId = e.nextId
  | 0, _, _, _, he => by cases he
  | fuel + 1, e, e', cur, he => by
    rw [Executor.eraseChain] at he
    split at he
    · cases he
    dsimp only at he
    split at he
    · have h' := views_eraseChain fuel _ he
      exact h'
    · cases he; exact ⟨rfl, rfl⟩

/-- The ranging of the cases changes lists only. -/
theorem views_rangeCases {result : List Nat} {e' : Executor} (he : e.rangeCases result = some e') :
    e'.views = e.views ∧ e'.nextId = e.nextId := by
  rw [Executor.rangeCases] at he
  obtain ⟨s₀, -, he⟩ := Option.bind_eq_some.mp he
  obtain ⟨r₀, -, he⟩ := Option.bind_eq_some.mp he
  generalize List.findIdx? _ result = matching at he
  cases matching with
  | none =>
    obtain ⟨searcher, -, he⟩ := Option.bind_eq_some.mp he
    split at he
    · cases he
    · cases he; exact ⟨rfl, rfl⟩
  | some satCase =>
    dsimp only at he
    split at he
    · cases he; exact ⟨rfl, rfl⟩
    · obtain ⟨searcher, -, he⟩ := Option.bind_eq_some.mp he
      have h' := views_eraseChain _ _ he
      exact h'

theorem histOK_branchTail {C : HistView} {L : List Nat} :
    ∀ (pairs : List (Option Nat × Expr)) (prev : Option Nat) {e e' : Executor},
    FreshFrom e.views e.nextId → HistOK e.views → (∀ x ∈ L, x < e.nextId ∧ CaseOf e.views C x) →
    (∀ x, some x ∈ prev :: pairs.map Prod.fst → x ∈ L) →
    branchTail pairs prev e = some e' →
    HistOK e'.views ∧ FreshFrom e'.views e'.nextId ∧
      (∀ j < e.nextId, (e'.views j).map (·.branchHist) = (e.views j).map (·.branchHist)) ∧
      ∀ x ∈ L, x < e'.nextId ∧ CaseOf e'.views C x
  | [], _, _, _, hfr, h, hL, _, he => by cases he; exact ⟨h, hfr, fun _ _ => rfl, hL⟩
  | (current, c) :: rest, prev, e, e', hfr, h, hL, hsub, he => by
    have hsub' : ∀ x, some x ∈ current :: rest.map Prod.fst → x ∈ L :=
      fun x hx => hsub x (List.mem_cons_of_mem _ hx)
    simp only [Executor.branchTail] at he
    cases current with
    | none => exact histOK_branchTail rest none hfr h hL hsub' he
    | some id =>
      obtain ⟨s, hs, he⟩ := Option.bind_eq_some.mp he
      split at he
      · -- a recovery case after another: it takes a copy of the chain of the case before it
        rename_i _ _ p hrec _
        obtain ⟨e₁, h₁, he⟩ := Option.bind_eq_some.mp he
        obtain ⟨hidl, P, hP, hPt, hPp, hPd⟩ := hL id (hsub' id (List.mem_cons_self _ _))
        obtain ⟨hpl, Q, hQ, hQt, hQp, hQd⟩ := hL p (hsub p (List.mem_cons_self _ _))
        rw [views_of_heap e hs] at hP
        cases hP
        have hQrec : Q.isRecovery = true := by
          simpa only [HistView.isRecovery, hQt, ← hPt] using hrec
        obtain ⟨h₁', hfr₁, hframe, x, X, hx, hX, ts, d, D, hts, hd, hD, hXD⟩ :=
          histOK_forkDependentStates hfr h hidl (views_of_heap e hs) hrec
            (fun ts d D hts hd hD => by
              rw [views_of_heap e hts] at hQ
              cases hQ
              exact (hQd hQrec d D hd hD).trans hPp) h₁
        rw [views_of_heap e hts] at hQ
        cases hQ
        have hn₁ := (cacheGrows_forkDependentStates _ h₁).1
        have hL₁ : ∀ y ∈ L, y < e₁.nextId ∧ CaseOf e₁.views C y := fun y hy => by
          obtain ⟨hyl, hyc⟩ := hL y hy
          refine ⟨Nat.lt_of_lt_of_le hyl hn₁, ?_⟩
          by_cases hyi : y = id
          · subst hyi
            refine ⟨_, hx, hPt, hPp, fun _ d' D' hd' hD' => ?_⟩
            cases hd'
            rw [hX] at hD'
            cases hD'
            rw [hXD]
            exact hQd hQrec d D hd hD
          · have hyc' := hyc
            obtain ⟨Y, hY, -⟩ := hyc'
            refine hyc.transfer hY (by rw [hframe y hyl hyi]; exact hY) rfl (List.prefix_refl _) rfl
              fun d' hr hd' => ?_
            by_cases hdi : d' = id
            · subst hdi; rw [hx, views_of_heap e hs]; rfl
            · have hdl : d' < e.nextId := Nat.lt_of_not_le fun hge =>
                (hfr d' hge).1 y Y hY hr hd'
              rw [hframe d' hdl hdi]
        obtain ⟨h', hfr', hkeep, hL'⟩ := histOK_branchTail rest _ hfr₁ h₁' hL₁ hsub' he
        -- the case `id` only takes a new dependent state
        refine ⟨h', hfr', fun j hj => ?_, hL'⟩
        rw [hkeep j (Nat.lt_of_lt_of_le hj hn₁)]
        by_cases hji : j = id
        · subst hji; rw [hx, views_of_heap e hs]; rfl
        · rw [hframe j hj hji]
      · exact histOK_branchTail rest _ hfr h hL hsub' he

theorem views_branchConstraints : ∀ (pairs : List (Option Nat × Expr)) {e e' : Executor},
    branchConstraints pairs e = some e' → e'.views = e.views
  | [], _, _, he => by cases he; rfl
  | (none, _) :: rest, _, _, he =>
    views_branchConstraints rest (by simpa [Executor.branchConstraints] using he)
  | (some id, c) :: rest, e, e', he => by
    simp only [Executor.branchConstraints, Option.bind_eq_bind', Option.bind_eq_some] at he
    obtain ⟨s, -, he⟩ := he
    have hm : (e.modifyState id (·.addConstraint c)).views = e.views :=
      views_modifyState e id fun s => ExecutionState.histView_addConstraint s c
    split at he
    · obtain ⟨e₁, h₁, he⟩ := Option.bind_eq_some.mp he
      rw [views_branchConstraints rest he, views_mergeConstraintsForAll h₁, hm]
    · rw [views_branchConstraints rest (by simpa using he), hm]

/-- What a multi-way branch does: past `MaxForks` the current state follows the case `rng`;
below it, `branchCopies` makes the cases, ranged when the state is a worker's ranging state;
then the recovery cases take copies of chains and every case takes its condition. -/
theorem branch_inv {cur : Nat} {conditions : List Expr} {rng : Nat} {e' : Executor}
    {result : List (Option Nat)} (he : e.branch cur conditions rng = some (e', result)) :
    0 < conditions.length ∧ ∃ s e₁, e.heap cur = some s ∧
      ((∃ m, e.opts.MaxForks = some m ∧ m ≤ e.forks) ∧ e₁ = e ∧
          result = (List.range conditions.length).map
            (fun i => if i = rng % conditions.length then some cur else none) ∨
        (∀ m, e.opts.MaxForks = some m → e.forks < m) ∧ ∃ addStates res e₄,
          branchCopies (conditions.length - 1)
            { e with forks := e.forks + (conditions.length - 1) } [cur] addStates = some (e₄, res) ∧
          (e₁ = e₄ ∨ e₄.rangeCases res = some e₁) ∧ result = res.map some) ∧
      ∃ e₂, branchTail (result.zip conditions) none e₁ = some e₂ ∧
        branchConstraints (result.zip conditions) e₂ = some e' := by
  rw [Executor.branch] at he
  split at he
  · cases he
  rename_i hN
  obtain ⟨s, hs, he⟩ := Option.bind_eq_some.mp he
  dsimp only at he
  -- the last two loops, after each way of making the cases
  have hend : ∀ e₁ res, (do let e ← branchTail (res.zip conditions) none e₁
                            let e ← branchConstraints (res.zip conditions) e
                            some (e, res)) = some (e', result) → result = res ∧ ∃ e₂,
        branchTail (res.zip conditions) none e₁ = some e₂ ∧
        branchConstraints (res.zip conditions) e₂ = some e' := by
    intro e₁ res he
    obtain ⟨e₂, h₂, he⟩ := Option.bind_eq_some.mp he
    obtain ⟨e₃, h₃, he⟩ := Option.bind_eq_some.mp he
    obtain ⟨rfl, rfl⟩ := Prod.mk.inj_iff.mp (Option.some.inj he)
    exact ⟨rfl, _, h₂, h₃⟩
  refine ⟨Nat.pos_of_ne_zero hN, s, ?_⟩
  split at he
  · rename_i hm
    obtain ⟨rfl, htl⟩ := hend _ _ he
    refine ⟨e, hs, .inl ⟨?_, rfl, rfl⟩, htl⟩
    split at hm
    · exact ⟨_, ‹_›, by simpa using hm⟩
    · cases hm
  · rename_i hm
    have hlt : ∀ m, e.opts.MaxForks = some m → e.forks < m := fun m hm' => by
      simpa only [hm', ge_iff_le, decide_eq_true_eq, not_le] using hm
    split at he
    · obtain ⟨⟨e₄, res₄⟩, h₄, he⟩ := Option.bind_eq_some.mp he
      obtain ⟨rfl, htl⟩ := hend _ _ he
      exact ⟨e₄, hs, .inr ⟨hlt, true, res₄, e₄, h₄, .inl rfl, rfl⟩, htl⟩
    · obtain ⟨⟨e₄, res₄⟩, h₄, he⟩ := Option.bind_eq_some.mp he
      obtain ⟨e₅, h₅, he⟩ := Option.bind_eq_some.mp he
      obtain ⟨rfl, htl⟩ := hend _ _ he
      exact ⟨e₅, hs, .inr ⟨hlt, false, res₄, e₄, h₄, .inr h₅, rfl⟩, htl⟩

/-- The last two loops of a branch keep the histories of the states before them and the
cases. -/
theorem histOK_branchEnd {C : HistView} {conditions : List Expr} {res : List (Option Nat)}
    {e₁ e₂ e' : Executor} (hfr : FreshFrom e₁.views e₁.nextId) (h : HistOK e₁.views)
    (hres : ∀ x, some x ∈ res → x < e₁.nextId ∧ CaseOf e₁.views C x)
    (h₂ : branchTail (res.zip conditions) none e₁ = some e₂)
    (h₃ : branchConstraints (res.zip conditions) e₂ = some e') :
    HistOK e'.views ∧
      (∀ j < e₁.nextId, (e'.views j).map (·.branchHist) = (e₁.views j).map (·.branchHist)) ∧
      ∀ x, some x ∈ res → CaseOf e'.views C x := by
  have hsub : ∀ x, some x ∈ none :: (res.zip conditions).map Prod.fst →
      x ∈ res.filterMap fun x => x := by
    intro x hx
    simp only [List.mem_cons, reduceCtorEq, false_or, List.mem_map] at hx
    obtain ⟨⟨a, c⟩, hac, rfl⟩ := hx
    simpa using (List.of_mem_zip hac).1
  obtain ⟨h₂', -, hkeep, hL⟩ := histOK_branchTail _ none hfr h
    (fun x hx => hres x (by simpa using hx)) hsub h₂
  rw [views_branchConstraints _ h₃]
  exact ⟨h₂', hkeep, fun x hx => (hL x (by simpa using hx)).2⟩

/-- `branch`: every case it returns has the history of the current state, with more
characters. -/
theorem histOK_branch (hi : e.Inert) (h : HistOK e.views) {cur : Nat} (hcur : e.Named cur)
    (hnd : e.NotDep cur) {conditions : List Expr} {rng : Nat} {e' : Executor}
    {result : List (Option Nat)} (he : e.branch cur conditions rng = some (e', result)) :
    HistOK e'.views ∧ ∃ C, e.views cur = some C ∧ ∀ x, some x ∈ result →
      ∃ X, e'.views x = some X ∧ C.branchHist <+: X.branchHist := by
  obtain ⟨-, s, e₁, hs, hmid, e₂, h₂, h₃⟩ := branch_inv he
  have hC := views_of_heap e hs
  have hcl := hi.named_lt cur hcur
  have hcase : CaseOf e.views s.histView cur :=
    ⟨_, hC, rfl, List.prefix_refl _, fun hr d D hd hD => h.dep cur _ d D hC hr hd hD⟩
  -- the cases before the last two loops
  have h₁ : FreshFrom e₁.views e₁.nextId ∧ HistOK e₁.views ∧
      ∀ x, some x ∈ result → x < e₁.nextId ∧ CaseOf e₁.views s.histView x := by
    rcases hmid with ⟨-, rfl, rfl⟩ | ⟨-, addStates, res, e₄, h₄, h₅, rfl⟩
    · -- past `MaxForks`: the current state follows one case
      refine ⟨hi.freshFrom, h, fun x hx => ?_⟩
      obtain ⟨i, -, hi'⟩ := List.mem_map.mp hx
      split at hi'
      · cases hi'; exact ⟨hcl, hcase⟩
      · cases hi'
    obtain ⟨h₄', hfr₄, hres₄⟩ := histOK_branchCopies _ [cur] addStates (by exact hi.freshFrom) (by exact h)
      (by simpa using ⟨hcl, hi.unpinned hcur hnd, hcase⟩) h₄
    obtain ⟨hv₅, hn₅⟩ : e₁.views = e₄.views ∧ e₁.nextId = e₄.nextId := by
      rcases h₅ with rfl | h₅
      · exact ⟨rfl, rfl⟩
      · exact views_rangeCases h₅
    rw [hv₅, hn₅]
    exact ⟨hfr₄, h₄', fun x hx => by
      obtain ⟨hl, -, hc⟩ := hres₄ x (by simpa using hx); exact ⟨hl, hc⟩⟩
  obtain ⟨hfr₁, h₁', hres₁⟩ := h₁
  obtain ⟨h', -, hcases⟩ := histOK_branchEnd hfr₁ h₁' hres₁ h₂ h₃
  refine ⟨h', _, hC, fun x hx => ?_⟩
  obtain ⟨X, hX, -, hp, -⟩ := hcases x hx
  exact ⟨X, hX, hp⟩

/-- Below `MaxForks`, a branch on `N` conditions has `N` cases, and the `i`-th extends the
history of the branching state by `unaryCode N i`. -/
theorem branch_unaryCode (hi : e.Inert) (h : HistOK e.views) {cur : Nat} (hcur : e.Named cur)
    (hnd : e.NotDep cur) (hmax : ∀ m, e.opts.MaxForks = some m → e.forks < m)
    {conditions : List Expr} {rng : Nat} {e' : Executor} {result : List (Option Nat)}
    (he : e.branch cur conditions rng = some (e', result)) :
    ∃ C, e.views cur = some C ∧ result.length = conditions.length ∧
      ∀ i < conditions.length, ∃ x X, result[i]? = some (some x) ∧ e'.views x = some X ∧
        X.branchHist = C.branchHist ++ unaryCode conditions.length i := by
  obtain ⟨hN, s, e₁, hs, ⟨⟨m, hm, hle⟩, -⟩ | ⟨-, addStates, res, e₄, h₄, h₅, rfl⟩, e₂, h₂, h₃⟩ :=
    branch_inv he
  · exact absurd (hmax m hm) (Nat.not_lt.mpr hle)
  have hC := views_of_heap e hs
  have hcl := hi.named_lt cur hcur
  have hcase : CaseOf e.views s.histView cur :=
    ⟨_, hC, rfl, List.prefix_refl _, fun hr d D hd hD => h.dep cur _ d D hC hr hd hD⟩
  obtain ⟨h₄', hfr₄, hres₄⟩ := histOK_branchCopies _ [cur] addStates (by exact hi.freshFrom) (by exact h)
    (by simpa using ⟨hcl, hi.unpinned hcur hnd, hcase⟩) h₄
  obtain ⟨hlen, hcode⟩ := branchCopies_unaryCode (h := s.branchHist) _ [cur] addStates
    (List.cons_ne_nil _ _) (List.nodup_singleton _) (by simpa using hcl) (fun i x hx => by
      cases i with
      | zero => cases hx; exact ⟨_, hC, (List.append_nil _).symm⟩
      | succ i => simp at hx) h₄
  obtain ⟨hv₅, hn₅⟩ : e₁.views = e₄.views ∧ e₁.nextId = e₄.nextId := by
    rcases h₅ with rfl | h₅
    · exact ⟨rfl, rfl⟩
    · exact views_rangeCases h₅
  obtain ⟨-, hkeep, -⟩ := histOK_branchEnd (C := s.histView) (hv₅ ▸ hn₅ ▸ hfr₄) (hv₅ ▸ h₄')
    (fun x hx => by
      obtain ⟨hl, -, hc⟩ := hres₄ x (by simpa using hx); exact ⟨hn₅ ▸ hl, hv₅ ▸ hc⟩) h₂ h₃
  have hlen' : res.length = conditions.length := by
    rw [hlen, List.length_singleton]; omega
  refine ⟨_, hC, by rw [List.length_map, hlen'], fun i hi => ?_⟩
  obtain ⟨x, hx⟩ : ∃ x, res[i]? = some x := ⟨_, List.getElem?_eq_getElem (hlen' ▸ hi)⟩
  obtain ⟨X, hX, hXh⟩ := hcode i x hx
  have hxl := (hres₄ x (List.mem_iff_getElem?.mpr ⟨i, hx⟩)).1
  obtain ⟨X', hX', hX'h⟩ := Option.map_eq_some'.mp ((hkeep x (hn₅ ▸ hxl)).trans (by rw [hv₅, hX]; rfl))
  exact ⟨x, X', by simp [hx], hX', by rw [hX'h]; dsimp only; rw [hXh, hlen']; rfl⟩

end Executor

end PChop
