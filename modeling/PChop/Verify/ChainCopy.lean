import PChop.Verify.Skeleton

/-!
# Copying a chain of dependent states

`forkDependentStates t f` gives `f`, a fresh copy of the recovery state `t`, a copy of `t`'s
chain of dependent states. Its first loop (`forkChain`) copies the chain state by state into
consecutive fresh pointers, each copy pointing back to the one above it; its second loop
(`setOriginating`) sets the originating state of every recovery state of the new chain to the
copy of the normal state that ends it. Both loops run on the same fuel, the number of
allocated states, and the first one, when it succeeds, has used up no more fuel than the
second needs (`forkChain_spec`).

The result (`forkDependentStates_spec`): no state below the fresh pointers but `f` changes
its links, and `f` with every recovery state of its new chain is `Linked`.
-/

namespace PChop

namespace Executor

/-- The link fields after one turn of `forkChain`. -/
theorem linkView_forkChain_turn (e : Executor) (cs : ExecutionState) (prev cur : Nat)
    {P : Links} (hP : e.linkView prev = some P) (hprev : prev ≠ e.nextId) (j : Nat) :
    ((((e.newState cs).1.modifyState e.nextId fun s => { s with recoveryState := some prev
      }).modifyState prev fun s => { s with dependentState := some e.nextId }).splitNode
      cs.ptreeNode e.nextId cur).linkView j =
    if j = prev then some { P with dependentState := some e.nextId }
    else if j = e.nextId then some { cs.links with recoveryState := some prev }
    else e.linkView j := by
  rw [linkView_splitNode,
    linkView_modifyState_of _ _ (fun L => { L with dependentState := some e.nextId }) (fun _ => rfl),
    linkView_modifyState_of _ _ (fun L => { L with recoveryState := some prev }) (fun _ => rfl),
    linkView_newState]
  by_cases hj : j = prev
  · subst hj; simp [hprev, hP]
  · by_cases hx : j = e.nextId
    · subst hx; simp [hj]
    · simp [hj, hx]

theorem idLists_forkChain : ∀ (fuel : Nat) (e : Executor) (cur prev : Nat) {e' : Executor}
    {last : Nat}, forkChain fuel e cur prev = some (e', last) → e'.idLists = e.idLists
  | 0, _, _, _, _, _, h => by cases h
  | fuel + 1, e, cur, prev, e', last, h => by
    simp only [forkChain, Option.bind_eq_bind', Option.bind_eq_some] at h
    obtain ⟨cs, -, h⟩ := h
    split at h
    · cases h
    split at h
    · obtain ⟨next, -, h⟩ := Option.bind_eq_some.mp h
      rw [idLists_forkChain fuel _ next _ h]; simp
    · cases h; simp

/-- The first loop of `forkDependentStates`: below `prev`, a recovery state waiting for the
copy of the chain from `cur`, it copies the chain into the next fresh pointers. The fuel it
uses is the length of the chain; no other state changes its links, and `prev` changes only
its dependent state. -/
theorem forkChain_spec : ∀ (fuel : Nat) (e : Executor) (cur prev o : Nat)
    (zs : List Nat) (C P : Links) {e' : Executor} {last : Nat},
    forkChain fuel e cur prev = some (e', last) →
    ChainEnd e.linkView cur o zs → e.linkView cur = some C → C.suspendedNormal = true →
    e.linkView prev = some P → P.isRecovery = true → P.level = C.levelAbove →
    prev ∉ zs → prev ≠ o → prev < e.nextId → (∀ j, e.nextId ≤ j → e.linkView j = none) →
    zs.length < fuel ∧ e'.nextId = e.nextId + (zs.length + 1) ∧
    (∀ j, j ≠ prev → (j < e.nextId ∨ e'.nextId ≤ j) → e'.linkView j = e.linkView j) ∧
    e'.linkView prev = some { P with dependentState := some e.nextId } ∧
    ∃ ys, ys ++ [last] = List.range' e.nextId (zs.length + 1) ∧
      ChainEnd e'.linkView prev last (prev :: ys)
  | 0, _, _, _, _, _, _, _, _, _, h => by cases h
  | fuel + 1, e, cur, prev, o, zs, C, P, e', last, h => by
    intro hc hC hCsn hP hPrec hPlev hpz hpo hpn hfresh
    simp only [forkChain, Option.bind_eq_bind', Option.bind_eq_some, newState_snd] at h
    obtain ⟨cs, hcs, h⟩ := h
    have hCcs : C = cs.links := by
      simpa [linkView_apply, hcs] using hC.symm
    subst hCcs
    split at h
    · cases h
    have hlive : ∀ y, y ∈ zs ∨ y = o → y < e.nextId := fun y hy => by
      obtain ⟨Y, hY⟩ := hc.live y hy
      exact Nat.lt_of_not_le fun hge => by simp [hfresh y hge] at hY
    have hturn := linkView_forkChain_turn e cs prev cur hP (Nat.ne_of_lt hpn)
    generalize hE : ((((e.newState cs).1.modifyState e.nextId fun s =>
      { s with recoveryState := some prev }).modifyState prev fun s =>
        { s with dependentState := some e.nextId }).splitNode cs.ptreeNode e.nextId cur) = E
      at h hturn
    have hEn : E.nextId = e.nextId + 1 := by rw [← hE]; simp
    have hlv : ∀ j, j ≠ prev → j ≠ e.nextId → E.linkView j = e.linkView j := fun j h₁ h₂ => by
      rw [hturn j, if_neg h₁, if_neg h₂]
    have hEp : E.linkView prev = some { P with dependentState := some e.nextId } := by
      rw [hturn, if_pos rfl]
    have hEx : E.linkView e.nextId = some { cs.links with recoveryState := some prev } := by
      rw [hturn, if_neg (Nat.ne_of_lt hpn).symm, if_pos rfl]
    split at h
    · -- a recovery state: the loop goes on below its copy
      rename_i hrec
      obtain ⟨d, hd, h⟩ := Option.bind_eq_some.mp h
      cases hc with
      | stop hO hnr =>
        cases hC.symm.trans hO
        exact absurd hrec (by simpa using hnr)
      | @link _ d₀ _ X D ys₀ hX _ hXd hD hDsn _ hXlev hc' =>
        cases hC.symm.trans hX
        cases hd.symm.trans hXd
        have hout : ∀ y, y ∈ ys₀ ∨ y = o → y ≠ prev ∧ y ≠ e.nextId := by
          rintro y hy
          refine ⟨?_, Nat.ne_of_lt (hlive y (hy.imp_left (List.mem_cons_of_mem _)))⟩
          rintro rfl
          exact hy.elim (fun hm => hpz (List.mem_cons_of_mem _ hm)) hpo
        have hdout := hout d hc'.head_mem
        obtain ⟨hfuel, hn', hframe', hx', ys', hys', hc''⟩ :=
          forkChain_spec fuel E d e.nextId o ys₀ D { cs.links with recoveryState := some prev } h
            (hc'.congr fun y hy => hlv y (hout y hy).1 (hout y hy).2)
            ((hlv d hdout.1 hdout.2).trans hD) hDsn hEx hrec hXlev
            (fun hm => (hout _ (.inl hm)).2 rfl) (fun ho => (hout o (.inr rfl)).2 ho.symm)
            (by omega) (fun j hj => by rw [hlv j (by omega) (by omega), hfresh j (by omega)])
        have hprev' : e'.linkView prev = some { P with dependentState := some e.nextId } := by
          rw [hframe' prev (Nat.ne_of_lt hpn) (by omega), hEp]
        refine ⟨by simp; omega, by simp [hn', hEn]; omega, fun j hj hjr => ?_, hprev',
          e.nextId :: ys', ?_, .link hprev' hPrec rfl hx' hCsn rfl hPlev hc''⟩
        · rw [hframe' j (by omega) (by omega), hlv j hj (by omega)]
        · rw [List.cons_append, hys', hEn]; simp [List.range'_succ]
    · -- a normal state: its copy ends the new chain
      rename_i hnr
      cases h
      cases hc with
      | stop =>
        refine ⟨by simp, by simp [hEn], fun j hj hjr => hlv j hj (by omega), hEp, [], rfl,
          .link hEp hPrec rfl hEx hCsn rfl hPlev (.stop hEx (by simpa using hnr))⟩
      | link hX hXrec =>
        cases hC.symm.trans hX
        exact absurd hXrec (by simpa using hnr)

theorem skel_setOriginating (fuel : Nat) : ∀ (e : Executor) (cur orig : Nat),
    (setOriginating fuel e cur orig).idLists = e.idLists ∧
      (setOriginating fuel e cur orig).nextId = e.nextId := by
  induction fuel with
  | zero => intros; exact ⟨rfl, rfl⟩
  | succ fuel ih =>
    intro e cur orig
    simp only [setOriginating]
    split
    · split
      · split
        · rw [(ih _ _ _).1, (ih _ _ _).2]; simp
        · simp
      · simp
    · simp

/-- The second loop of `forkDependentStates`: along a walk, with one turn of fuel per
recovery state, every recovery state of the walk takes `o` as its originating state and no
other state changes. -/
theorem setOriginating_spec : ∀ (fuel : Nat) (e : Executor) (x o : Nat) (ys : List Nat),
    ChainEnd e.linkView x o ys → ys.length ≤ fuel →
    (setOriginating fuel e x o).linkView = fun y =>
      if y ∈ ys then (e.linkView y).map fun L => { L with originatingState := some o }
      else e.linkView y
  | 0, e, x, o, ys, _, hlen => by
    obtain rfl : ys = [] := List.eq_nil_of_length_eq_zero (by omega)
    simp [setOriginating]
  | fuel + 1, e, x, o, ys, hc, hlen => by
    cases hc with
    | stop hO hrec =>
      obtain ⟨cs, hcs, rfl⟩ := Option.map_eq_some'.mp hO
      simp only [setOriginating, hcs]
      rw [if_neg (by simpa using hrec)]
      simp
    | @link _ d _ X D ys hX hrec hd hD hsn hb hlev hc =>
      obtain ⟨cs, hcs, rfl⟩ := Option.map_eq_some'.mp hX
      have hnd := (ChainEnd.link hX hrec hd hD hsn hb hlev hc).nodup
      have hx : x ∉ ys := (List.nodup_cons.mp hnd.1).1
      have hxo : x ≠ o := fun h => hnd.2 (h ▸ List.mem_cons_self _ _)
      have hlv₁ := linkView_modifyState_of e x (f := fun s => { s with originatingState := some o })
        (fun L => { L with originatingState := some o }) (fun _ => rfl)
      have hc₁ : ChainEnd (e.modifyState x fun s => { s with originatingState := some o }).linkView
          d o ys := hc.congr fun y hy => by
        rw [hlv₁, Function.update_noteq]
        rintro rfl; exact hy.elim hx hxo
      simp only [setOriginating, hcs]
      rw [if_pos (by simpa using hrec)]
      have hd' : cs.dependentState = some d := hd
      simp only [hd']
      rw [setOriginating_spec fuel _ d o ys hc₁ (by simp at hlen; omega), hlv₁]
      funext y
      by_cases hy : y = x
      · subst hy; simp [hx, linkView_apply, hcs]
      · simp [hy]

end Executor

/-- A walk whose recovery states all take its end as their originating state is a walk of
linked states. -/
theorem ChainEnd.linked_setOrig {h : LinkHeap} {x o : Nat} {ys : List Nat}
    (hc : ChainEnd h x o ys) :
    ∀ y ∈ ys, ∀ Y, (if y ∈ ys then (h y).map fun L => { L with originatingState := some o }
      else h y) = some Y →
    Linked (fun y => if y ∈ ys then (h y).map fun L => { L with originatingState := some o }
      else h y) y Y := by
  induction hc with
  | stop => intro y hy; cases hy
  | @link x d o X D ys hX hrec hd hD hsn hb hlev hc ih =>
    have hnd := (ChainEnd.link hX hrec hd hD hsn hb hlev hc).nodup
    have hx : x ∉ ys := (List.nodup_cons.mp hnd.1).1
    have hxo : x ≠ o := fun h => hnd.2 (h ▸ List.mem_cons_self _ _)
    intro y hy Y hY
    rcases List.mem_cons.mp hy with rfl | hy'
    · simp only [List.mem_cons_self, if_true, hX, Option.map_some', Option.some.injEq] at hY
      subst hY
      cases hDrec : D.isRecovery
      · cases hc with
        | stop =>
          refine ⟨d, D, hd, by simp [hxo.symm, hD], hsn, hb, hlev, ?_⟩
          simp [Links.origAbove, hDrec]
        | link hD' hrec' => cases hD.symm.trans hD'; simp [hDrec] at hrec'
      · obtain ⟨ys', rfl⟩ := (hc.isRecovery_head hD).mp hDrec
        refine ⟨d, { D with originatingState := some o }, hd, by simp [hD], hsn, hb, hlev, ?_⟩
        simp [Links.origAbove, hDrec]
    · have hyx : y ≠ x := fun h => hx (h ▸ hy')
      have hY' : (if y ∈ ys then (h y).map fun L => { L with originatingState := some o }
          else h y) = some Y := by simpa [hyx, hy'] using hY
      refine (ih y hy' Y hY').congr fun d' hd' => ?_
      obtain ⟨Y', d'', hY'', hd'', hmem⟩ := hc.dep_mem y hy'
      have hYY : Y = { Y' with originatingState := some o } := by
        simpa [hy', hY''] using hY'.symm
      subst hYY
      cases hd'.symm.trans hd''
      have hd'x : d' ≠ x := by rintro rfl; exact hmem.elim hx hxo
      simp [hd'x]

namespace Executor

/-- `forkDependentStates t f`, for a recovery state `f` whose level is `t`'s and which is not
on `t`'s chain: the copies of the chain take the next fresh pointers and are suspended normal
states; `f` and every recovery state of the copy are `Linked`, each pointing below it to a
copy; no other state below the fresh pointers changes its links. -/
theorem forkDependentStates_spec {e e' : Executor} {t f o : Nat} {zs : List Nat} {T F : Links}
    (h : e.forkDependentStates t f = some e') (hc : ChainEnd e.linkView t o (t :: zs))
    (hT : e.linkView t = some T) (hF : e.linkView f = some F) (hFrec : F.isRecovery = true)
    (hFlev : F.level = T.level) (hft : f ∉ t :: zs) (hfo : f ≠ o) (hfn : f < e.nextId)
    (hfresh : ∀ j, e.nextId ≤ j → e.linkView j = none) :
    e'.idLists = e.idLists ∧ e'.nextId = e.nextId + (zs.length + 1) ∧
    (∀ j, j ≠ f → (j < e.nextId ∨ e'.nextId ≤ j) → e'.linkView j = e.linkView j) ∧
    (∃ F', e'.linkView f = some F' ∧ F'.isRecovery = F.isRecovery ∧
      F'.suspendedNormal = F.suspendedNormal ∧ F'.level = F.level ∧
      F'.dependentState = some e.nextId ∧ Linked e'.linkView f F') ∧
    ∀ y, e.nextId ≤ y → y < e'.nextId → ∃ Y, e'.linkView y = some Y ∧
      Y.suspendedNormal = true ∧ (Y.isRecovery = true →
        Linked e'.linkView y Y ∧ ∀ d, Y.dependentState = some d → e.nextId ≤ d) := by
  simp only [forkDependentStates, Option.bind_eq_bind', Option.bind_eq_some] at h
  obtain ⟨ts, hts, d, hd, ⟨e₁, last⟩, h₁, h⟩ := h
  dsimp only at h
  have he' : setOriginating e.nextId e₁ f last = e' := Option.some_injective _ h
  cases hc with
  | @link _ d₀ _ T' D _ hT' _ hTd hD hDsn _ hTlev hc' =>
    cases hT.symm.trans hT'
    have hTts : T = ts.links := by simpa [linkView_apply, hts] using hT.symm
    subst hTts
    cases hd.symm.trans hTd
    obtain ⟨hfuel, hn₁, hframe₁, hf₁, ys, hys, hc₁⟩ :=
      forkChain_spec e.nextId e d f o zs D F h₁ hc' hD hDsn hF hFrec (hFlev.trans hTlev)
        (fun hm => hft (List.mem_cons_of_mem _ hm)) hfo hfn hfresh
    have hlen : ys.length = zs.length := by
      have := congrArg List.length hys; simp at this; omega
    have hrange : ∀ y, y ∈ ys ∨ y = last → e.nextId ≤ y ∧ y < e₁.nextId := fun y hy => by
      have hm : y ∈ ys ++ [last] := by simpa using hy
      rw [hys, List.mem_range'_1] at hm
      omega
    have hlv₂ := setOriginating_spec e.nextId e₁ f last (f :: ys) hc₁ (by simp; omega)
    obtain ⟨hls₂, hn₂⟩ := skel_setOriginating e.nextId e₁ f last
    rw [he'] at hlv₂ hls₂ hn₂
    have hnd := hc₁.nodup
    have hfys : f ∉ ys := (List.nodup_cons.mp hnd.1).1
    refine ⟨hls₂.trans (idLists_forkChain _ _ _ _ h₁), hn₂.trans hn₁, fun j hjf hj => ?_, ?_, ?_⟩
    · have hjys : j ∉ f :: ys := by
        intro hm
        rcases List.mem_cons.mp hm with rfl | hm
        · exact hjf rfl
        · have := hrange j (.inl hm); omega
      simp only [hlv₂, hjys, if_false]
      exact hframe₁ j hjf (by omega)
    · refine ⟨{ F with dependentState := some e.nextId, originatingState := some last },
        by simp only [hlv₂, List.mem_cons_self, if_true, hf₁]; rfl, rfl, rfl, rfl, rfl, ?_⟩
      rw [hlv₂]
      exact hc₁.linked_setOrig f (List.mem_cons_self _ _) _
        (by simp only [List.mem_cons_self, if_true, hf₁]; rfl)
    · intro y hy₁ hy₂
      rw [hn₂] at hy₂
      have hy : y ∈ ys ∨ y = last := by
        have hm : y ∈ List.range' e.nextId (zs.length + 1) := List.mem_range'_1.mpr ⟨hy₁, by omega⟩
        rw [← hys] at hm; simpa using hm
      obtain ⟨hsn, hdeps⟩ : (∃ Y, e₁.linkView y = some Y ∧ Y.suspendedNormal = true) ∧
          ∀ y ∈ ys, ∃ Y d, e₁.linkView y = some Y ∧ Y.dependentState = some d ∧
            (d ∈ ys ∨ d = last) := by
        cases hc₁ with
        | link _ _ _ hD₁ hD₁sn _ _ hcys =>
          exact ⟨hcys.suspendedNormal_of_dep hD₁ hD₁sn y hy, hcys.dep_mem⟩
      obtain ⟨Y₁, hY₁, hY₁sn⟩ := hsn
      rcases hy with hy | rfl
      · have hmem : y ∈ f :: ys := List.mem_cons_of_mem _ hy
        have hY : e'.linkView y = some { Y₁ with originatingState := some last } := by
          simp only [hlv₂, hmem, if_true, hY₁]; rfl
        refine ⟨_, hY, by simpa using hY₁sn, fun _ => ⟨?_, fun d hd => ?_⟩⟩
        · rw [hlv₂] at hY ⊢
          exact hc₁.linked_setOrig y hmem _ hY
        · obtain ⟨Y₂, d', hY₂, hd', hd'm⟩ := hdeps y hy
          cases hY₁.symm.trans hY₂
          cases hd.symm.trans hd'
          exact (hrange d hd'm).1
      · have hlast : e'.linkView y = e₁.linkView y := by
          simp only [hlv₂, hnd.2, if_false]
        obtain ⟨O, hO, hOrec⟩ := hc₁.end_live
        refine ⟨Y₁, hlast.trans hY₁, hY₁sn, fun hrec => ?_⟩
        cases hY₁.symm.trans hO
        simp [hOrec] at hrec

end Executor

end PChop
