import PChop.Verify.Forking
import PChop.Verify.Searcher
import Mathlib.Data.List.Range

/-!
# Switches keep the invariant within a turn

`branch` on the selected state makes one state per case: the state itself and copies at the
next pointers (`branchCopies`), which join `addedStates` on the master, or, on a worker that
ranges, are ranged one by one (`rangeCases`): the cases outside the worker's range are
suspended for ranging, and when the case the worker follows is not the state itself, the
state and its chain of dependent states leave `states` (`eraseChain`). When the state is a
recovery state, each copy gets a copy of its chain of dependent states (`branchTail`); the
loop invariant of those copies is `CopyLinking`.
-/

namespace PChop

namespace Executor

/-- `branchCopies n`: `n` copies of the last state of `result`, at the next `n` pointers, each
with its links; they join `addedStates` when `addStates`. -/
theorem branchCopies_spec : ∀ (n : Nat) (e : Executor) (result : List Nat) (addStates : Bool)
    {e' : Executor} {result' : List Nat} {C : Links},
    branchCopies n e result addStates = some (e', result') →
    (∃ es, result.getLast? = some es ∧ e.linkView es = some C) →
    (∀ j, e.nextId ≤ j → e.linkView j = none) →
    result' = result ++ List.range' e.nextId n ∧
    e'.skel = ⟨fun j => if e.nextId ≤ j ∧ j < e.nextId + n then some C else e.linkView j,
      e.nextId + n, { e.idLists with
        added := e.idLists.added ++ if addStates then List.range' e.nextId n else [] }⟩
  | 0, e, result, addStates, e', result', C, h, _, _ => by
    cases h
    refine ⟨by simp, ?_⟩
    simp only [skel, Nat.add_zero, List.range'_zero, ite_self, List.append_nil, Skel.mk.injEq,
      and_true]
    exact funext fun j => by rw [if_neg (by omega)]
  | n + 1, e, result, addStates, e', result', C, h, ⟨es, hlast, hC⟩, hfresh => by
    rw [branchCopies] at h
    obtain ⟨es', hes', h⟩ := Option.bind_eq_some.mp h
    cases hlast.symm.trans hes'
    obtain ⟨⟨e₁, ns⟩, hb, h⟩ := Option.bind_eq_some.mp h
    obtain ⟨s₀, hs₀, hb⟩ := Option.map_eq_some'.mp hb
    have hsk₁ : e₁.skel = ⟨Function.update e.linkView e.nextId (some s₀.links), e.nextId + 1,
        e.idLists⟩ := by
      rw [show e₁ = (e.newState s₀).1 from (congrArg Prod.fst hb).symm]
      simp [skel, linkView_newState]
    obtain rfl : ns = e.nextId := (congrArg Prod.snd hb).symm
    clear hb
    have hC₀ : s₀.links = C := by
      simp only [linkView_apply, hs₀, Option.map_some'] at hC; exact Option.some_injective _ hC
    have hes : es ≠ e.nextId := fun h' => by rw [h', hfresh _ le_rfl] at hC; cases hC
    dsimp only at h
    generalize he₂ : (if addStates = true then _ else e₁) = e₂ at h
    have hsk₂ : e₂.skel = ⟨Function.update e.linkView e.nextId (some C), e.nextId + 1,
        { e.idLists with added := e.idLists.added ++ if addStates then [e.nextId] else [] }⟩ := by
      rw [← he₂, ← hC₀]
      split
      · simp only [skel, Skel.mk.injEq] at hsk₁ ⊢
        exact ⟨hsk₁.1, hsk₁.2.1, by rw [← hsk₁.2.2]; rfl⟩
      · rw [hsk₁]; simp
    obtain ⟨s, hs, h⟩ := Option.bind_eq_some.mp h
    generalize he₄ :
      Executor.modifyState (Executor.modifyState (e₂.splitNode _ _ _) _ _) _ _ = e₄ at h
    have hsk₄ : e₄.skel = e₂.skel := by
      rw [← he₄, skel_modifyState_hist, skel_modifyState_hist, skel_splitNode]
    have hlv₄ : e₄.linkView = Function.update e.linkView e.nextId (some C) :=
      congrArg Skel.lv (hsk₄.trans hsk₂)
    have hn₄ : e₄.nextId = e.nextId + 1 := congrArg Skel.nextId (hsk₄.trans hsk₂)
    have hls₄ : e₄.idLists = { e.idLists with
        added := e.idLists.added ++ if addStates then [e.nextId] else [] } :=
      congrArg Skel.ls (hsk₄.trans hsk₂)
    obtain ⟨hres, hsk⟩ := branchCopies_spec n e₄ (result ++ [e.nextId]) addStates h
      ⟨e.nextId, by simp, by rw [hlv₄, Function.update_same]⟩
      (fun j hj => by rw [hlv₄, Function.update_noteq (by omega)]; exact hfresh j (by omega))
    refine ⟨by rw [hres, hn₄, List.range'_succ]; simp, ?_⟩
    rw [hsk, hlv₄, hn₄, hls₄]
    simp only [Skel.mk.injEq]
    refine ⟨funext fun j => ?_, by omega, ?_⟩
    · by_cases hj : j = e.nextId
      · subst hj; simp
      · rw [Function.update_noteq hj]
        by_cases hr : e.nextId + 1 ≤ j ∧ j < e.nextId + 1 + n
        · rw [if_pos hr, if_pos (by omega)]
        · rw [if_neg hr, if_neg (by omega)]
    · cases addStates <;> simp [List.range'_succ]

/-- `branchTail` forks no chain when no entry after a state holds a recovery state: it returns
the executor it started from. -/
theorem branchTail_of_chain : ∀ (pairs : List (Option Nat × Expr)) (prev : Option Nat)
    {e e' : Executor}, branchTail pairs prev e = some e' →
    List.Chain' (fun a b => a = none ∨ ∀ id s, b = some id → e.heap id = some s →
      s.isRecoveryState = false) (prev :: pairs.map Prod.fst) → e' = e
  | [], _, _, _, h, _ => by cases h; rfl
  | (current, c) :: rest, prev, e, e', h, hc => by
    simp only [branchTail] at h
    rw [List.map_cons, List.chain'_cons] at hc
    cases current with
    | none => exact branchTail_of_chain rest none h hc.2
    | some id =>
      obtain ⟨s, hs, h⟩ := Option.bind_eq_some.mp h
      split at h
      · rename_i hr _
        rcases hc.1 with hp | hnr
        · cases hp
        · rw [hnr id s rfl hs] at hr; cases hr
      · exact branchTail_of_chain rest (some id) h hc.2

end Executor

/-- The last loop of `branch` on the copies of a recovery state with links `C`, before it
links the copy after `p`: the states below `n₀` keep their links in `h₀`, the copies `ids` not
yet linked keep the links `C`, every other recovery state from `n₀` on is linked to a state
from `n₀` on, and `p` is a linked recovery state at `C`'s level. -/
structure CopyLinking (h₀ : LinkHeap) (n₀ : Nat) (C : Links) (all : List Nat) (e : Executor)
    (p : Nat) (ids : List Nat) : Prop where
  fresh : ∀ j, e.nextId ≤ j → e.linkView j = none
  old : ∀ j, j < n₀ → e.linkView j = h₀ j
  nodup : (p :: ids).Nodup
  pending : ∀ id ∈ ids, n₀ ≤ id ∧ e.linkView id = some C
  linked : ∀ r R, n₀ ≤ r → e.linkView r = some R → R.isRecovery = true → r ∉ ids →
    Linked e.linkView r R ∧ ∀ d, R.dependentState = some d → n₀ ≤ d
  prev : ∃ P, e.linkView p = some P ∧ P.isRecovery = true ∧ P.suspendedNormal = false ∧
    P.level = C.level ∧ Linked e.linkView p P
  active : ∀ j ∈ all, ∃ L, e.linkView j = some L ∧ L.suspendedNormal = false

namespace CopyLinking

variable {h₀ : LinkHeap} {n₀ : Nat} {C : Links} {all : List Nat} (hwf : LinksWF h₀ fun _ => False)
  (hfresh₀ : ∀ j, n₀ ≤ j → h₀ j = none) (hC : C.isRecovery = true)
  (hCsn : C.suspendedNormal = false)
include hwf hfresh₀

/-- Every recovery state is linked, but for the copies not yet linked. -/
theorem wf {e : Executor} {p : Nat} {ids : List Nat} (hl : CopyLinking h₀ n₀ C all e p ids) :
    LinksWF e.linkView (· ∈ ids) := fun r R hr hrec => by
  by_cases hrn : r < n₀
  · rw [hl.old r hrn] at hr
    refine Or.inr ((((hwf r R hr hrec).resolve_left id)).congr fun d hd => ?_)
    obtain ⟨D, hD, -⟩ := ((hwf r R hr hrec).resolve_left id).dep_suspendedNormal hd
    refine hl.old d (Nat.lt_of_not_le fun hdn => ?_)
    rw [hfresh₀ d hdn] at hD; cases hD
  · by_cases hri : r ∈ ids
    · exact Or.inl hri
    · exact Or.inr (hl.linked r R (by omega) hr hrec hri).1

include hC hCsn in
/-- Linking the next copy: `forkDependentStates p id` keeps the invariant, with `id` as the
last linked copy. -/
theorem step {e e₁ : Executor} {p id : Nat} {ids : List Nat}
    (hl : CopyLinking h₀ n₀ C all e p (id :: ids)) (h : e.forkDependentStates p id = some e₁) :
    CopyLinking h₀ n₀ C all e₁ id ids ∧ e₁.idLists = e.idLists := by
  obtain ⟨P, hP, hPrec, hPsn, hPlev, hPl⟩ := hl.prev
  have hpend : ∀ r ∈ id :: ids, ∀ R, e.linkView r = some R → R.suspendedNormal = false :=
    fun r hr R hR => by cases (hl.pending r hr).2.symm.trans hR; exact hCsn
  obtain ⟨o, zs, hc, -, -⟩ := (hl.wf hwf hfresh₀).chainEnd hpend _ p P hP hPrec rfl hPl
  obtain ⟨hid₀, hid⟩ := hl.pending id (List.mem_cons_self _ _)
  have hsn : ∀ y, y ∈ zs ∨ y = o → ∃ Y, e.linkView y = some Y ∧ Y.suspendedNormal = true := by
    cases hc with
    | link _ _ _ hD hDsn _ _ hc' => exact hc'.suspendedNormal_of_dep hD hDsn
  have hnsn : ∀ y, y ∈ zs ∨ y = o → y ≠ id := fun y hy hyid => by
    obtain ⟨Y, hY, hYsn⟩ := hsn y hy
    rw [hyid, hid] at hY; cases hY; rw [hCsn] at hYsn; cases hYsn
  have hpid : p ≠ id := fun h' => (List.nodup_cons.mp hl.nodup).1 (h' ▸ List.mem_cons_self _ _)
  have hidn : id < e.nextId := Nat.lt_of_not_le fun h' => by rw [hl.fresh id h'] at hid; cases hid
  obtain ⟨hls₁, hn₁, hframe, ⟨F', hF', hF'rec, hF'sn, hF'lev, hF'd, hF'l⟩, hcopies⟩ :=
    Executor.forkDependentStates_spec h hc hP hid hC hPlev.symm
      (fun hm => (List.mem_cons.mp hm).elim (fun h' => hpid h'.symm)
        fun hm => hnsn id (.inl hm) rfl)
      (fun h' => hnsn o (.inr rfl) h'.symm) hidn hl.fresh
  have hagree : ∀ j, j ≠ id → j < e.nextId → e₁.linkView j = e.linkView j :=
    fun j hj hjn => hframe j hj (.inl hjn)
  refine ⟨⟨fun j hj => ?_, fun j hj => ?_, (List.nodup_cons.mp hl.nodup).2, fun id' hid' => ?_,
    fun r R hr₀ hr hrec hri => ?_, ⟨F', hF', hF'rec.trans hC, hF'sn.trans hCsn, hF'lev, hF'l⟩,
    fun j hj => ?_⟩, hls₁⟩
  · rw [hframe j (by omega) (.inr hj)]; exact hl.fresh j (by omega)
  · rw [hagree j (by omega) (by omega)]; exact hl.old j hj
  · have hne : id' ≠ id := fun h' =>
      (List.nodup_cons.mp (List.nodup_cons.mp hl.nodup).2).1 (h' ▸ hid')
    obtain ⟨h₁, h₂⟩ := hl.pending id' (List.mem_cons_of_mem _ hid')
    have : id' < e.nextId := Nat.lt_of_not_le fun h' => by rw [hl.fresh id' h'] at h₂; cases h₂
    exact ⟨h₁, (hagree id' hne this).trans h₂⟩
  · by_cases hrid : r = id
    · subst hrid
      cases hF'.symm.trans hr
      exact ⟨hF'l, fun d hd => by rw [hF'd] at hd; cases hd; omega⟩
    by_cases hrn : e.nextId ≤ r
    · by_cases hr₁ : r < e₁.nextId
      · obtain ⟨Y, hY, -, hYl⟩ := hcopies r hrn hr₁
        cases hY.symm.trans hr
        exact ⟨(hYl hrec).1, fun d hd => by have := (hYl hrec).2 d hd; omega⟩
      · rw [hframe r hrid (.inr (by omega)), hl.fresh r hrn] at hr; cases hr
    · rw [hagree r hrid (by omega)] at hr
      obtain ⟨hlk, hd⟩ := hl.linked r R hr₀ hr hrec
        (fun hm => (List.mem_cons.mp hm).elim hrid hri)
      refine ⟨hlk.congr fun d hd' => ?_, hd⟩
      obtain ⟨D, hD, hDsn⟩ := hlk.dep_suspendedNormal hd'
      have hdn : d < e.nextId := Nat.lt_of_not_le fun h' => by rw [hl.fresh d h'] at hD; cases hD
      refine hagree d (fun hdid => ?_) hdn
      rw [hdid, hid] at hD; cases hD; rw [hCsn] at hDsn; cases hDsn
  · by_cases hjid : j = id
    · subst hjid; exact ⟨F', hF', hF'sn.trans hCsn⟩
    · obtain ⟨L, hL, hLsn⟩ := hl.active j hj
      have hjn : j < e.nextId := Nat.lt_of_not_le fun h' => by rw [hl.fresh j h'] at hL; cases hL
      exact ⟨L, (hagree j hjid hjn).trans hL, hLsn⟩

include hC hCsn in
/-- The last loop of `branch` over the copies `ids` of a recovery state links every copy. -/
theorem branchTail : ∀ (pairs : List (Option Nat × Expr)) (ids : List Nat) (p : Nat)
    (e e' : Executor), e.branchTail pairs (some p) = some e' →
    pairs.map Prod.fst = ids.map some → CopyLinking h₀ n₀ C all e p ids →
    (∃ p', CopyLinking h₀ n₀ C all e' p' []) ∧ e'.idLists = e.idLists
  | [], ids, p, e, e', h, hids, hl => by
    cases h
    cases ids with
    | nil => exact ⟨⟨p, hl⟩, rfl⟩
    | cons _ _ => cases hids
  | (current, c) :: rest, ids, p, e, e', h, hids, hl => by
    cases ids with
    | nil => cases hids
    | cons id ids =>
      simp only [List.map_cons, List.cons.injEq] at hids
      obtain ⟨rfl, hids⟩ := hids
      simp only [Executor.branchTail] at h
      obtain ⟨s, hs, h⟩ := Option.bind_eq_some.mp h
      have hsC : s.links = C := by
        have := (hl.pending id (List.mem_cons_self _ _)).2
        simp only [Executor.linkView_apply, hs, Option.map_some'] at this
        exact Option.some_injective _ this
      have hrec : s.isRecoveryState = true := by rw [← hC, ← hsC]; rfl
      split at h
      · rename_i heq _
        cases heq
        obtain ⟨e₁, h₁, h⟩ := Option.bind_eq_some.mp h
        obtain ⟨hl₁, hls₁⟩ := hl.step hwf hfresh₀ hC hCsn h₁
        obtain ⟨hfin, hls⟩ := branchTail rest ids id e₁ e' h hids hl₁
        exact ⟨hfin, hls.trans hls₁⟩
      · rename_i hne
        exact absurd hrec (hne p rfl)

end CopyLinking

namespace Executor

/-- `eraseChain` takes out of `states` the states `E` it walks: `cur`, and from each state of
`E` its dependent when it is a recovery state; each was in `states`. -/
theorem eraseChain_spec : ∀ (fuel : Nat) (e e' : Executor) (cur : Nat),
    eraseChain fuel e cur = some e' → e.states.Nodup →
    ∃ E : List Nat, e'.skel = ⟨e.linkView, e.nextId, { e.idLists with states := e'.states }⟩ ∧
      e'.states.Nodup ∧ (∀ j, j ∈ e'.states ↔ j ∈ e.states ∧ j ∉ E) ∧ cur ∈ E ∧
      (∀ x ∈ E, x ∈ e.states) ∧ (∀ x ∈ E, ∀ d, e.nextDependent x = some d → d ∈ E) ∧
      (∀ x ∈ E, x = cur ∨ ∃ y ∈ E, e.nextDependent y = some x)
  | 0, _, _, _, h, _ => by cases h
  | fuel + 1, e, e', cur, h, hnd => by
    rw [eraseChain] at h
    split at h
    · cases h
    rename_i hcur
    rw [not_not] at hcur
    have hmem : ∀ j, j ∈ e.states.erase cur ↔ j ∈ e.states ∧ j ∉ [cur] := fun j => by
      rw [hnd.mem_erase_iff, List.mem_singleton]; tauto
    split at h
    · rename_i d hd
      obtain ⟨E, hsk, hnd', hmem', hcurE, hsub, hcl, hback⟩ :=
        eraseChain_spec fuel _ e' d h (hnd.erase cur)
      refine ⟨cur :: E, hsk, hnd', fun j => ?_, List.mem_cons_self _ _, fun x hx => ?_,
        fun x hx d' hd' => ?_, fun x hx => ?_⟩
      · rw [hmem', hnd.mem_erase_iff, List.mem_cons, not_or]; tauto
      · rcases List.mem_cons.mp hx with rfl | hx
        · exact hcur
        · exact List.mem_of_mem_erase (hsub x hx)
      · rcases List.mem_cons.mp hx with rfl | hx
        · rw [hd] at hd'; cases hd'; exact List.mem_cons_of_mem _ hcurE
        · exact List.mem_cons_of_mem _ (hcl x hx d' hd')
      · rcases List.mem_cons.mp hx with rfl | hx
        · exact Or.inl rfl
        · rcases hback x hx with rfl | ⟨y, hy, hyx⟩
          · exact Or.inr ⟨cur, List.mem_cons_self _ _, hd⟩
          · exact Or.inr ⟨y, List.mem_cons_of_mem _ hy, hyx⟩
    · rename_i hd
      cases h
      refine ⟨[cur], rfl, hnd.erase cur, hmem, List.mem_singleton_self _, fun x hx => ?_,
        fun x hx d' hd' => ?_, fun x hx => Or.inl (List.mem_singleton.mp hx)⟩
      · rw [List.mem_singleton.mp hx]; exact hcur
      · rw [List.mem_singleton.mp hx, hd] at hd'; cases hd'

end Executor

namespace Skel

variable {k : Skel}

/-- The states `E` leave `states`, and `cur`, the one of them that is not a suspended normal
state, leaves the searcher; `E` holds the dependent of each of its recovery states. -/
theorem Mid.eraseStates (hm : k.Mid) {cur : Nat} {E S' V' : List Nat}
    (hcr : cur ∉ k.ls.removed) (hcres : cur ∉ k.ls.resumed)
    (hEsn : ∀ x ∈ E, x ≠ cur → ∃ X, k.lv x = some X ∧ X.suspendedNormal = true)
    (hEcl : ∀ x ∈ E, ∀ X, k.lv x = some X → X.isRecovery = true →
      X.suspendedNormal = true → ∀ d, X.dependentState = some d → d ∈ E)
    (hS' : S'.Nodup) (hS'm : ∀ j, j ∈ S' ↔ j ∈ k.ls.states ∧ j ∉ E)
    (hV' : V'.Nodup) (hV'm : ∀ j, j ∈ V' ↔ j ∈ k.ls.searcher ∧ j ≠ cur)
    (hsE : ∀ j ∈ k.ls.searcher, j ∈ E → j = cur) :
    Mid { k with ls := { k.ls with states := S', searcher := V' } } := by
  have hnotE : ∀ j, k.Active j → j ∈ E → j = cur := fun j hj hjE => by
    by_contra hne
    obtain ⟨X, hX, hXsn⟩ := hEsn j hjE hne
    exact hj.ne hX hXsn rfl
  refine ⟨⟨hm.fresh, ?mono, hS', fun j hj => hm.statesLive j ((hS'm j).mp hj).1, ?sa, ?so,
    fun j hj => ⟨(hm.addedOK j hj).1, fun hs => (hm.addedOK j hj).2.1 ((hS'm j).mp hs).1,
      (hm.addedOK j hj).2.2⟩, hm.resumedNodup, ?ro, hm.removedLive, hm.rangingNodup,
    hm.indexedNodup, hm.rangingIndexed, fun j hj => ⟨(hm.pending j hj).1,
      fun hs => (hm.pending j hj).2.1 ((hS'm j).mp hs).1, (hm.pending j hj).2.2⟩⟩, ?links,
    hm.removedUp⟩
  case mono =>
    intro r R hr hrec hsn hrs d hd hds
    by_cases hrst : r ∈ k.ls.states
    · have hrE : r ∈ E := by by_contra hrE; exact hrs ((hS'm r).mpr ⟨hrst, hrE⟩)
      exact ((hS'm d).mp hds).2 (hEcl r hrE R hr hrec hsn d hd)
    · exact hm.mono r R hr hrec hsn hrst d hd ((hS'm d).mp hds).1
  case sa =>
    refine List.nodup_append.mpr ⟨hV', (List.nodup_append.mp hm.searcherAdded).2.1,
      fun a ha hb => (List.nodup_append.mp hm.searcherAdded).2.2 ((hV'm a).mp ha).1 hb⟩
  case so =>
    intro j hj
    obtain ⟨hjs, hjc⟩ := (hV'm j).mp hj
    exact ⟨(hS'm j).mpr ⟨(hm.searcherOK j hjs).1, fun hjE => hjc (hsE j hjs hjE)⟩,
      (hm.searcherOK j hjs).2⟩
  case ro =>
    intro j hj
    obtain ⟨ha, hs, hse, hadd⟩ := hm.resumedOK j hj
    refine ⟨ha, (hS'm j).mpr ⟨hs, fun hjE => ?_⟩, fun h' => hse ((hV'm j).mp h').1, hadd⟩
    rw [hnotE j ha hjE] at hj; exact hcres hj
  case links =>
    refine fun r R hr hrec => (hm.links r R hr hrec).imp_left fun ⟨h₁, h₂, h₃⟩ => ⟨h₁, ?_, h₃⟩
    refine (hS'm r).mpr ⟨h₂, fun hrE => ?_⟩
    rw [hnotE r h₃ hrE] at h₁; exact hcr h₁

/-- States suspended for ranging, one after the other. -/
theorem Mid.addRangingList : ∀ {k : Skel} (xs : List Nat), k.Mid → xs.Nodup →
    (∀ x ∈ xs, k.Active x ∧ x ∉ k.ls.states ∧ x ∉ k.ls.added ∧
      x ∉ k.ls.ranging ++ k.ls.indexed) →
    Mid { k with ls := { k.ls with ranging := k.ls.ranging ++ xs } }
  | k, [], hm, _, _ => by simpa using hm
  | k, x :: xs, hm, hnd, hx => by
    obtain ⟨ha, hs, hadd, hp⟩ := hx x (List.mem_cons_self _ _)
    have hm₁ := hm.addRanging ha hs hadd hp
    have := Mid.addRangingList xs hm₁ (List.nodup_cons.mp hnd).2 fun y hy => by
      obtain ⟨h₁, h₂, h₃, h₄⟩ := hx y (List.mem_cons_of_mem _ hy)
      refine ⟨h₁, h₂, h₃, ?_⟩
      simp only [List.append_assoc, List.mem_append, List.mem_singleton, not_or] at h₄ ⊢
      exact ⟨h₄.1, fun hyx => (List.nodup_cons.mp hnd).1 (hyx ▸ hy), h₄.2⟩
    simpa using this

/-- States added, one after the other. -/
theorem Mid.addAddedList : ∀ {k : Skel} (xs : List Nat), k.Mid → xs.Nodup →
    (∀ x ∈ xs, k.Active x ∧ x ∉ k.ls.states ∧ x ∉ k.ls.removed ∧ x ∉ k.ls.searcher ∧
      x ∉ k.ls.added ∧ x ∉ k.ls.ranging ++ k.ls.indexed) →
    Mid { k with ls := { k.ls with added := k.ls.added ++ xs } }
  | k, [], hm, _, _ => by simpa using hm
  | k, x :: xs, hm, hnd, hx => by
    obtain ⟨ha, hs, hr, hse, hadd, hp⟩ := hx x (List.mem_cons_self _ _)
    have hm₁ := hm.addAdded ha hs hr hse hadd hp
    have := Mid.addAddedList xs hm₁ (List.nodup_cons.mp hnd).2 fun y hy => by
      obtain ⟨h₁, h₂, h₃, h₄, h₅, h₆⟩ := hx y (List.mem_cons_of_mem _ hy)
      refine ⟨h₁, h₂, h₃, h₄, ?_, h₆⟩
      simp only [List.mem_append, List.mem_singleton, not_or]
      exact ⟨h₅, fun hyx => (List.nodup_cons.mp hnd).1 (hyx ▸ hy)⟩
    simpa using this

end Skel

/-- The cases of a ranged switch but one: each case once. -/
theorem mem_enum_filter_ne {l : List Nat} (hnd : l.Nodup) {i y : Nat} (hi : i < l.length)
    (hy : y ∈ (l.enum.filter (·.1 ≠ i)).map (·.2)) : y ∈ l ∧ y ≠ l.getD i 0 := by
  obtain ⟨⟨j, y'⟩, hmem, rfl⟩ := List.mem_map.mp hy
  obtain ⟨hmem, hne⟩ := List.mem_filter.mp hmem
  refine ⟨List.snd_mem_of_mem_enum hmem, fun hyi => ?_⟩
  have hj : l[j]? = some y' := List.mem_enum_iff_getElem?.mp hmem
  rw [List.getD_eq_getElem?_getD, List.getElem?_eq_getElem hi, Option.getD_some] at hyi
  dsimp only at hyi hne
  rw [hyi, ← List.getElem?_eq_getElem hi] at hj
  exact (of_decide_eq_true hne) (List.getElem?_inj hi hnd hj.symm).symm

theorem nodup_enum_filter {l : List Nat} (hnd : l.Nodup) (p : Nat × Nat → Bool) :
    ((l.enum.filter p).map (·.2)).Nodup := by
  have := ((List.filter_sublist l.enum (p := p)).map Prod.snd).nodup
  rw [List.enum_map_snd] at this
  exact this hnd

namespace Executor

variable (e : Executor)

/-- `rangeCases` on `cur` and its copies `rest`: the links stay; either `cur` continues and
some copies are suspended for ranging, or `cur` and its chain `E` leave `states`, `cur`
leaves the searcher, one case `x` is added and the others `R` are suspended for ranging. -/
theorem rangeCases_cases {cur : Nat} {rest : List Nat} {e' : Executor}
    (h : e.rangeCases (cur :: rest) = some e') (hnd : (cur :: rest).Nodup)
    (hsnd : e.states.Nodup) (hvnd : e.searcher.Nodup) :
    e'.linkView = e.linkView ∧ e'.nextId = e.nextId ∧
    ((∃ R : List Nat, R.Nodup ∧ (∀ y ∈ R, y ∈ rest) ∧
        e'.idLists = { e.idLists with ranging := e.idLists.ranging ++ R }) ∨
      (∃ (R : List Nat) (x : Nat) (E : List Nat), (x :: R).Nodup ∧ (∀ y ∈ x :: R, y ∈ cur :: rest) ∧
        e'.idLists = { e.idLists with
          ranging := e.idLists.ranging ++ R, added := e.idLists.added ++ [x],
          searcher := e'.searcher, states := e'.states } ∧
        e'.searcher.Nodup ∧ (∀ j, j ∈ e'.searcher ↔ j ∈ e.searcher ∧ j ≠ cur) ∧
        e'.states.Nodup ∧ (∀ j, j ∈ e'.states ↔ j ∈ e.states ∧ j ∉ E) ∧ cur ∈ E ∧
        (∀ y ∈ E, y ∈ e.states) ∧
        (∀ y ∈ E, y ≠ cur → ∀ d, e.nextDependent y = some d → d ∈ E) ∧
        (∀ y ∈ E, y = cur ∨ ∃ z ∈ E, e.nextDependent z = some y))) := by
  rw [rangeCases] at h
  obtain ⟨s₀, -, h⟩ := Option.bind_eq_some.mp h
  simp only [List.head?_cons, Option.bind_some] at h
  obtain ⟨r₀, hr₀, h⟩ := Option.bind_eq_some.mp h
  cases hr₀
  generalize hm : List.findIdx? _ (cur :: rest) = matching at h
  have hvnd' : (e.searcher ++ []).Nodup := by simpa using hvnd
  cases matching with
  | none =>
    dsimp only at h
    obtain ⟨V', hV', h⟩ := Option.bind_eq_some.mp h
    split at h
    · cases h
    rename_i hcur
    cases h
    obtain ⟨hV'nd, hV'm⟩ := dfsUpdate_spec hV' hvnd'
    have hperm : ((cur :: rest).dropLast ++ [(cur :: rest).getLastD 0]) = cur :: rest := by
      rw [List.getLastD_cons, ← List.getLast_eq_getLastD cur rest (List.cons_ne_nil _ _)]
      exact List.dropLast_concat_getLast _
    have hperm' := (List.perm_append_singleton _ _).symm.trans (List.Perm.of_eq hperm)
    refine ⟨rfl, rfl, Or.inr ⟨_, _, [cur], hperm'.nodup_iff.mpr hnd, fun y hy => hperm'.subset hy,
      rfl, hV'nd, fun j => by rw [hV'm]; simp, hsnd.erase cur,
      fun j => by rw [hsnd.mem_erase_iff, List.mem_singleton]; tauto,
      List.mem_singleton_self _,
      fun y hy => by rw [List.mem_singleton.mp hy]; exact not_not.mp hcur,
      fun y hy hne => absurd (List.mem_singleton.mp hy) hne,
      fun y hy => Or.inl (List.mem_singleton.mp hy)⟩⟩
  | some satCase =>
    dsimp only at h
    have hlt : satCase < (cur :: rest).length :=
      (List.findIdx?_eq_some_iff_getElem.mp hm).1
    have hothers : ∀ y, y ∈ ((cur :: rest).enum.filter (·.1 ≠ satCase)).map (·.2) →
        y ∈ cur :: rest ∧ y ≠ (cur :: rest).getD satCase 0 :=
      fun y hy => mem_enum_filter_ne hnd hlt hy
    split at h
    · rename_i h0
      subst h0
      cases h
      refine ⟨rfl, rfl, Or.inl ⟨_, nodup_enum_filter hnd _, fun y hy => ?_, rfl⟩⟩
      obtain ⟨hy₁, hy₂⟩ := hothers y hy
      exact (List.mem_cons.mp hy₁).resolve_left hy₂
    · rename_i h0
      obtain ⟨V', hV', h⟩ := Option.bind_eq_some.mp h
      obtain ⟨hV'nd, hV'm⟩ := dfsUpdate_spec hV' hvnd'
      obtain ⟨E, hsk, hsnd', hsm, hcurE, hsub, hcl, hback⟩ := eraseChain_spec _ _ _ _ h hsnd
      have hls := congrArg Skel.ls hsk
      have hse : e'.searcher = V' := congrArg IdLists.searcher hls
      have hx : (cur :: rest).getD satCase 0 ∈ cur :: rest := by
        rw [List.getD_eq_getElem?_getD, List.getElem?_eq_getElem hlt, Option.getD_some]
        exact List.getElem_mem _
      refine ⟨congrArg Skel.lv hsk, congrArg Skel.nextId hsk, Or.inr ⟨_, _, E,
        List.nodup_cons.mpr ⟨fun hm' => (hothers _ hm').2 rfl, nodup_enum_filter hnd _⟩,
        fun y hy => ?_, by rw [hse]; exact hls, by rw [hse]; exact hV'nd,
        fun j => by rw [hse, hV'm]; simp, hsnd', hsm, hcurE, hsub,
        fun y hy _ => hcl y hy, hback⟩⟩
      rcases List.mem_cons.mp hy with rfl | hy
      · exact hx
      · exact (hothers y hy).1

/-- The first state of `branch`'s last loop forks nothing. -/
theorem branchTail_cons_none {cur : Nat} {c : Expr} {rest : List (Option Nat × Expr)}
    {e' : Executor} (h : e.branchTail ((some cur, c) :: rest) none = some e') :
    e.branchTail rest (some cur) = some e' := by
  simp only [branchTail] at h
  obtain ⟨s, -, h⟩ := Option.bind_eq_some.mp h
  exact h

/-- A relation that only asks something of its right side holds along a list whose states
after the first satisfy it. -/
theorem chain'_of_forall {R : Option Nat → Option Nat → Prop} {x : Option Nat} :
    ∀ {l : List (Option Nat)}, (∀ b ∈ l, ∀ a, R a b) → List.Chain' R (x :: l)
  | [], _ => List.Chain.nil
  | b :: _, h => List.Chain.cons (h b (List.mem_cons_self _ _) x)
      (chain'_of_forall (x := b) fun b' hb' => h b' (List.mem_cons_of_mem _ hb'))

variable {e}

/-- The links `branch` leaves on the selected state `cur` and its `m` copies (made by
`branchCopies`, with list changes in between that keep the links): every copy of a recovery
state gets a copy of the chain, and the invariant within a turn holds for the links with the
lists the turn started from. -/
theorem branch_links {cur : Nat} {cs : ExecutionState} {m : Nat} {e₁ e₂ : Executor}
    {pairs : List (Option Nat × Expr)} (hi : e.skel.Inv false) (hsel : cur ∈ e.searcher)
    (hcs : e.heap cur = some cs)
    (hlv₁ : e₁.linkView = fun j =>
      if e.nextId ≤ j ∧ j < e.nextId + m then some cs.links else e.linkView j)
    (hn₁ : e₁.nextId = e.nextId + m)
    (hpairs : pairs.map Prod.fst = (cur :: List.range' e.nextId m).map some)
    (h : e₁.branchTail pairs none = some e₂) :
    e₂.idLists = e₁.idLists ∧ Skel.Mid ⟨e₂.linkView, e₂.nextId, e.idLists⟩ ∧
      (∀ j ∈ cur :: List.range' e.nextId m,
        Skel.Active ⟨e₂.linkView, e₂.nextId, e.idLists⟩ j) ∧
      ∀ j, j < e.nextId → e₂.linkView j = e.linkView j := by
  have hC : e.linkView cur = some cs.links := by simp [linkView, hcs]
  obtain ⟨-, L, hL, hCsn⟩ := hi.searcher_active hsel
  cases hC.symm.trans hL
  have hcurn : cur < e.nextId := Skel.lt_of_live hi.fresh ⟨_, hC⟩
  have hlv₁ : ∀ j, e₁.linkView j =
      if e.nextId ≤ j ∧ j < e.nextId + m then some cs.links else e.linkView j := fun j => by
    rw [hlv₁]
  have hold₁ : ∀ j, j < e.nextId → e₁.linkView j = e.linkView j := fun j hj => by
    rw [hlv₁ j, if_neg (by omega)]
  have hcopy₁ : ∀ j ∈ List.range' e.nextId m, e₁.linkView j = some cs.links := fun j hj => by
    rw [List.mem_range'_1] at hj; rw [hlv₁ j, if_pos hj]
  have hfresh₁ : ∀ j, e₁.nextId ≤ j → e₁.linkView j = none := fun j hj => by
    rw [hlv₁ j, if_neg (by omega)]; exact hi.fresh j (show e.nextId ≤ j by omega)
  cases pairs with
  | nil => cases hpairs
  | cons p rest =>
    obtain ⟨c₀, rfl⟩ : ∃ c₀, p = (some cur, c₀) := by
      simp only [List.map_cons, List.cons.injEq] at hpairs; exact ⟨p.2, by rw [← hpairs.1]⟩
    simp only [List.map_cons, List.cons.injEq, true_and] at hpairs
    have h' := branchTail_cons_none e₁ h
    have hext : ∀ {e₂ : Executor}, (∀ j, e₂.nextId ≤ j → e₂.linkView j = none) →
        (∀ j, j < e.nextId → e₂.linkView j = e.linkView j) →
        (∀ r R, e.nextId ≤ r → e₂.linkView r = some R → R.isRecovery = true →
          Linked e₂.linkView r R ∧ ∀ d, R.dependentState = some d → e.nextId ≤ d) →
        (∀ j ∈ List.range' e.nextId m, ∃ L, e₂.linkView j = some L ∧ L.suspendedNormal = false) →
        Skel.Mid ⟨e₂.linkView, e₂.nextId, e.idLists⟩ ∧
          ∀ j ∈ cur :: List.range' e.nextId m, Skel.Active ⟨e₂.linkView, e₂.nextId, e.idLists⟩ j :=
      fun hf ho hn ha => ⟨hi.toMid.extend rfl hf ho hn, fun j hj => by
        rcases List.mem_cons.mp hj with rfl | hj
        · exact ⟨_, (ho j hcurn).trans hC, hCsn⟩
        · exact ha j hj⟩
    by_cases hrec : cs.links.isRecovery = true
    · have hwf : LinksWF e.linkView fun _ => False := hi.links
      have hfr₀ : ∀ j, e.nextId ≤ j → e.linkView j = none := hi.fresh
      have hcl : CopyLinking e.linkView e.nextId cs.links (List.range' e.nextId m) e₁ cur
          (List.range' e.nextId m) := by
        refine ⟨hfresh₁, hold₁, List.nodup_cons.mpr ⟨fun hm' => by
            rw [List.mem_range'_1] at hm'; omega, List.nodup_range' _ _⟩,
          fun id hid => ⟨(List.mem_range'_1.mp hid).1, hcopy₁ id hid⟩,
          fun r R hr hR hrec' hri => ?_,
          ⟨cs.links, (hold₁ cur hcurn).trans hC, hrec, hCsn, rfl, ?_⟩,
          fun j hj => ⟨_, hcopy₁ j hj, hCsn⟩⟩
        · rw [hlv₁ r, if_neg (fun h'' => hri (List.mem_range'_1.mpr h'')), hfr₀ r hr] at hR
          cases hR
        · refine (hi.linked hC hrec).congr fun d hd => ?_
          obtain ⟨D, hD, -⟩ := (hi.linked hC hrec).dep_suspendedNormal hd
          exact hold₁ d (Skel.lt_of_live hi.fresh ⟨D, hD⟩)
      obtain ⟨⟨p', hfin⟩, hls⟩ := CopyLinking.branchTail hwf hfr₀ hrec hCsn rest _ cur e₁ e₂ h'
        hpairs hcl
      obtain ⟨hm, hact⟩ := hext hfin.fresh hfin.old
        (fun r R hr hR hrec' => hfin.linked r R hr hR hrec' (List.not_mem_nil r)) hfin.active
      exact ⟨hls, hm, hact, hfin.old⟩
    · have hnr : cs.links.isRecovery = false := by simpa using hrec
      have he₂ := branchTail_of_chain rest (some cur) h' (chain'_of_forall fun b hb a => by
        rw [hpairs] at hb
        obtain ⟨id, hid, rfl⟩ := List.mem_map.mp hb
        refine Or.inr fun id' s' hid' hs' => ?_
        cases hid'
        have := hcopy₁ id hid
        simp only [linkView_apply, hs', Option.map_some'] at this
        rw [← hnr, ← Option.some_injective _ this]; rfl)
      subst he₂
      obtain ⟨hm, hact⟩ := hext hfresh₁ hold₁ (fun r R hr hR hrec' => by
          by_cases hrm : r ∈ List.range' e.nextId m
          · rw [hcopy₁ r hrm] at hR; cases hR; rw [hnr] at hrec'; cases hrec'
          · rw [hlv₁ r, if_neg (fun h'' => hrm (List.mem_range'_1.mpr h'')),
              show e.linkView r = none from hi.fresh r hr] at hR
            cases hR)
        fun j hj => ⟨_, hcopy₁ j hj, hCsn⟩
      exact ⟨rfl, hm, hact, hold₁⟩

/-- `branch` on the selected state, from the invariant between moves. -/
theorem mid_branch {cur : Nat} {conditions : List Expr} {rng : Nat} {e' : Executor}
    {result : List (Option Nat)} (hi : e.skel.Inv false) (hsel : cur ∈ e.searcher)
    (h : e.branch cur conditions rng = some (e', result)) : e'.skel.Mid := by
  rw [branch] at h
  split at h
  · cases h
  rename_i hN
  obtain ⟨s, hs, h⟩ := Option.bind_eq_some.mp h
  have hC : e.linkView cur = some s.links := by simp [linkView, hs]
  have hm := hi.toMid
  have hfresh : ∀ j, e.nextId ≤ j → e.linkView j = none := hi.fresh
  obtain ⟨hcurs, hcura⟩ := hi.searcher_active hsel
  have hadd₀ : e.addedStates = [] := hi.added
  have hrem₀ : e.removedStates = [] := hi.removed
  have hres₀ : e.resumedStates = [] := hi.resumed
  -- the end of `branch`: the last two loops, with the skeleton of the first
  have hend : ∀ {e₁ : Executor} {res : List (Option Nat)},
      ((res.zip conditions).map Prod.fst = res) →
      (do let e ← branchTail (res.zip conditions) none e₁
          let e ← branchConstraints (res.zip conditions) e
          some (e, res)) = some (e', result) →
      ∃ e₂, branchTail (res.zip conditions) none e₁ = some e₂ ∧ e'.skel = e₂.skel := by
    intro e₁ res _ h
    obtain ⟨e₂, h₂, h⟩ := Option.bind_eq_some.mp h
    obtain ⟨e₃, h₃, h⟩ := Option.bind_eq_some.mp h
    cases h
    exact ⟨e₂, h₂, skel_branchConstraints _ _ _ h₃⟩
  dsimp only at h
  split at h
  · -- after `MaxForks` forks the state follows one case: no copy, no fork of a chain
    obtain ⟨y, hy, h⟩ := Option.bind_eq_some.mp h
    cases hy
    have hlen : ((List.range conditions.length).map fun i =>
        if i = rng % conditions.length then some cur else none).length ≤ conditions.length := by
      simp
    obtain ⟨e₂, h₂, hsk⟩ := hend (List.map_fst_zip _ _ hlen) h
    rw [hsk, branchTail_of_chain _ _ h₂ ?_]
    · exact hm
    rw [List.map_fst_zip _ _ hlen, List.chain'_cons']
    refine ⟨fun _ _ => Or.inl rfl, ?_⟩
    obtain ⟨M, hM⟩ : ∃ M, conditions.length = M + 1 := ⟨conditions.length - 1, by omega⟩
    rw [hM, List.chain'_map, List.chain'_range_succ]
    intro k hk
    by_cases hkr : k = rng % (M + 1)
    · refine Or.inr fun id s' hid _ => ?_
      rw [if_neg (by omega)] at hid; cases hid
    · exact Or.inl (if_neg hkr)
  -- the copies at the next pointers are in no list, and active at the end
  have hnew : ∀ x ∈ List.range' e.nextId (conditions.length - 1),
      x ∉ e.states ∧ x ∉ e.searcher ∧ x ∉ e.addedStates ∧ x ∉ e.removedStates ∧
        x ∉ e.rangingSuspendedStates ++ e.prefixSuspendedStatesMap.map Prod.snd := fun x hx =>
    hm.toLists.not_mem_of_none (hfresh x (List.mem_range'_1.mp hx).1)
  have hcurnd : (cur :: List.range' e.nextId (conditions.length - 1)).Nodup :=
    List.nodup_cons.mpr ⟨fun hx => (hnew cur hx).1 hcurs, List.nodup_range' _ _⟩
  have hlen : ∀ l : List Nat, l = [cur] ++ List.range' e.nextId (conditions.length - 1) →
      (l.map some).length ≤ conditions.length := by
    rintro l rfl; simp; omega
  split at h
  · -- on the master, or without a prefix to range: the copies are added states
    obtain ⟨disc, hdisc, h⟩ := Option.bind_eq_some.mp h
    obtain ⟨y, hy, h⟩ := Option.bind_eq_some.mp h
    cases hy
    obtain ⟨hres, hsk₄⟩ := branchCopies_spec _ _ _ _ hdisc ⟨cur, rfl, hC⟩ hfresh
    obtain ⟨e₂, h₂, hsk⟩ := hend (List.map_fst_zip _ _ (hlen _ hres)) h
    obtain ⟨hls₂, hm₂, hact, -⟩ := branch_links hi hsel hs (congrArg Skel.lv hsk₄)
      (congrArg Skel.nextId hsk₄) (by rw [List.map_fst_zip _ _ (hlen _ hres), hres]; rfl) h₂
    rw [hsk]
    show Skel.Mid ⟨e₂.linkView, e₂.nextId, e₂.idLists⟩
    rw [hls₂, show disc.1.idLists = _ from congrArg Skel.ls hsk₄]
    simp only [↓reduceIte]
    refine hm₂.addAddedList _ (List.nodup_range' _ _) fun x hx => ?_
    obtain ⟨h₁, h₂, h₃, h₄, h₅⟩ := hnew x hx
    exact ⟨hact x (List.mem_cons_of_mem _ hx), h₁, h₄, h₂, h₃, h₅⟩
  · -- a ranging worker: the cases are ranged against the upper bound
    obtain ⟨disc, hdisc, h⟩ := Option.bind_eq_some.mp h
    obtain ⟨e₅, h₅, h⟩ := Option.bind_eq_some.mp h
    obtain ⟨y, hy, h⟩ := Option.bind_eq_some.mp h
    cases hy
    obtain ⟨hres, hsk₄⟩ := branchCopies_spec _ _ _ _ hdisc ⟨cur, rfl, hC⟩ hfresh
    have hls₄ : disc.1.idLists = e.idLists := by simpa using congrArg Skel.ls hsk₄
    have hst₄ : disc.1.states = e.states := congrArg IdLists.states hls₄
    have hse₄ : disc.1.searcher = e.searcher := congrArg IdLists.searcher hls₄
    rw [hres, List.singleton_append] at h₅
    obtain ⟨hlv₅, hn₅, hout⟩ := rangeCases_cases disc.1 h₅ hcurnd (hst₄ ▸ hi.statesNodup)
      (hse₄ ▸ (hi.sched.resolve_left Bool.false_ne_true).1)
    obtain ⟨e₂, h₂, hsk⟩ := hend (List.map_fst_zip _ _ (hlen _ hres)) h
    obtain ⟨hls₂, hm₂, hact, hold⟩ := branch_links hi hsel hs
      (hlv₅.trans (congrArg Skel.lv hsk₄)) (hn₅.trans (congrArg Skel.nextId hsk₄))
      (by rw [List.map_fst_zip _ _ (hlen _ hres), hres]; rfl) h₂
    rw [hsk]
    show Skel.Mid ⟨e₂.linkView, e₂.nextId, e₂.idLists⟩
    rw [hls₂]
    have hlv₄ : ∀ j, j < e.nextId → disc.1.linkView j = e.linkView j := fun j hj =>
      (congrFun (congrArg Skel.lv hsk₄) j).trans (if_neg fun h' => by
        change e.nextId ≤ j ∧ _ at h'; omega)
    rcases hout with ⟨R, hRnd, hRsub, hls₅⟩ |
      ⟨R, x, E, hxR, hxRsub, hls₅, hVnd, hVm, hSnd, hSm, hcurE, hEsub, hEcl, hEback⟩
    · rw [hls₅, hls₄]
      refine hm₂.addRangingList R hRnd fun x hx => ?_
      obtain ⟨h₁, -, h₃, -, h₅⟩ := hnew x (hRsub x hx)
      exact ⟨hact x (List.mem_cons_of_mem _ (hRsub x hx)), h₁, h₃, h₅⟩
    · rw [hls₅, hls₄]
      have hbelow : ∀ y ∈ E, y < e.nextId := fun y hy =>
        Skel.lt_of_live hi.fresh (hi.statesLive y (show y ∈ e.states from hst₄ ▸ hEsub y hy))
      -- every state of the erased chain but the selected one is a dependent state
      have hEsn : ∀ y ∈ E, y ≠ cur → ∃ Y, e.linkView y = some Y ∧ Y.suspendedNormal = true := by
        intro y hy hne
        obtain ⟨z, hz, hzy⟩ := (hEback y hy).resolve_left hne
        rw [nextDependent_eq, hlv₄ z (hbelow z hz)] at hzy
        obtain ⟨Z, hZ, hzy⟩ := Option.bind_eq_some.mp hzy
        split at hzy
        · exact (hi.linked hZ ‹_›).dep_suspendedNormal hzy
        · cases hzy
      have hEcl₂ : ∀ y ∈ E, ∀ Y, e₂.linkView y = some Y → Y.isRecovery = true →
          Y.suspendedNormal = true → ∀ d, Y.dependentState = some d → d ∈ E := by
        intro y hy Y hY hrec hsn d hd
        rw [hold y (hbelow y hy)] at hY
        refine hEcl y hy (hcura.ne hY hsn).symm d ?_
        rw [nextDependent_eq, hlv₄ y (hbelow y hy), hY]
        simp [hrec, hd]
      have hls₀ : e.idLists.added = [] ∧ e.idLists.removed = [] ∧ e.idLists.resumed = [] :=
        ⟨hadd₀, hrem₀, hres₀⟩
      have hm₃ := hm₂.eraseStates (show cur ∉ e.idLists.removed by simp [hls₀])
        (show cur ∉ e.idLists.resumed by simp [hls₀])
        (fun y hy hne => by
          obtain ⟨Y, hY, hsn⟩ := hEsn y hy hne
          exact ⟨Y, (hold y (hbelow y hy)).trans hY, hsn⟩) hEcl₂ hSnd
        (fun j => by rw [hSm, hst₄]; rfl) hVnd (fun j => by rw [hVm, hse₄]; rfl)
        fun j hj hjE => by_contra fun hne => by
          obtain ⟨Y, hY, hsn⟩ := hEsn j hjE hne
          exact (hi.searcher_active hj).2.ne hY hsn rfl
      -- the cases leave the searcher and `states`, and were not pending
      have hout : ∀ y ∈ cur :: List.range' e.nextId (conditions.length - 1), y ∉ e₅.states ∧
          y ∉ e₅.searcher ∧
          y ∉ e.rangingSuspendedStates ++ e.prefixSuspendedStatesMap.map Prod.snd := by
        rintro y (_ | ⟨_, hy⟩)
        · exact ⟨fun h => ((hSm cur).mp h).2 hcurE, fun h => ((hVm cur).mp h).2 rfl,
            fun h => (hm.pending cur h).2.1 hcurs⟩
        · obtain ⟨h₁, h₂, -, -, h₅⟩ := hnew y hy
          exact ⟨fun h => h₁ (hst₄ ▸ ((hSm y).mp h).1), fun h => h₂ (hse₄ ▸ ((hVm y).mp h).1), h₅⟩
      have hm₄ := hm₃.addRangingList R (List.nodup_cons.mp hxR).2 fun y hy => by
        have hy' := hxRsub y (List.mem_cons_of_mem _ hy)
        exact ⟨hact y hy', (hout y hy').1, by simp [hls₀], (hout y hy').2.2⟩
      have hx := hxRsub x (List.mem_cons_self _ _)
      exact hm₄.addAdded (hact x hx) (hout x hx).1 (by simp [hls₀]) (hout x hx).2.1 (by simp [hls₀])
        (by
          have h₅ := (hout x hx).2.2
          simp only [List.mem_append, not_or] at h₅ ⊢
          exact ⟨⟨h₅.1, (List.nodup_cons.mp hxR).1⟩, h₅.2⟩)

end Executor

end PChop
