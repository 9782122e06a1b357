import PChop.BFSSearcher
import PChop.UserSearcher
import Mathlib.Data.List.Nodup

/-!
# The depth buckets of the BFS searcher

No run of the program builds a `BFSSearcher`: `constructUserSearcher` asks `getNewSearcher` for
a DFS, a random or a weighted searcher, also for the executor's default search mode `BFS`
(`constructUserSearcher_builds_BFS`). What follows is about the class on its own, over the
sequences of operations its interface allows (`Reachable`).

`Exact` says the buckets are exact: every depth of `depthStatesMap` holds a non-empty deque
without duplicates, every held state is filed once, at the depth `depthMap` records for it,
and a non-empty searcher's `currentMinDepth` is a populated depth, so that `selectState`
returns a held state. Every update keeps it (`Exact.update`); taking a state out of its
deque to file it again passes through `ExactBut`, the same without that state.

`Inv` adds that `currentMinDepth` is the least populated depth (`Least`). Inserting and
removing states keep it, but refiling the current state at its new depth does not: moving the
state alone at `currentMinDepth` deeper than another held state makes its new depth
`currentMinDepth` (`Inv.update_deepens_currentMinDepth`). So every run keeps the buckets
exact, and a run that refiles no state also keeps `currentMinDepth` least (`Reachable.inv`).

A removal returns exactly when the state is not alone at `currentMinDepth` or a deeper depth
is populated; with `currentMinDepth` least, exactly when another state is held.
-/

namespace PChop

/-- `constructUserSearcher` builds no BFS searcher, whatever the mode and the options. -/
theorem constructUserSearcher_builds_BFS (searchMode : String) (UseSplittedSearcher : Bool)
    (SplitRatio : Nat) :
    (constructUserSearcher searchMode UseSplittedSearcher SplitRatio).builds .BFS = false := by
  have h : userSearchType searchMode ≠ .BFS := by
    unfold userSearchType
    split_ifs <;> decide
  cases UseSplittedSearcher <;> simp [constructUserSearcher, UserSearcher.builds, h]

namespace NatMap

variable {α : Type} (m : NatMap α)

@[simp] theorem get?_nil (k : Nat) : NatMap.get? ([] : NatMap α) k = none := rfl

theorem get?_cons (k' : Nat) (v : α) (k : Nat) :
    NatMap.get? ((k', v) :: m) k = if k' = k then some v else m.get? k := by
  by_cases h : k' = k <;> simp [get?, List.find?_cons, h]

@[simp] theorem get?_erase (k k' : Nat) : (m.erase k).get? k' = if k' = k then none else m.get? k' := by
  induction m with
  | nil => simp [erase, get?]
  | cons e m ih =>
    obtain ⟨k₀, v⟩ := e
    by_cases h₀ : k₀ = k
    · subst h₀
      simp only [erase, List.filter_cons, bne_self_eq_false, Bool.false_eq_true, ↓reduceIte]
      rw [← erase, ih, get?_cons]
      split_ifs <;> simp_all
    · simp only [erase, List.filter_cons, bne_iff_ne, ne_eq, h₀, not_false_eq_true, ↓reduceIte]
      rw [get?_cons, get?_cons, ← erase, ih]
      split_ifs <;> simp_all

@[simp] theorem get?_set (k : Nat) (v : α) (k' : Nat) :
    (m.set k v).get? k' = if k' = k then some v else m.get? k' := by
  simp only [set, get?_cons, get?_erase]
  split_ifs <;> simp_all [eq_comm]

/-- A map is empty exactly when no key has a value. -/
theorem isEmpty_iff : m.isEmpty = true ↔ ∀ k, m.get? k = none := by
  cases m with
  | nil => simp
  | cons e m =>
    obtain ⟨k, v⟩ := e
    simp only [List.isEmpty_cons, Bool.false_eq_true, false_iff, not_forall]
    exact ⟨k, by simp [get?_cons]⟩

end NatMap

namespace BFSSearcher

open NatMap

/-! ## The operations -/

section Insert

variable (b : BFSSearcher) (x depth : Nat)

@[simp] theorem states_insertIntoDepthStateMap : (b.insertIntoDepthStateMap x depth).states =
    if x ∈ b.states then b.states else b.states ++ [x] := by
  cases h : b.depthStatesMap.get? depth <;> simp [insertIntoDepthStateMap, h]

@[simp] theorem depthMap_insertIntoDepthStateMap :
    (b.insertIntoDepthStateMap x depth).depthMap = b.depthMap.set x depth := by
  cases h : b.depthStatesMap.get? depth <;> simp [insertIntoDepthStateMap, h]

@[simp] theorem get?_insertIntoDepthStateMap (d : Nat) :
    (b.insertIntoDepthStateMap x depth).depthStatesMap.get? d = if d = depth then
      some ((b.depthStatesMap.get? depth).getD [] ++ [x]) else b.depthStatesMap.get? d := by
  cases h : b.depthStatesMap.get? depth <;> simp [insertIntoDepthStateMap, h]

/-- The first state sets `currentMinDepth`, and a new depth below it lowers it. -/
theorem currentMinDepth_insertIntoDepthStateMap :
    (b.insertIntoDepthStateMap x depth).currentMinDepth =
      if b.depthMap.isEmpty then depth
      else if (b.depthStatesMap.get? depth).isNone ∧ depth < b.currentMinDepth then depth
      else b.currentMinDepth := by
  cases h : b.depthStatesMap.get? depth <;> cases he : b.depthMap.isEmpty <;>
    simp [insertIntoDepthStateMap, h, he]

end Insert

/-- The loop stops at the first populated depth from where it starts. -/
theorem nextPopulated_spec {m : NatMap (List Nat)} : ∀ {fuel t d : Nat},
    nextPopulated m fuel t = some d →
      t ≤ d ∧ (m.get? d).isSome ∧ ∀ d', t ≤ d' → d' < d → m.get? d' = none
  | 0, _, _, h => by cases h
  | fuel + 1, t, d, h => by
    rw [nextPopulated] at h
    split at h
    · cases h; exact ⟨le_rfl, ‹_›, fun d' h₁ h₂ => absurd h₂ (by omega)⟩
    · rename_i hnone
      obtain ⟨h₁, h₂, h₃⟩ := nextPopulated_spec h
      refine ⟨by omega, h₂, fun d' hd' hlt => ?_⟩
      rcases Nat.eq_or_lt_of_le hd' with rfl | hd'
      · exact Option.not_isSome_iff_eq_none.mp hnone
      · exact h₃ d' hd' hlt

/-- A removal of a held state filed at `d` in the deque `l`: the state leaves `states`,
`depthMap` and the deque, which is erased when left empty; only when that deque was the one at
`currentMinDepth` does the loop look for the next populated depth. -/
theorem removeFromDepthStateMap_eq (b : BFSSearcher) {fuel x d : Nat} {l : List Nat}
    (hx : x ∈ b.states) (hd : b.depthMap.get? x = some d) (hl : b.depthStatesMap.get? d = some l)
    (hxl : x ∈ l) : b.removeFromDepthStateMap fuel x =
      if l.erase x = [] then
        if d = b.currentMinDepth then
          (nextPopulated (b.depthStatesMap.erase d) fuel (b.currentMinDepth + 1)).map fun c =>
            ⟨b.states.erase x, b.depthMap.erase x, b.depthStatesMap.erase d, c⟩
        else some ⟨b.states.erase x, b.depthMap.erase x, b.depthStatesMap.erase d, b.currentMinDepth⟩
      else
        some ⟨b.states.erase x, b.depthMap.erase x, b.depthStatesMap.set d (l.erase x),
          b.currentMinDepth⟩ := by
  simp only [removeFromDepthStateMap, hx, not_true_eq_false, ↓reduceIte, hd, Option.getD_some,
    hl, hxl, List.isEmpty_iff, Option.bind_eq_bind, Option.some_bind]
  split_ifs <;> first | rfl | (cases nextPopulated _ fuel _ <;> rfl)

/-! ## Exact buckets -/

/-- The buckets are exact: every depth holds a non-empty deque without duplicates, every held
state is filed once, at its recorded depth, and a non-empty searcher's `currentMinDepth` is a
populated depth. -/
structure Exact (b : BFSSearcher) : Prop where
  statesNodup : b.states.Nodup
  recorded : ∀ x, (b.depthMap.get? x).isSome ↔ x ∈ b.states
  nonempty : ∀ d l, b.depthStatesMap.get? d = some l → l ≠ []
  bucketNodup : ∀ d l, b.depthStatesMap.get? d = some l → l.Nodup
  filed : ∀ x d, b.depthMap.get? x = some d → ∃ l, b.depthStatesMap.get? d = some l ∧ x ∈ l
  under : ∀ d l x, b.depthStatesMap.get? d = some l → x ∈ l → b.depthMap.get? x = some d
  populated : b.states ≠ [] → (b.depthStatesMap.get? b.currentMinDepth).isSome

/-- `Exact` but for the state `x`, which no deque holds: the searcher between taking a state
out of its deque and filing it again. -/
structure ExactBut (x : Nat) (b : BFSSearcher) : Prop where
  statesNodup : b.states.Nodup
  recorded : ∀ y, y ≠ x → ((b.depthMap.get? y).isSome ↔ y ∈ b.states)
  nonempty : ∀ d l, b.depthStatesMap.get? d = some l → l ≠ []
  bucketNodup : ∀ d l, b.depthStatesMap.get? d = some l → l.Nodup
  filed : ∀ y d, y ≠ x → b.depthMap.get? y = some d →
    ∃ l, b.depthStatesMap.get? d = some l ∧ y ∈ l
  under : ∀ d l y, b.depthStatesMap.get? d = some l → y ∈ l → y ≠ x ∧ b.depthMap.get? y = some d

theorem Exact.init : ({} : BFSSearcher).Exact :=
  ⟨List.nodup_nil, by simp, by simp, by simp, by simp, by simp, fun h => (h rfl).elim⟩

variable {b : BFSSearcher}

/-- The states of a deque are held. -/
theorem Exact.mem_states (hb : b.Exact) {d : Nat} {l : List Nat} {x : Nat}
    (hl : b.depthStatesMap.get? d = some l) (hx : x ∈ l) : x ∈ b.states :=
  (hb.recorded x).mp (by rw [hb.under d l x hl hx]; rfl)

/-- An exact searcher without states has no recorded depth and no deque. -/
theorem Exact.of_states_nil (hb : b.Exact) (h : b.states = []) :
    (∀ x, b.depthMap.get? x = none) ∧ ∀ d, b.depthStatesMap.get? d = none := by
  refine ⟨fun x => ?_, fun d => ?_⟩
  · have := hb.recorded x; rw [h] at this; simpa using this
  · cases hl : b.depthStatesMap.get? d with
    | none => rfl
    | some l =>
      obtain ⟨x, xs, rfl⟩ := List.exists_cons_of_ne_nil (hb.nonempty _ _ hl)
      have := hb.mem_states hl (List.mem_cons_self x xs)
      rw [h] at this; cases this

/-- `depthMap` is empty exactly when no state is held. -/
theorem Exact.isEmpty_depthMap (hb : b.Exact) : b.depthMap.isEmpty = true ↔ b.states = [] := by
  rw [NatMap.isEmpty_iff]
  refine ⟨fun h => List.eq_nil_iff_forall_not_mem.mpr fun y hy => ?_,
    fun h => (hb.of_states_nil h).1⟩
  have := (hb.recorded y).mpr hy; rw [h y] at this; cases this

/-- `selectState` returns a held state filed at `currentMinDepth`. -/
theorem Exact.selectState (hb : b.Exact) (hne : b.states ≠ []) :
    ∃ x, b.selectState = some x ∧ x ∈ b.states ∧ b.depthMap.get? x = some b.currentMinDepth := by
  obtain ⟨l, hl⟩ := Option.isSome_iff_exists.mp (hb.populated hne)
  obtain ⟨x, xs, rfl⟩ := List.exists_cons_of_ne_nil (hb.nonempty _ _ hl)
  exact ⟨x, by simp [BFSSearcher.selectState, hl], hb.mem_states hl (List.mem_cons_self x xs),
    hb.under _ _ x hl (List.mem_cons_self x xs)⟩

/-- `atleast2states` of a non-empty exact searcher reads it without a change. -/
theorem Exact.atleast2states (hb : b.Exact) (hne : b.states ≠ []) : b.atleast2states.1 = b := by
  obtain ⟨l, hl⟩ := Option.isSome_iff_exists.mp (hb.populated hne)
  simp [BFSSearcher.atleast2states, hl]

/-- A state the searcher does not hold is in no deque. -/
theorem Exact.exactBut (hb : b.Exact) {x : Nat} (hx : x ∉ b.states) : b.ExactBut x :=
  ⟨hb.statesNodup, fun y _ => hb.recorded y, hb.nonempty, hb.bucketNodup,
    fun y d _ hy => hb.filed y d hy,
    fun d l y hl hy => ⟨fun h => hx (h ▸ hb.mem_states hl hy), hb.under d l y hl hy⟩⟩

/-- Filing `x` at `depth` makes the buckets exact, when `currentMinDepth` is populated, or is
`depth`, or is about to be set by a first state. -/
theorem ExactBut.insert {x : Nat} (hb : b.ExactBut x) (depth : Nat)
    (hmin : b.depthMap.isEmpty = true ∨ (b.depthStatesMap.get? b.currentMinDepth).isSome ∨
      b.currentMinDepth = depth) : (b.insertIntoDepthStateMap x depth).Exact := by
  have hxl : ∀ d l, b.depthStatesMap.get? d = some l → x ∉ l := fun d l hl hx =>
    (hb.under d l x hl hx).1 rfl
  have hold : ∀ y, y ≠ x → (y ∈ (if x ∈ b.states then b.states else b.states ++ [x]) ↔
      y ∈ b.states) := fun y hy => by split <;> simp [hy]
  refine ⟨?_, fun y => ?_, fun d l hl => ?_, fun d l hl => ?_, fun y d hy => ?_,
    fun d l y hl hy => ?_, fun _ => ?_⟩
  · rw [states_insertIntoDepthStateMap]
    split
    · exact hb.statesNodup
    · exact hb.statesNodup.append (List.nodup_singleton x)
        fun a ha hx' => ‹x ∉ b.states› ((List.mem_singleton.mp hx') ▸ ha)
  · rw [depthMap_insertIntoDepthStateMap, states_insertIntoDepthStateMap, get?_set]
    by_cases hy : y = x
    · subst hy
      simp only [if_true, Option.isSome_some, true_iff]
      split
      · assumption
      · exact List.mem_append_right _ (List.mem_singleton_self _)
    · rw [if_neg hy, hold y hy]; exact hb.recorded y hy
  · rw [get?_insertIntoDepthStateMap] at hl
    split_ifs at hl
    · cases hl; simp
    · exact hb.nonempty d l hl
  · rw [get?_insertIntoDepthStateMap] at hl
    split_ifs at hl
    · cases hl
      cases h : b.depthStatesMap.get? depth with
      | none => simp
      | some l₀ =>
        exact (hb.bucketNodup _ _ h).append (List.nodup_singleton x)
          fun a ha hx' => hxl _ _ h ((List.mem_singleton.mp hx') ▸ ha)
    · exact hb.bucketNodup d l hl
  · rw [depthMap_insertIntoDepthStateMap, get?_set] at hy
    rw [get?_insertIntoDepthStateMap]
    split_ifs at hy with hyx
    · cases hy; simp [hyx]
    · obtain ⟨l, hl, hyl⟩ := hb.filed y d hyx hy
      split_ifs with hd
      · subst hd; simp [hl, hyl]
      · exact ⟨l, hl, hyl⟩
  · rw [depthMap_insertIntoDepthStateMap, get?_set]
    rw [get?_insertIntoDepthStateMap] at hl
    split_ifs at hl with hd
    · cases hl
      rcases List.mem_append.mp hy with hy | hy
      · cases h : b.depthStatesMap.get? depth with
        | none => rw [h] at hy; cases hy
        | some l₀ =>
          rw [h] at hy
          obtain ⟨hyx, hyd⟩ := hb.under _ _ y h hy
          rw [if_neg hyx, hyd, hd]
      · rw [List.mem_singleton.mp hy, if_pos rfl, hd]
    · obtain ⟨hyx, hyd⟩ := hb.under d l y hl hy
      rw [if_neg hyx, hyd]
  · rw [get?_insertIntoDepthStateMap]
    by_cases hd : (b.insertIntoDepthStateMap x depth).currentMinDepth = depth
    · rw [if_pos hd]; rfl
    rw [if_neg hd]
    have hc : (b.insertIntoDepthStateMap x depth).currentMinDepth = b.currentMinDepth := by
      rw [currentMinDepth_insertIntoDepthStateMap] at hd ⊢
      split_ifs at hd ⊢ <;> simp_all
    rw [hc]
    rcases hmin with h | h | h
    · rw [currentMinDepth_insertIntoDepthStateMap, if_pos h] at hd; exact absurd rfl hd
    · exact h
    · exact absurd (hc.trans h) hd

/-- Inserting a state the searcher does not hold keeps the buckets exact. -/
theorem Exact.insert (hb : b.Exact) {x : Nat} (hx : x ∉ b.states) (depth : Nat) :
    (b.insertIntoDepthStateMap x depth).Exact := by
  refine (hb.exactBut hx).insert depth ?_
  by_cases hs : b.states = []
  · exact .inl (hb.isEmpty_depthMap.mpr hs)
  · exact .inr (.inl (hb.populated hs))

/-- A removal that returns took out a held state. -/
theorem mem_states_of_removeFromDepthStateMap {fuel x : Nat} {b' : BFSSearcher}
    (h : b.removeFromDepthStateMap fuel x = some b') : x ∈ b.states := by
  by_contra hx
  simp [removeFromDepthStateMap, hx] at h

/-- Taking the state `x` out of its deque at `d`, which is erased when left empty, keeps every
other state filed: the deques stay non-empty and without duplicates, and hold exactly the other
states, at their recorded depths. -/
theorem Exact.unfile (hb : b.Exact) {x d : Nat} {l : List Nat} (hd : b.depthMap.get? x = some d)
    (hl : b.depthStatesMap.get? d = some l) {m : NatMap (List Nat)}
    (hm : ∀ k, m.get? k = if k = d then (if l.erase x = [] then none else some (l.erase x))
      else b.depthStatesMap.get? k) :
    (∀ k l', m.get? k = some l' → l' ≠ []) ∧ (∀ k l', m.get? k = some l' → l'.Nodup) ∧
      (∀ y k, y ≠ x → b.depthMap.get? y = some k → ∃ l', m.get? k = some l' ∧ y ∈ l') ∧
      (∀ k l' y, m.get? k = some l' → y ∈ l' → y ≠ x ∧ b.depthMap.get? y = some k) := by
  have hnd := hb.bucketNodup d l hl
  refine ⟨fun k l' hk => ?_, fun k l' hk => ?_, fun y k hyx hy => ?_, fun k l' y hk hy => ?_⟩
  · rw [hm] at hk
    split_ifs at hk with h₁ h₂
    · cases hk; exact h₂
    · exact hb.nonempty k l' hk
  · rw [hm] at hk
    split_ifs at hk
    · cases hk; exact hnd.erase x
    · exact hb.bucketNodup k l' hk
  · obtain ⟨l'', hl'', hyl⟩ := hb.filed y k hy
    rw [hm]
    by_cases hk : k = d
    · subst hk
      have hyl' : y ∈ l := by rw [hl] at hl''; exact (Option.some.inj hl'') ▸ hyl
      have hy' : y ∈ l.erase x := (hnd.mem_erase_iff).mpr ⟨hyx, hyl'⟩
      simp [List.ne_nil_of_mem hy', hy']
    · simp [hk, hl'', hyl]
  · rw [hm] at hk
    split_ifs at hk with hkd
    · cases hk
      obtain ⟨hyx, hyl⟩ := (hnd.mem_erase_iff).mp hy
      exact ⟨hyx, hkd ▸ hb.under d l y hl hyl⟩
    · have hyd := hb.under k l' y hk hy
      exact ⟨fun h => hkd (by rw [h, hd] at hyd; exact (Option.some.inj hyd).symm), hyd⟩

/-- A removal that returns keeps the buckets exact, and the states but the removed one. -/
theorem Exact.remove (hb : b.Exact) {fuel x : Nat} {b' : BFSSearcher}
    (h : b.removeFromDepthStateMap fuel x = some b') : b'.Exact ∧ b'.states = b.states.erase x := by
  have hx := mem_states_of_removeFromDepthStateMap h
  obtain ⟨d, hd⟩ := Option.isSome_iff_exists.mp ((hb.recorded x).mpr hx)
  obtain ⟨l, hl, hxl⟩ := hb.filed x d hd
  -- the searcher without `x`, whatever the deque at `d` and `currentMinDepth` become
  have hgen : ∀ (m : NatMap (List Nat)) (c : Nat),
      (∀ k, m.get? k = if k = d then (if l.erase x = [] then none else some (l.erase x))
        else b.depthStatesMap.get? k) →
      (b.states.erase x ≠ [] → (m.get? c).isSome) →
      (BFSSearcher.mk (b.states.erase x) (b.depthMap.erase x) m c).Exact := by
    intro m c hm hc
    obtain ⟨h₁, h₂, h₃, h₄⟩ := hb.unfile hd hl hm
    refine ⟨hb.statesNodup.erase x, fun y => ?_, h₁, h₂, fun y k hy => ?_,
      fun k l' y hk hy => ?_, hc⟩
    · rw [get?_erase, hb.statesNodup.mem_erase_iff]
      by_cases hyx : y = x <;> simp [hyx, hb.recorded y]
    · rw [get?_erase] at hy
      split_ifs at hy with hyx
      exact h₃ y k hyx hy
    · obtain ⟨hyx, hyd⟩ := h₄ k l' y hk hy
      rw [get?_erase, if_neg hyx, hyd]
  have hpop := hb.populated (List.ne_nil_of_mem hx)
  rw [removeFromDepthStateMap_eq b hx hd hl hxl] at h
  split_ifs at h with h₁ h₂
  · -- the deque at `currentMinDepth` is gone: the loop found the next populated depth
    obtain ⟨c, hc, rfl⟩ := Option.map_eq_some'.mp h
    refine ⟨hgen _ c (fun k => ?_) fun _ => (nextPopulated_spec hc).2.1, rfl⟩
    rw [get?_erase]; split_ifs <;> rfl
  · cases h
    refine ⟨hgen _ _ (fun k => ?_) fun _ => ?_, rfl⟩
    · rw [get?_erase]; split_ifs <;> rfl
    · rwa [get?_erase, if_neg (Ne.symm h₂)]
  · cases h
    refine ⟨hgen _ _ (fun k => ?_) fun _ => ?_, rfl⟩
    · rw [get?_set]; split_ifs <;> rfl
    · rw [get?_set]; split_ifs <;> simp_all

/-- Two searchers with the same states, lookups and `currentMinDepth` are exact together. -/
theorem Exact.congr (hb : b.Exact) {b' : BFSSearcher} (hs : b'.states = b.states)
    (hdm : b'.depthMap.get? = b.depthMap.get?)
    (hdsm : b'.depthStatesMap.get? = b.depthStatesMap.get?)
    (hc : b'.currentMinDepth = b.currentMinDepth) : b'.Exact := by
  obtain ⟨h₁, h₂, h₃, h₄, h₅, h₆, h₇⟩ := hb
  refine ⟨hs ▸ h₁, ?_, ?_, ?_, ?_, ?_, ?_⟩ <;> simp only [hs, hdm, hdsm, hc] <;> assumption

/-- Refiling a held state at a new depth keeps the buckets exact and the states. -/
theorem Exact.updateDepthStateMap (hb : b.Exact) {c d newDepth : Nat}
    (hc : b.depthMap.get? c = some d) {b' : BFSSearcher}
    (h : b.updateDepthStateMap c d newDepth = some b') :
    b'.Exact ∧ b'.states = b.states ∧ b'.depthMap.get? c = some newDepth := by
  obtain ⟨l, hl, hcl⟩ := hb.filed c d hc
  have hcs := (hb.recorded c).mp (by simp [hc])
  simp only [BFSSearcher.updateDepthStateMap, hl, Option.bind_eq_bind, Option.some_bind, hcl,
    not_true_eq_false, ↓reduceIte, Option.some.injEq] at h
  subst h
  -- the searcher with `c` out of its deque
  generalize hb₀ : (if (l.erase c).isEmpty = true then _ else _ : BFSSearcher) = b₀
  have hb₀' : b₀.states = b.states ∧ b₀.depthMap = b.depthMap ∧
      (∀ k, b₀.depthStatesMap.get? k = if k = d then
        (if l.erase c = [] then none else some (l.erase c)) else b.depthStatesMap.get? k) ∧
      ((b₀.depthStatesMap.get? b₀.currentMinDepth).isSome ∨ b₀.currentMinDepth = newDepth) := by
    have hpop := hb.populated (List.ne_nil_of_mem hcs)
    rw [← hb₀]
    by_cases h₁ : (l.erase c).isEmpty = true
    · rw [if_pos h₁]; rw [List.isEmpty_iff] at h₁
      refine ⟨rfl, rfl, fun k => by dsimp only; rw [get?_erase]; split_ifs <;> simp_all, ?_⟩
      dsimp only
      split_ifs with h₂
      · exact .inr rfl
      · left; rwa [get?_erase, if_neg (by omega)]
    · rw [if_neg h₁]; rw [List.isEmpty_iff] at h₁
      refine ⟨rfl, rfl, fun k => by dsimp only; rw [get?_set]; split_ifs <;> simp_all, .inl ?_⟩
      dsimp only; rw [get?_set]; split_ifs <;> simp_all
  obtain ⟨hs₀, hdm₀, hdsm₀, hmin⟩ := hb₀'
  obtain ⟨h₁, h₂, h₃, h₄⟩ := hb.unfile hc hl hdsm₀
  have hb₀c : b₀.ExactBut c :=
    ⟨hs₀ ▸ hb.statesNodup, fun y _ => hs₀ ▸ hdm₀ ▸ hb.recorded y, h₁, h₂,
      fun y k hyc hy => h₃ y k hyc (hdm₀ ▸ hy), fun k l' y hk hy => hdm₀ ▸ h₄ k l' y hk hy⟩
  refine ⟨hb₀c.insert newDepth (hmin.elim (.inr ∘ .inl) (.inr ∘ .inr)), ?_, by simp⟩
  rw [states_insertIntoDepthStateMap, hs₀, if_pos hcs]

/-! ## The least populated depth -/

/-- `currentMinDepth` is at most every populated depth. -/
def Least (b : BFSSearcher) : Prop := ∀ d, (b.depthStatesMap.get? d).isSome → b.currentMinDepth ≤ d

/-- The invariant the searcher is written for: exact buckets, and `currentMinDepth` the least
populated depth. -/
structure Inv (b : BFSSearcher) extends b.Exact : Prop where
  least : b.Least

/-- Inserting a state keeps `currentMinDepth` least: a first state sets it, and a new depth
below it lowers it. -/
theorem Exact.least_insert (hb : b.Exact) (hl : b.Least) (x depth : Nat) :
    (b.insertIntoDepthStateMap x depth).Least := by
  intro d hd
  rw [get?_insertIntoDepthStateMap] at hd
  rw [currentMinDepth_insertIntoDepthStateMap]
  by_cases he : b.depthMap.isEmpty = true
  · rw [if_pos he]
    split_ifs at hd with hdd
    · exact hdd.ge
    · rw [(hb.of_states_nil (hb.isEmpty_depthMap.mp he)).2 d] at hd; cases hd
  · rw [if_neg he]
    split_ifs at hd ⊢ with hc hdd hdd
    · omega
    · have := hl d hd; omega
    · subst hdd
      cases hg : b.depthStatesMap.get? d with
      | none => simp only [hg, Option.isNone_none, true_and, not_lt] at hc; exact hc
      | some l => exact hl d (by rw [hg]; rfl)
    · exact hl d hd

/-- A removal that returns keeps `currentMinDepth` least: the loop stops at the first
populated depth above the erased one. -/
theorem Exact.least_remove (hb : b.Exact) (hleast : b.Least) {fuel x : Nat} {b' : BFSSearcher}
    (h : b.removeFromDepthStateMap fuel x = some b') : b'.Least := by
  have hx := mem_states_of_removeFromDepthStateMap h
  obtain ⟨d, hd⟩ := Option.isSome_iff_exists.mp ((hb.recorded x).mpr hx)
  obtain ⟨l, hl, hxl⟩ := hb.filed x d hd
  rw [removeFromDepthStateMap_eq b hx hd hl hxl] at h
  intro k hk
  split_ifs at h with h₁ h₂
  · obtain ⟨c, hc, rfl⟩ := Option.map_eq_some'.mp h
    obtain ⟨-, -, hgap⟩ := nextPopulated_spec hc
    dsimp only at hk ⊢
    have hkd : k ≠ d := fun hkd => by simp [hkd] at hk
    have hle := hleast k (by rwa [get?_erase, if_neg hkd] at hk)
    by_contra hlt
    rw [hgap k (by omega) (by omega)] at hk; cases hk
  · cases h
    dsimp only at hk ⊢
    rw [get?_erase] at hk
    split_ifs at hk
    · simp at hk
    · exact hleast k hk
  · cases h
    dsimp only at hk ⊢
    rw [get?_set] at hk
    split_ifs at hk with hkd
    · exact hkd ▸ hleast d (by rw [hl]; rfl)
    · exact hleast k hk

/-! ## Whole updates -/

/-- Removals that return keep the buckets exact and `currentMinDepth` least, and hold no new
state. -/
theorem Exact.removeAll (hb : b.Exact) {fuel : Nat} {removedStates : List Nat} {b' : BFSSearcher}
    (h : removedStates.foldlM (fun b s => b.removeFromDepthStateMap fuel s) b = some b') :
    b'.Exact ∧ (∀ y ∈ b'.states, y ∈ b.states) ∧ (b.Least → b'.Least) := by
  induction removedStates generalizing b with
  | nil => cases h; exact ⟨hb, fun _ => id, id⟩
  | cons s rest ih =>
    simp only [List.foldlM_cons, Option.bind_eq_bind, Option.bind_eq_some] at h
    obtain ⟨b₁, h₁, h⟩ := h
    obtain ⟨hb₁, hs₁⟩ := hb.remove h₁
    obtain ⟨hb', hs', hl'⟩ := ih hb₁ h
    exact ⟨hb', fun y hy => List.mem_of_mem_erase (hs₁ ▸ hs' y hy),
      fun hl => hl' (hb.least_remove hl h₁)⟩

/-- Inserting states new to the searcher and to each other keeps the buckets exact and
`currentMinDepth` least. -/
theorem Exact.insertAll (hb : b.Exact) (actDepth : Nat → Nat) {addedStates : List Nat}
    (hadd : addedStates.Nodup) (hfresh : ∀ s ∈ addedStates, s ∉ b.states) :
    (addedStates.foldl (fun b s => b.insertIntoDepthStateMap s (actDepth s)) b).Exact ∧
      (b.Least → (addedStates.foldl (fun b s => b.insertIntoDepthStateMap s (actDepth s)) b).Least) := by
  induction addedStates generalizing b with
  | nil => exact ⟨hb, id⟩
  | cons s rest ih =>
    have hs := hfresh s (List.mem_cons_self s rest)
    obtain ⟨hsr, hrest⟩ := List.nodup_cons.mp hadd
    refine (ih (hb.insert hs _) hrest fun y hy hy' => ?_).imp id
      fun h hl => h (hb.least_insert hl s _)
    rw [states_insertIntoDepthStateMap, if_neg hs, List.mem_append, List.mem_singleton] at hy'
    exact hy'.elim (hfresh y (List.mem_cons_of_mem s hy)) fun h => hsr (h ▸ hy)

/-- One update with added states new to the searcher and to each other keeps the buckets
exact; one that finds the current state at its recorded depth also keeps `currentMinDepth`
least. -/
theorem Exact.update (hb : b.Exact) {fuel : Nat} {actDepth : Nat → Nat} {current : Option Nat}
    {addedStates removedStates : List Nat} (hadd : addedStates.Nodup)
    (hfresh : ∀ s ∈ addedStates, s ∉ b.states) {b' : BFSSearcher}
    (h : b.update fuel actDepth current addedStates removedStates = some b') : b'.Exact ∧
      ((∀ c d, current = some c → b.depthMap.get? c = some d → actDepth c = d) →
        b.Least → b'.Least) := by
  simp only [BFSSearcher.update, Option.bind_eq_bind] at h
  -- refiling the current state at its new depth
  obtain ⟨b₁, hb₁, hs₁, hst₁, h⟩ : ∃ b₁ : BFSSearcher, b₁.Exact ∧ b₁.states = b.states ∧
      ((∀ c d, current = some c → b.depthMap.get? c = some d → actDepth c = d) → b₁ = b) ∧
      ((removedStates.foldlM (fun (b : BFSSearcher) s => b.removeFromDepthStateMap fuel s) b₁).bind fun b₂ =>
        some (addedStates.foldl (fun b s => b.insertIntoDepthStateMap s (actDepth s)) b₂)) =
        some b' := by
    split at h
    · rename_i c d hcd
      obtain ⟨c', rfl, hc'⟩ := Option.bind_eq_some.mp hcd
      obtain ⟨d', hd, hcd'⟩ := Option.map_eq_some'.mp hc'
      cases hcd'
      split_ifs at h with hne
      · obtain ⟨b₁, h₁, h⟩ := Option.bind_eq_some.mp h
        obtain ⟨b₀, h₀, rfl⟩ := Option.map_eq_some'.mp h₁
        obtain ⟨hb₀, hs₀, hc₀⟩ := hb.updateDepthStateMap hd h₀
        refine ⟨{ b₀ with depthMap := b₀.depthMap.set c (actDepth c) }, hb₀.congr rfl ?_ rfl rfl, hs₀,
          fun hst => absurd (hst c d rfl hd).symm hne, h⟩
        funext k
        rw [get?_set]
        split_ifs with hk
        · rw [hk, hc₀]
        · rfl
      · exact ⟨b, hb, rfl, fun _ => rfl, h⟩
    · exact ⟨b, hb, rfl, fun _ => rfl, h⟩
  obtain ⟨b₂, h₂, h₃⟩ := Option.bind_eq_some.mp h
  obtain ⟨hb₂, hs₂, hl₂⟩ := hb₁.removeAll h₂
  cases h₃
  obtain ⟨hb₃, hl₃⟩ := hb₂.insertAll actDepth hadd fun s hs hs' => hfresh s hs (hs₁ ▸ hs₂ s hs')
  exact ⟨hb₃, fun hst hl => hl₃ (hl₂ (hst₁ hst ▸ hl))⟩

/-! ## Runs -/

/-- The searchers the interface builds from the empty one: `update` with added states new to
the searcher and to each other, and `atleast2states` on a non-empty searcher (`selectState`
and `getState2Offload` change nothing). In a run with `moves = false` no update finds the
current state at a depth other than its recorded one. -/
inductive Reachable (moves : Bool) : BFSSearcher → Prop
  | init : Reachable moves {}
  | update {b b' : BFSSearcher} {fuel : Nat} {actDepth : Nat → Nat} {current : Option Nat}
      {addedStates removedStates : List Nat} : Reachable moves b → addedStates.Nodup →
      (∀ s ∈ addedStates, s ∉ b.states) →
      (moves = false → ∀ c d, current = some c → b.depthMap.get? c = some d → actDepth c = d) →
      b.update fuel actDepth current addedStates removedStates = some b' → Reachable moves b'
  | atleast2states {b : BFSSearcher} : Reachable moves b → b.states ≠ [] →
      Reachable moves b.atleast2states.1

/-- Every reachable searcher has exact buckets; in a run that refiles no state,
`currentMinDepth` is also the least populated depth. -/
theorem Reachable.inv {moves : Bool} (h : Reachable moves b) :
    b.Exact ∧ (moves = false → b.Inv) := by
  induction h with
  | init => exact ⟨Exact.init, fun _ => ⟨Exact.init, fun d hd => by simp at hd⟩⟩
  | update _ hadd hfresh hst hupd ih =>
    obtain ⟨hb', hl'⟩ := ih.1.update hadd hfresh hupd
    exact ⟨hb', fun hm => ⟨hb', hl' (hst hm) (ih.2 hm).least⟩⟩
  | atleast2states _ hne ih => rw [ih.1.atleast2states hne]; exact ih

end BFSSearcher

end PChop
