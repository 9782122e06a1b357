import PChop.Executor.Basic

/-!
# The DFS searcher and the set of states

`dfsUpdate` on a searcher without duplicates appends the added states and removes each removed
state once: the result holds exactly the states of the searcher and the added states that are
not removed, once each (`dfsUpdate_spec`). `insertState` is the insertion into the sorted set
`states`.
-/

namespace PChop

/-- Popping the last element of a list without duplicates erases it. -/
theorem dropLast_eq_erase {l : List Nat} {a : Nat} (hnd : l.Nodup) (h : l.getLast? = some a) :
    l.dropLast = l.erase a := by
  obtain ⟨l', rfl⟩ := List.getLast?_eq_some_iff.mp h
  have ha : a ∉ l' := fun h' => (List.nodup_append.mp hnd).2.2 h' (List.mem_singleton_self a)
  rw [List.dropLast_concat, List.erase_append_right _ ha, List.erase_cons_head, List.append_nil]

/-- One removal of `DFSSearcher::update` from a searcher without duplicates: the state was
in the searcher, and is erased. -/
theorem dfsUpdate_step {v v' : List Nat} {es : Nat} (hnd : v.Nodup)
    (h : (if v.getLast? = some es then some v.dropLast
      else if es ∈ v then some (v.erase es) else none) = some v') :
    es ∈ v ∧ v' = v.erase es := by
  split at h
  · cases h
    obtain ⟨l', hl⟩ := List.getLast?_eq_some_iff.mp ‹_›
    exact ⟨hl ▸ List.mem_append_right _ (List.mem_singleton_self es), dropLast_eq_erase hnd ‹_›⟩
  · split at h
    · cases h; exact ⟨‹_›, rfl⟩
    · cases h

/-- `dfsUpdate` from a searcher and added states without duplicates: no duplicates, and
exactly the states that are not removed. -/
theorem dfsUpdate_spec {v added removed v' : List Nat} (h : dfsUpdate v added removed = some v')
    (hnd : (v ++ added).Nodup) : v'.Nodup ∧ ∀ j, j ∈ v' ↔ j ∈ v ++ added ∧ j ∉ removed := by
  unfold dfsUpdate at h
  generalize v ++ added = w at h hnd
  induction removed generalizing w with
  | nil => cases h; simp [hnd]
  | cons es rest ih =>
    obtain ⟨w₁, h₁, h⟩ := Option.bind_eq_some.mp h
    rw [(dfsUpdate_step hnd h₁).2] at h
    obtain ⟨hnd', hmem⟩ := ih _ h (hnd.erase es)
    refine ⟨hnd', fun j => ?_⟩
    rw [hmem, hnd.mem_erase_iff, List.mem_cons, not_or]
    tauto

/-- Every state `dfsUpdate` removes was in the searcher or added. -/
theorem dfsUpdate_mem_of_removed {v added removed v' : List Nat}
    (h : dfsUpdate v added removed = some v') (hnd : (v ++ added).Nodup) :
    ∀ j ∈ removed, j ∈ v ++ added := by
  unfold dfsUpdate at h
  generalize v ++ added = w at h hnd
  induction removed generalizing w with
  | nil => intro j hj; cases hj
  | cons es rest ih =>
    obtain ⟨w₁, h₁, h⟩ := Option.bind_eq_some.mp h
    obtain ⟨hes, rfl⟩ := dfsUpdate_step hnd h₁
    rintro j (_ | ⟨_, hj⟩)
    · exact hes
    · exact List.mem_of_mem_erase (ih _ h (hnd.erase es) j hj)

/-- The loop of `updateStates` over the suspended states: each leaves the searcher. -/
theorem foldlM_dfsUpdate_remove : ∀ (l v v' : List Nat),
    l.foldlM (fun v id => dfsUpdate v [] [id]) v = some v' → v.Nodup →
      v'.Nodup ∧ ∀ j, j ∈ v' ↔ j ∈ v ∧ j ∉ l
  | [], v, v', h, hnd => by cases h; simp [hnd]
  | id :: l, v, v', h, hnd => by
    obtain ⟨v₁, h₁, h⟩ := Option.bind_eq_some.mp h
    obtain ⟨hnd₁, hmem₁⟩ := dfsUpdate_spec h₁ (by simpa using hnd)
    obtain ⟨hnd', hmem⟩ := foldlM_dfsUpdate_remove l v₁ v' h hnd₁
    refine ⟨hnd', fun j => ?_⟩
    rw [hmem, hmem₁, List.append_nil, List.mem_singleton, List.mem_cons, not_or]
    tauto

/-- The loop of `updateStates` over the resumed states appends them to the searcher. -/
theorem foldlM_dfsUpdate_add : ∀ (l v : List Nat),
    l.foldlM (fun v id => dfsUpdate v [id] []) v = some (v ++ l)
  | [], v => by simp
  | id :: l, v => by
    rw [List.foldlM_cons]
    show (some (v ++ [id])).bind _ = _
    rw [Option.some_bind, foldlM_dfsUpdate_add l, List.append_assoc, List.singleton_append]

/-- Erasing states one by one from a list without duplicates, each required to be there. -/
theorem foldlM_erase_spec : ∀ (l S S' : List Nat),
    l.foldlM (fun l id => if id ∈ l then some (l.erase id) else none) S = some S' → S.Nodup →
      S'.Nodup ∧ ∀ j, j ∈ S' ↔ j ∈ S ∧ j ∉ l
  | [], S, S', h, hnd => by cases h; simp [hnd]
  | id :: l, S, S', h, hnd => by
    obtain ⟨S₁, h₁, h⟩ := Option.bind_eq_some.mp h
    dsimp only at h₁
    split at h₁
    · cases h₁
      obtain ⟨hnd', hmem⟩ := foldlM_erase_spec l _ S' h (hnd.erase id)
      refine ⟨hnd', fun j => ?_⟩
      rw [hmem, hnd.mem_erase_iff, List.mem_cons, not_or]
      tauto
    · cases h₁

theorem mem_insertState {l : List Nat} {id j : Nat} : j ∈ insertState l id ↔ j = id ∨ j ∈ l := by
  unfold insertState
  split
  · constructor
    · exact Or.inr
    · rintro (rfl | h) <;> assumption
  · exact List.mem_orderedInsert _

theorem nodup_insertState {l : List Nat} (id : Nat) (h : l.Nodup) : (insertState l id).Nodup := by
  unfold insertState
  split
  · exact h
  · exact (List.perm_orderedInsert _ id l).nodup_iff.mpr (List.nodup_cons.mpr ⟨‹_›, h⟩)

/-- `states` after the added states are inserted. -/
theorem mem_foldl_insertState (added : List Nat) :
    ∀ (l : List Nat) (j : Nat), j ∈ added.foldl insertState l ↔ j ∈ l ∨ j ∈ added := by
  induction added with
  | nil => simp
  | cons a rest ih =>
    intro l j
    rw [List.foldl_cons, ih, mem_insertState, List.mem_cons]
    tauto

theorem nodup_foldl_insertState (added : List Nat) :
    ∀ (l : List Nat), l.Nodup → (added.foldl insertState l).Nodup := by
  induction added with
  | nil => exact fun _ h => h
  | cons a rest ih => exact fun l h => ih _ (nodup_insertState a h)

end PChop
