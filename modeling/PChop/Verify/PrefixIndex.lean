import PChop.Verify.Messages
import PChop.Verify.PrefixQuery
import PChop.Verify.Searcher
import PChop.Verify.RecoveryChains

/-!
# The index of parked states

A worker that offloads a state keeps it suspended and indexes it by its canonical history
(`indexSuspended`): the path joins the prefix tree and, unless the key is taken, the pair of
path and state joins `prefixSuspendedStatesMap`. A later `START_PREFIX_TASK` looks each of its
prefixes up (`resumePrefix`): `getPathToResume` follows the canonical path of the prefix down
the tree, and the state the map holds under the path found is resumed.

Over every run the index is consistent (`IndexOK`, `Reachable.indexOK`): every key of the map
is a path of the tree, and no key is taken twice. Only `indexSuspended` and `startPrefixTask`
write the index (the frames `Executor.fixed` and `Executor.KeepsIndex`), and a path added to
the tree stays in it (`PrefixTree.holds_addToTree_of_holds`). So the lookup inverts the
insertion (**`startPrefixTask_resumes_parked`**): a prefix task whose prefixes are over `01` and
lead, by the longest part of their paths the tree holds, to parked keys is handled without a
failed assertion and resumes every state parked under those keys.

Until then the worker leaves a state it has shipped alone (**`offloaded_not_explored`**): the
invariant of the run loop (`Reachable.inv`) keeps every state waiting to be indexed or parked in
the index alive and out of `states`, and so out of the searcher.
-/

namespace PChop

namespace PrefixTree

/-- Two characters on the same side lead to the same child. -/
theorem child_eq_of_side (t : PrefixTree) {c d : Char} (h : d = '0' ↔ c = '0') :
    t.child d = t.child c := by
  cases t; simp only [child, h]

/-- Adding a path only adds nodes: the tree still holds every path it held. -/
theorem holds_addToTree_of_holds : ∀ (t : PrefixTree) (p w : List Char), t.holds w = true →
    (t.addToTree p).holds w = true
  | t, [], _, h => by cases t; exact h
  | _, _ :: _, [], _ => holds_nil _
  | t, c :: cs, d :: ds, h => by
    rw [holds_cons] at h ⊢
    rw [child_addToTree]
    split
    · rename_i hside
      rw [t.child_eq_of_side hside] at h
      cases hc : t.child c with
      | none => simp [hc] at h
      | some t' =>
        simp only [hc, Option.map_some', Option.getD_some] at h ⊢
        exact holds_addToTree_of_holds t' cs ds h
    · exact h

/-- The tree holds the path just added. -/
theorem holds_addToTree_self : ∀ (t : PrefixTree) (p : List Char), (t.addToTree p).holds p = true
  | _, [] => holds_nil _
  | t, c :: cs => by
    rw [holds_cons, child_addToTree, if_pos Iff.rfl, Option.map_some', Option.getD_some]
    exact holds_addToTree_self _ cs

/-- A query over `01` is answered with the longest of its prefixes the tree holds. -/
theorem getPathToResume_eq_of_longest {t : PrefixTree} {q k : List Char} (hq : Bits q)
    (hk : k <+: q) (hhold : t.holds k = true)
    (hmax : ∀ w, w <+: q → t.holds w = true → w.length ≤ k.length) : t.getPathToResume q = k := by
  obtain ⟨hpre, hg, hgmax⟩ := t.getPathToResume_spec hq
  have hle : (t.getPathToResume q).length ≤ k.length := hmax _ hpre hg
  exact (List.prefix_of_prefix_length_le hpre hk hle).eq_of_length
    (Nat.le_antisymm hle (hgmax k hk hhold))

end PrefixTree

/-- The index of the parked states is consistent: every key of `prefixSuspendedStatesMap` is a
path of the prefix tree, and no key is taken twice. -/
def IndexOK (e : Executor) : Prop :=
  (∀ k id, (k, id) ∈ e.prefixSuspendedStatesMap → e.prefixTree.holds k = true) ∧
    (e.prefixSuspendedStatesMap.map Prod.fst).Nodup

namespace IndexOK

variable {e e' : Executor}

theorem keepsIndex (hi : IndexOK e) (hk : Executor.KeepsIndex e e') : IndexOK e' := by
  unfold IndexOK
  rw [hk.map, hk.tree]
  exact hi

/-- Indexing a state under a path: the path joins the tree, and the pair joins the map unless
the key is taken. -/
theorem index (hi : IndexOK e) (path : List Char) (id : Nat) :
    IndexOK { e with
      prefixSuspendedStatesMap :=
        if e.prefixSuspendedStatesMap.any (·.1 = path) then e.prefixSuspendedStatesMap
        else e.prefixSuspendedStatesMap ++ [(path, id)],
      prefixTree := e.prefixTree.addToTree path } := by
  have hold : ∀ k j, (k, j) ∈ e.prefixSuspendedStatesMap →
      (e.prefixTree.addToTree path).holds k = true :=
    fun k j h => PrefixTree.holds_addToTree_of_holds _ _ _ (hi.1 k j h)
  split_ifs with htaken
  · exact ⟨hold, hi.2⟩
  · refine ⟨fun k j h => ?_, ?_⟩
    · rcases List.mem_append.mp h with h | h
      · exact hold k j h
      · obtain ⟨rfl, -⟩ := Prod.mk.inj (List.mem_singleton.mp h)
        exact PrefixTree.holds_addToTree_self _ _
    · rw [List.map_append, List.nodup_append]
      refine ⟨hi.2, List.nodup_singleton _, fun a ha hb => ?_⟩
      obtain ⟨x, hx, rfl⟩ := List.mem_map.mp ha
      exact htaken (List.any_eq_true.mpr ⟨x, hx, decide_eq_true (List.mem_singleton.mp hb)⟩)

theorem indexSuspended (hi : IndexOK e) (id : Nat) : IndexOK (e.indexSuspended id) := by
  unfold Executor.indexSuspended
  exact (hi.keepsIndex (.of_fixed (Executor.fixed_modifyState e id _))).index _ id

theorem foldl_indexSuspended : ∀ (l : List Nat) {e : Executor}, IndexOK e →
    IndexOK (l.foldl Executor.indexSuspended e)
  | [], _, hi => hi
  | id :: l, _, hi => foldl_indexSuspended l (hi.indexSuspended id)

theorem updateStates {incoming : Option Tag} {r : Executor × List Message}
    (h : e.updateStates incoming = some r) (hi : IndexOK e) : IndexOK r.1 := by
  simp only [Executor.updateStates, Option.bind_eq_bind', Option.bind_eq_some] at h
  obtain ⟨_, -, _, -, _, -, e₄, h₄, h⟩ := h
  have hi₄ : IndexOK e₄ :=
    foldlM_invariant IndexOK
      (fun _ _ _ h hp => hp.keepsIndex (.of_fixed (Executor.fixed_removeState h))) _ _ _ h₄
      (foldl_indexSuspended _ hi)
  split at h
  · exact IndexOK.keepsIndex (e := { e₄ with removedStates := [] }) hi₄
      (Executor.newCheck2Offload_readiness h).1
  · cases h; exact hi₄

/-- A turn keeps the index consistent. -/
theorem runStep {instr : Instr} {mbs : Nat} {picks : List Nat} {incoming : Option Tag}
    {r : Executor × List Message} (h : e.runStep instr mbs picks incoming = some r)
    (hi : IndexOK e) : IndexOK r.1 := by
  rcases Executor.runStep_cases h with rfl | ⟨_, _, rfl⟩ | ⟨_, e₁, sent₁, e₂, sent₂, _, h₁, h₂, rfl⟩
  · exact hi
  · exact hi
  have hi₁ : IndexOK e₁ :=
    IndexOK.keepsIndex (e := e.stepInstruction) hi (Executor.keeps_executeInstruction h₁)
  have hi₂ : IndexOK e₂ :=
    (hi₁.keepsIndex (.of_fixed (Executor.fixed_checkMemoryUsage _ _ _))).updateStates h₂
  have hi₃ : IndexOK e₂.updateOffloadReadiness.1 := by
    unfold Executor.updateOffloadReadiness; split_ifs <;> exact hi₂
  exact hi₃

/-- A prefix task keeps the index consistent: its loop leaves the index alone, and the entries
of the resumed paths leave the map. -/
theorem startPrefixTask {msg : List Char} (h : e.startPrefixTask msg = some e')
    (hi : IndexOK e) : IndexOK e' := by
  simp only [Executor.startPrefixTask] at h
  obtain ⟨⟨e₁, resumed⟩, h₁, h⟩ := Option.bind_eq_some.mp h
  obtain ⟨_, -, h⟩ := Option.bind_eq_some.mp h
  cases h
  have hi₁ : IndexOK e₁ :=
    IndexOK.keepsIndex (e := { e with upperBound := msg, prefixDepth := msg.length }) hi
      (.of_fixed (Executor.fixed_foldlM_resumePrefix h₁))
  exact ⟨fun k j hm => hi₁.1 k j (List.mem_of_mem_filter hm),
    hi₁.2.sublist ((List.filter_sublist _).map _)⟩

end IndexOK

theorem Node.next_indexOK {n n' : Node} {ev : Event} (h : n.next ev = some n')
    (hi : IndexOK n.e) : IndexOK n'.e := by
  cases ev with
  | step instr mbs picks incoming =>
    obtain ⟨-, msgs, hr, -⟩ := Node.next_step_cases h
    exact hi.runStep hr
  | finish reply =>
    simp only [Node.next] at h
    split at h
    · cases h
    split at h
    · cases h; exact hi
    split at h
    · cases h; exact hi
    · obtain ⟨e', he', rfl⟩ := Option.map_eq_some'.mp h
      exact hi.startPrefixTask he'
    · cases h; exact hi
  | stop => rw [(Node.next_stop_eq h).1]; exact hi

theorem Reachable.indexOK {opts : Options} {upperBound : List Char} {prefixDepth : Nat}
    {n : Node} (h : Reachable (Node.init opts upperBound prefixDepth) n) : IndexOK n.e := by
  induction h with
  | init => exact ⟨fun _ _ h => absurd h (List.not_mem_nil _), List.nodup_nil⟩
  | step ev _ hn ih => exact Node.next_indexOK hn ih

/-! ## Lookup -/

variable {e : Executor}

/-- The state parked under a key of a consistent index is the one the map's lookup of the key
finds. -/
theorem find?_parked (hi : IndexOK e) {k : List Char} {id : Nat}
    (hk : (k, id) ∈ e.prefixSuspendedStatesMap) :
    e.prefixSuspendedStatesMap.find? (·.1 = k) = some (k, id) := by
  cases hf : e.prefixSuspendedStatesMap.find? (·.1 = k) with
  | none => exact absurd (List.find?_eq_none.mp hf _ hk) (by simp)
  | some x =>
    have hxk : x.1 = k := by simpa using List.find?_some hf
    rw [List.inj_on_of_nodup_map hi.2 (List.mem_of_find?_eq_some hf) hk hxk]

/-- `k` is the longest part of the canonical path of the prefix `p` that the prefix tree
holds. -/
def LongestHeld (e : Executor) (p k : List Char) : Prop :=
  k <+: canonicalPath p ∧
    ∀ w, w <+: canonicalPath p → e.prefixTree.holds w = true → w.length ≤ k.length

/-- A prefix over `01` whose longest part the tree holds is a parked key resumes the state
parked under it. -/
theorem resumePrefix_parked (hi : IndexOK e) {k : List Char} {id : Nat}
    (hk : (k, id) ∈ e.prefixSuspendedStatesMap) {recvP : List Char}
    (hb : PrefixTree.Bits (canonicalPath recvP)) (hl : LongestHeld e recvP k)
    (resumed : List (Nat × List Char)) :
    Executor.resumePrefix (e, resumed) recvP = some (e.modifyState id (·.addPrefix recvP recvP.length),
      if resumed.any (·.1 = id) then resumed else resumed ++ [(id, k)]) := by
  have hpath : e.prefixTree.getPathToResume (canonicalPath recvP) = k :=
    PrefixTree.getPathToResume_eq_of_longest hb hl.1 (hi.1 k id hk) hl.2
  simp only [Executor.resumePrefix, hpath, find?_parked hi hk]
  rfl

/-- The key the tree answers for a prefix is unique: two parked keys that are both the longest
held part of the prefix's canonical path are one, with one state. -/
theorem LongestHeld.unique (hi : IndexOK e) {p k k₁ : List Char} {id id₁ : Nat}
    (hb : PrefixTree.Bits (canonicalPath p)) (hk : (k, id) ∈ e.prefixSuspendedStatesMap)
    (hl : LongestHeld e p k) (hk₁ : (k₁, id₁) ∈ e.prefixSuspendedStatesMap)
    (hl₁ : LongestHeld e p k₁) : id₁ = id := by
  have hkk : k₁ = k :=
    (PrefixTree.getPathToResume_eq_of_longest hb hl₁.1 (hi.1 k₁ id₁ hk₁) hl₁.2).symm.trans
      (PrefixTree.getPathToResume_eq_of_longest hb hl.1 (hi.1 k id hk) hl.2)
  subst hkk
  exact congrArg Prod.snd (List.inj_on_of_nodup_map hi.2 hk₁ hk rfl)

/-- The loop of a prefix task whose prefixes are all over `01` and lead, by the longest part of
their paths the tree holds, to parked keys runs through: it keeps the index, keeps the states
already resumed, and resumes every state parked under such a key. -/
theorem foldlM_resumePrefix_parked (hi : IndexOK e) :
    ∀ (ps : List (List Char)) (acc : Executor × List (Nat × List Char)), acc.1.fixed = e.fixed →
      (∀ p ∈ ps, PrefixTree.Bits (canonicalPath p) ∧
        ∃ k id, (k, id) ∈ e.prefixSuspendedStatesMap ∧ LongestHeld e p k) →
      ∃ acc', ps.foldlM Executor.resumePrefix acc = some acc' ∧ acc'.1.fixed = e.fixed ∧
        (∀ id ∈ acc.2.map Prod.fst, id ∈ acc'.2.map Prod.fst) ∧
        ∀ p ∈ ps, ∀ k id, (k, id) ∈ e.prefixSuspendedStatesMap → LongestHeld e p k →
          id ∈ acc'.2.map Prod.fst
  | [], acc, hacc, _ => ⟨acc, rfl, hacc, fun _ h => h, fun _ h => absurd h (List.not_mem_nil _)⟩
  | p :: ps, ⟨e₁, resumed⟩, hacc, hps => by
    obtain ⟨hb, k, id, hk, hl⟩ := hps p (List.mem_cons_self p ps)
    have hk₁ := Executor.KeepsIndex.of_fixed hacc
    have hl₁ : LongestHeld e₁ p k := by unfold LongestHeld; rw [hk₁.tree]; exact hl
    have hstep := resumePrefix_parked (hi.keepsIndex hk₁) (hk₁.map ▸ hk) hb hl₁ resumed
    -- the state parked under `p` is among the resumed ones after the step
    have hres : ∀ j ∈ resumed.map Prod.fst, j ∈ (if resumed.any (·.1 = id) then resumed
        else resumed ++ [(id, k)]).map Prod.fst := by
      intro j hj; split <;> simp [hj]
    have hid : id ∈ (if resumed.any (·.1 = id) then resumed
        else resumed ++ [(id, k)]).map Prod.fst := by
      split
      · rename_i hany
        obtain ⟨x, hx, hxid⟩ := List.any_eq_true.mp hany
        exact List.mem_map.mpr ⟨x, hx, of_decide_eq_true hxid⟩
      · simp
    obtain ⟨acc', hfold, hacc', hkeep, hall⟩ := foldlM_resumePrefix_parked hi ps
      (e₁.modifyState id (·.addPrefix p p.length), if resumed.any (·.1 = id) then resumed
        else resumed ++ [(id, k)])
      ((Executor.fixed_modifyState e₁ id _).trans hacc)
      fun q hq => hps q (List.mem_cons_of_mem p hq)
    refine ⟨acc', by rw [List.foldlM_cons, hstep]; exact hfold, hacc',
      fun j hj => hkeep j (hres j hj), fun q hq k₂ j hj hlj => ?_⟩
    rcases List.mem_cons.mp hq with rfl | hq
    · rw [LongestHeld.unique hi hb hk hl hj hlj]
      exact hkeep id hid
    · exact hall q hq k₂ j hj hlj

/-- A parked state is found again: in every reachable configuration, a `START_PREFIX_TASK`
whose prefixes are all over `01` and lead, by the longest part of their paths the prefix tree
holds, to parked keys is handled without a failed assertion, and every state parked under such
a key is resumed: it joins `states` and the searcher. A prefix whose path is itself a parked
key is the case where that longest part is the whole path. -/
theorem startPrefixTask_resumes_parked {opts : Options} {upperBound : List Char}
    {prefixDepth : Nat} {n : Node} {msg : List Char}
    (h : Reachable (Node.init opts upperBound prefixDepth) n)
    (hps : ∀ p ∈ decodeStartPrefixTask msg, PrefixTree.Bits (canonicalPath p) ∧
      ∃ k id, (k, id) ∈ n.e.prefixSuspendedStatesMap ∧ k <+: canonicalPath p ∧
        ∀ w, w <+: canonicalPath p → n.e.prefixTree.holds w = true → w.length ≤ k.length) :
    ∃ e', n.e.startPrefixTask msg = some e' ∧
      ∀ p ∈ decodeStartPrefixTask msg, ∀ k id, (k, id) ∈ n.e.prefixSuspendedStatesMap →
        k <+: canonicalPath p →
        (∀ w, w <+: canonicalPath p → n.e.prefixTree.holds w = true → w.length ≤ k.length) →
        id ∈ e'.states ∧ id ∈ e'.searcher := by
  obtain ⟨⟨e₁, resumed⟩, hfold, -, -, hall⟩ := foldlM_resumePrefix_parked h.indexOK _
    ({ n.e with upperBound := msg, prefixDepth := msg.length }, []) rfl hps
  refine ⟨_, by simp only [Executor.startPrefixTask, hfold]; rfl, fun p hp k id hk hkq hmax => ?_⟩
  have hst : id ∈ (resumed.map Prod.fst).foldl insertState e₁.states :=
    (mem_foldl_insertState _ _ _).mpr (.inr (hall p hp k id hk ⟨hkq, hmax⟩))
  exact ⟨hst, List.mem_append_right _ hst⟩

/-- Where `offloadTrace` ends: the worker still runs, with the offloaded states `2` and `3`
parked under `00` and `010`, and the prefix tree does not hold `001`. -/
theorem offloadTrace_parks : ∃ n, Reachable (Node.init offloadWorker ['2'] 1) n ∧
    n.e.haltExecution = false ∧
    n.e.prefixSuspendedStatesMap = [(['0', '0'], 2), (['0', '1', '0'], 3)] ∧
    n.e.prefixTree.holds ['0', '0', '1'] = false := by
  obtain ⟨n, hn⟩ : ∃ n, (Node.init offloadWorker ['2'] 1).run offloadTrace = some n := ⟨_, rfl⟩
  have hn' := Option.some.inj (hn.symm.trans rfl)
  exact ⟨n, (Reachable.init : Reachable (Node.init offloadWorker ['2'] 1) _).run offloadTrace hn,
    by rw [hn']; rfl, by rw [hn']; rfl, by rw [hn']; rfl⟩

/-- The prefix task `0-01-10` resumes both states of `offloadTrace`: the path `001` leads to
`00`, the longest part of it the tree holds, and `010` is parked itself. -/
theorem startPrefixTask_resumes_parked_offloadTrace :
    ∃ n, Reachable (Node.init offloadWorker ['2'] 1) n ∧
      n.e.prefixSuspendedStatesMap = [(['0', '0'], 2), (['0', '1', '0'], 3)] ∧
      ∃ e', n.e.startPrefixTask ['0', '-', '0', '1', '-', '1', '0'] = some e' ∧
        ∀ p ∈ decodeStartPrefixTask ['0', '-', '0', '1', '-', '1', '0'], ∀ k id,
          (k, id) ∈ n.e.prefixSuspendedStatesMap → k <+: canonicalPath p →
          (∀ w, w <+: canonicalPath p → n.e.prefixTree.holds w = true → w.length ≤ k.length) →
          id ∈ e'.states ∧ id ∈ e'.searcher := by
  obtain ⟨n, h, -, hmap, h001⟩ := offloadTrace_parks
  have hdec : decodeStartPrefixTask ['0', '-', '0', '1', '-', '1', '0'] =
      [['0', '0', '1'], ['0', '1', '0']] := rfl
  refine ⟨n, h, hmap, startPrefixTask_resumes_parked h fun p hp => ?_⟩
  rw [hdec, List.mem_cons, List.mem_singleton] at hp
  rw [hmap]
  rcases hp with rfl | rfl
  · refine ⟨by decide, ['0', '0'], 2, by decide, by decide, fun w hw hhold => ?_⟩
    have hq : canonicalPath ['0', '0', '1'] = ['0', '0', '1'] := rfl
    rw [hq] at hw
    by_contra hlt
    rw [hw.eq_of_length (by have := hw.length_le; simp at this hlt ⊢; omega), h001] at hhold
    cases hhold
  · exact ⟨by decide, ['0', '1', '0'], 3, by decide, by decide, fun w hw _ => hw.length_le⟩

/-- The worker does not explore a state it has shipped to the master: in every reachable
configuration of a running node, a state waiting in `rangingSuspendedStates` or parked in
`prefixSuspendedStatesMap` still has its state in the heap, and is neither in `states` nor in
the searcher, so no turn selects it. -/
theorem offloaded_not_explored {opts : Options} {upperBound : List Char} {prefixDepth : Nat}
    {n : Node} (h : Reachable (Node.init opts upperBound prefixDepth) n)
    (hh : n.e.haltExecution = false) {j : Nat}
    (hj : j ∈ n.e.rangingSuspendedStates ∨ j ∈ n.e.prefixSuspendedStatesMap.map Prod.snd) :
    (∃ s, n.e.heap j = some s) ∧ j ∉ n.e.states ∧ j ∉ n.e.searcher := by
  have hi := h.inv
  rw [hh] at hi
  obtain ⟨⟨L, hL, -⟩, hns⟩ := hi.pending j (List.mem_append.mpr hj)
  obtain ⟨s, hs, -⟩ := Option.map_eq_some'.mp hL
  exact ⟨⟨s, hs⟩, hns, fun hv => hns ((hi.sched.resolve_left Bool.false_ne_true).2 j hv).1⟩

/-- After `offloadTrace` the worker's offloaded states `2` and `3` are parked, alive and out of
its `states` and its searcher. -/
theorem offloaded_not_explored_offloadTrace :
    ∃ n, Reachable (Node.init offloadWorker ['2'] 1) n ∧ n.e.haltExecution = false ∧
      n.e.prefixSuspendedStatesMap.map Prod.snd = [2, 3] ∧
      ((∃ s, n.e.heap 2 = some s) ∧ 2 ∉ n.e.states ∧ 2 ∉ n.e.searcher) := by
  obtain ⟨n, h, hh, hmap, -⟩ := offloadTrace_parks
  have hids : n.e.prefixSuspendedStatesMap.map Prod.snd = [2, 3] := by rw [hmap]; rfl
  exact ⟨n, h, hh, hids, offloaded_not_explored h hh (.inr (by rw [hids]; decide))⟩

end PChop
