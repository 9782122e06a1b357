import PChop.PrefixTree

/-!
# Longest-prefix queries of the prefix tree

The paths a prefix tree `holds` are read the way `addToTree` and `getPathToResume` walk: `0`
goes to the left child and any other character to the right one. Over `01`:

* adding a path makes the tree hold exactly its prefixes besides what it held
  (`holds_addToTree`), so the tree built by a sequence of insertions holds the prefixes of
  the inserted paths (`holds_foldl_addToTree`);
* `getPathToResume` returns the longest prefix of its query that the tree holds
  (`getPathToResume_spec`).

Together they answer a query with the longest prefix of the query that is a prefix of an
inserted path (`getPathToResume_longest`).
-/

namespace PChop

namespace PrefixTree

/-- A path over `01`, the alphabet of canonical histories. -/
def Bits (w : List Char) : Prop := ∀ c ∈ w, c = '0' ∨ c = '1'

instance (w : List Char) : Decidable (Bits w) := inferInstanceAs (Decidable (∀ c ∈ w, _))

/-- The child a character leads to. -/
def child : PrefixTree → Char → Option PrefixTree
  | node l r, c => if c = '0' then l else r

/-- The tree has a node at the end of the path. -/
def holds : PrefixTree → List Char → Bool
  | _, [] => true
  | t, c :: cs =>
    match t.child c with
    | some t' => holds t' cs
    | none => false

theorem Bits.cons {c : Char} {w : List Char} (h : Bits (c :: w)) : c = '0' ∨ c = '1' :=
  h c (List.mem_cons_self c w)

theorem Bits.tail {c : Char} {w : List Char} (h : Bits (c :: w)) : Bits w :=
  fun d hd => h d (List.mem_cons_of_mem c hd)

theorem Bits.of_prefix {w p : List Char} (h : Bits p) (hw : w <+: p) : Bits w :=
  fun c hc => h c (hw.subset hc)

@[simp] theorem holds_nil (t : PrefixTree) : t.holds [] = true := by
  cases t; rfl

theorem holds_cons (t : PrefixTree) (c : Char) (cs : List Char) :
    t.holds (c :: cs) = ((t.child c).map (holds · cs)).getD false := by
  cases t; simp only [holds]; split <;> simp_all

theorem holds_empty {w : List Char} : empty.holds w = true ↔ w = [] := by
  cases w <;> simp [holds, empty, child]

/-- Two characters over `01` lead to the same child exactly when they are equal. -/
theorem same_side {c d : Char} (hc : c = '0' ∨ c = '1') (hd : d = '0' ∨ d = '1') :
    (d = '0' ↔ c = '0') ↔ d = c := by
  rcases hc with rfl | rfl <;> rcases hd with rfl | rfl <;> decide

/-- The children of the root after an insertion: the side of the path's first character gets
the insertion of the rest. -/
theorem child_addToTree (t : PrefixTree) (c : Char) (cs : List Char) (d : Char) :
    (t.addToTree (c :: cs)).child d =
      if (d = '0' ↔ c = '0') then some (((t.child c).getD empty).addToTree cs) else t.child d := by
  cases t with
  | node l r => by_cases hc : c = '0' <;> by_cases hd : d = '0' <;> simp [addToTree, child, hc, hd]

/-! ## Insertion -/

/-- Over `01`, adding a path makes the tree hold, besides its paths, the prefixes of the
added path. -/
theorem holds_addToTree (t : PrefixTree) {p w : List Char} (hp : Bits p) (hw : Bits w) :
    (t.addToTree p).holds w = true ↔ t.holds w = true ∨ w <+: p := by
  induction p generalizing t w with
  | nil => cases w <;> simp [addToTree, holds_cons]
  | cons c cs ih =>
    cases w with
    | nil => simp
    | cons d ds =>
      have hside := same_side hp.cons hw.cons
      rw [holds_cons, child_addToTree, List.cons_prefix_cons]
      by_cases hdc : d = c
      · subst hdc
        rw [if_pos Iff.rfl, Option.map_some', Option.getD_some, ih _ hp.tail hw.tail, holds_cons]
        cases t.child d with
        | none =>
          simp only [holds_empty, Option.getD_none, Option.map_none', Bool.false_eq_true, true_and,
            false_or, or_iff_right_iff_imp]
          rintro rfl; exact List.nil_prefix
        | some t' => simp
      · rw [if_neg fun h => hdc (hside.mp h), holds_cons]
        simp [hdc]

/-- The tree built by a sequence of insertions holds its own paths and the prefixes of the
inserted paths. -/
theorem holds_foldl_addToTree (ps : List (List Char)) (hps : ∀ p ∈ ps, Bits p) :
    ∀ (t : PrefixTree) (w : List Char), Bits w →
      ((ps.foldl addToTree t).holds w = true ↔ t.holds w = true ∨ ∃ p ∈ ps, w <+: p) := by
  induction ps with
  | nil => simp
  | cons p ps ih =>
    intro t w hw
    rw [List.foldl_cons, ih (fun q hq => hps q (List.mem_cons_of_mem p hq)) _ _ hw,
      holds_addToTree t (hps p (List.mem_cons_self p ps)) hw]
    simp only [List.mem_cons, exists_eq_or_imp]
    tauto

/-! ## Queries -/

theorem getPathToResume_cons (t : PrefixTree) (c : Char) (cs : List Char) :
    t.getPathToResume (c :: cs) =
      match t.child c with
      | some t' => (if c = '0' then '0' else '1') :: t'.getPathToResume cs
      | none => [] := by
  cases t with
  | node l r =>
    by_cases hc : c = '0' <;> cases l <;> cases r <;> simp [getPathToResume, child, hc]

@[simp] theorem getPathToResume_nil (t : PrefixTree) : t.getPathToResume [] = [] := by
  cases t; rfl

/-- Over `01`, `getPathToResume` follows its query as far as the tree holds it: the answer is
a prefix of the query, the tree holds it, and every prefix of the query the tree holds is no
longer. -/
theorem getPathToResume_spec (t : PrefixTree) {q : List Char} (hq : Bits q) :
    t.getPathToResume q <+: q ∧ t.holds (t.getPathToResume q) = true ∧
      ∀ w, w <+: q → t.holds w = true → w.length ≤ (t.getPathToResume q).length := by
  induction q generalizing t with
  | nil =>
    refine ⟨by simp, by simp, fun w hw _ => ?_⟩
    rw [List.prefix_nil.mp hw]; exact Nat.zero_le _
  | cons c cs ih =>
    have hc : (if c = '0' then '0' else '1') = c := by rcases hq.cons with rfl | rfl <;> rfl
    rw [getPathToResume_cons]
    cases hch : t.child c with
    | none =>
      refine ⟨List.nil_prefix, holds_nil t, fun w hw hhw => ?_⟩
      cases w with
      | nil => exact Nat.le_refl 0
      | cons d ds =>
        obtain ⟨rfl, -⟩ := List.cons_prefix_cons.mp hw
        simp [holds_cons, hch] at hhw
    | some t' =>
      obtain ⟨hpre, hhold, hmax⟩ := ih t' hq.tail
      simp only [hc]
      refine ⟨List.cons_prefix_cons.mpr ⟨rfl, hpre⟩, ?_, fun w hw hhw => ?_⟩
      · rw [holds_cons, hch]; exact hhold
      · cases w with
        | nil => exact Nat.zero_le _
        | cons d ds =>
          obtain ⟨rfl, hds⟩ := List.cons_prefix_cons.mp hw
          rw [holds_cons, hch] at hhw
          exact Nat.succ_le_succ (hmax ds hds hhw)

/-- A query over `01` of the tree built by inserting paths over `01` from an empty tree is
answered with the longest prefix of the query that is a prefix of an inserted path: the empty
path when none is inserted or none starts like the query. -/
theorem getPathToResume_longest (ps : List (List Char)) (q : List Char)
    (hps : ∀ p ∈ ps, Bits p) (hq : Bits q) :
    (ps.foldl addToTree empty).getPathToResume q <+: q ∧
      ((ps.foldl addToTree empty).getPathToResume q = [] ∨
        ∃ p ∈ ps, (ps.foldl addToTree empty).getPathToResume q <+: p) ∧
      ∀ w, w <+: q → (∃ p ∈ ps, w <+: p) →
        w.length ≤ ((ps.foldl addToTree empty).getPathToResume q).length := by
  have hholds := holds_foldl_addToTree ps hps empty
  obtain ⟨hpre, hhold, hmax⟩ := getPathToResume_spec (ps.foldl addToTree empty) hq
  refine ⟨hpre, ?_, fun w hw hwp => hmax w hw ((hholds w (hq.of_prefix hw)).mpr (Or.inr hwp))⟩
  rcases (hholds _ (hq.of_prefix hpre)).mp hhold with h | h
  · exact Or.inl (holds_empty.mp h)
  · exact Or.inr h

/-- The paths `01` and `1` answer the query `00` with `0`. -/
theorem getPathToResume_longest_two :
    (∀ p ∈ [['0', '1'], ['1']], Bits p) ∧ Bits ['0', '0'] ∧
      (([['0', '1'], ['1']].foldl addToTree empty).getPathToResume ['0', '0'] <+: ['0', '0'] ∧
      ((([['0', '1'], ['1']].foldl addToTree empty).getPathToResume ['0', '0'] = [] ∨
        ∃ p ∈ [['0', '1'], ['1']],
          ([['0', '1'], ['1']].foldl addToTree empty).getPathToResume ['0', '0'] <+: p) ∧
      ∀ w, w <+: ['0', '0'] → (∃ p ∈ [['0', '1'], ['1']], w <+: p) →
        w.length ≤ (([['0', '1'], ['1']].foldl addToTree empty).getPathToResume ['0', '0']).length)) :=
  ⟨by decide, by decide, getPathToResume_longest _ _ (by decide) (by decide)⟩

example : ([['0', '1'], ['1']].foldl addToTree empty).getPathToResume ['0', '0'] = ['0'] := rfl

end PrefixTree

end PChop
