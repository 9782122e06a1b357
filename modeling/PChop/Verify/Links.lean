import PChop.Executor.Run

/-!
# Links between recovery states and their dependents

The fields of a state that tie a recovery state to the state whose load it recovers: the
type bits, the suspend flag, `recoveryState`, `dependentState`, `originatingState` and
`level`. `Executor.linkView` forgets every other field; most operations of the executor
leave it unchanged (the frame lemmas below and in `PChop.Verify.Skeleton`).

A recovery state `r` is `Linked` when its dependent state is a suspended normal state that
points back to `r`, its level is one more than its dependent's (`0` above a state that is not
a recovery state) and its originating state is its dependent's (the dependent itself above a
state that is not a recovery state). `LinksWF h ex` says that every recovery state is linked,
except those `ex` exempts.

`ChainEnd h x o ys` is a walk along dependent links: from `x`, through the recovery states
`ys`, each linked to the next but for its originating state, to `o`, which is not a recovery
state. In a well-formed heap every recovery state has one, of `level + 1` links, ending at its
originating state (`LinksWF.chainEnd`).
-/

namespace PChop

/-- The link fields of a state. -/
structure Links where
  type : Nat
  suspendStatus : Bool
  recoveryState : Option Nat
  dependentState : Option Nat
  originatingState : Option Nat
  level : Nat
  deriving DecidableEq

namespace Links

def isNormal (l : Links) : Bool := l.type &&& NORMAL_STATE != 0

def isRecovery (l : Links) : Bool := l.type &&& RECOVERY_STATE != 0

/-- A suspended normal state, the only kind of state that can be a dependent state. -/
def suspendedNormal (l : Links) : Bool := l.isNormal && l.suspendStatus

/-- The level of a recovery state whose dependent state has links `D`. -/
def levelAbove (D : Links) : Nat := if D.isRecovery then D.level + 1 else 0

/-- The originating state of a recovery state whose dependent state `d` has links `D`. -/
def origAbove (d : Nat) (D : Links) : Option Nat :=
  if D.isRecovery then D.originatingState else some d

/-! Updates of the pointer fields keep the type, the suspend flag and the level. -/

@[simp] theorem isRecovery_mk (D : Links) (su : Bool) (r d o : Option Nat) (l : Nat) :
    (Links.mk D.type su r d o l).isRecovery = D.isRecovery := rfl

@[simp] theorem isNormal_mk (D : Links) (su : Bool) (r d o : Option Nat) (l : Nat) :
    (Links.mk D.type su r d o l).isNormal = D.isNormal := rfl

@[simp] theorem suspendedNormal_mk (D : Links) (r d o : Option Nat) (l : Nat) :
    (Links.mk D.type D.suspendStatus r d o l).suspendedNormal = D.suspendedNormal := rfl

@[simp] theorem levelAbove_mk (D : Links) (su : Bool) (r d o : Option Nat) :
    (Links.mk D.type su r d o D.level).levelAbove = D.levelAbove := rfl

end Links

namespace ExecutionState

/-- The link fields of a state. -/
def links (s : ExecutionState) : Links :=
  ⟨s.type, s.suspendStatus, s.recoveryState, s.dependentState, s.originatingState, s.level⟩

variable (s : ExecutionState)

@[simp] theorem links_isRecovery : s.links.isRecovery = s.isRecoveryState := rfl
@[simp] theorem links_isNormal : s.links.isNormal = s.isNormalState := rfl
@[simp] theorem links_suspendStatus : s.links.suspendStatus = s.suspendStatus := rfl
@[simp] theorem links_recoveryState : s.links.recoveryState = s.recoveryState := rfl
@[simp] theorem links_dependentState : s.links.dependentState = s.dependentState := rfl
@[simp] theorem links_originatingState : s.links.originatingState = s.originatingState := rfl
@[simp] theorem links_level : s.links.level = s.level := rfl
@[simp] theorem links_suspendedNormal :
    s.links.suspendedNormal = (s.isNormalState && s.suspendStatus) := rfl

@[simp] theorem links_addConstraint (c : Expr) : (s.addConstraint c).links = s.links := by
  unfold addConstraint addGuidingConstraint; split <;> rfl

@[simp] theorem links_addGuidingConstraint (c : Expr) :
    (s.addGuidingConstraint c).links = s.links := rfl

end ExecutionState

/-- A heap of link fields. -/
abbrev LinkHeap := Nat → Option Links

namespace Executor

variable (e : Executor)

/-- The link fields of every state of the heap. -/
def linkView : LinkHeap := fun j => (e.heap j).map ExecutionState.links

theorem linkView_apply (j : Nat) : e.linkView j = (e.heap j).map ExecutionState.links := rfl

theorem linkView_setState (id : Nat) (s : ExecutionState) :
    (e.setState id s).linkView = Function.update e.linkView id (some s.links) := by
  funext j
  by_cases hj : j = id
  · subst hj; simp [linkView]
  · simp [linkView, hj]

/-- A field update whose effect on the link fields is `g`. -/
theorem linkView_modifyState_of (id : Nat) {f : ExecutionState → ExecutionState}
    (g : Links → Links) (hf : ∀ s, (f s).links = g s.links) :
    (e.modifyState id f).linkView = Function.update e.linkView id ((e.linkView id).map g) := by
  funext j
  by_cases hj : j = id
  · subst hj; cases h : e.heap j <;> simp [linkView, modifyState_heap, h, hf]
  · simp [linkView, modifyState_heap, hj]

/-- A field update that keeps the link fields keeps the link view. -/
theorem linkView_modifyState (id : Nat) {f : ExecutionState → ExecutionState}
    (hf : ∀ s, (f s).links = s.links) : (e.modifyState id f).linkView = e.linkView := by
  rw [linkView_modifyState_of e id (fun l => l) hf]
  simp

theorem linkView_newState (s : ExecutionState) :
    (e.newState s).1.linkView = Function.update e.linkView e.nextId (some s.links) := by
  funext j
  by_cases hj : j = e.nextId
  · subst hj; simp [linkView]
  · simp [linkView, hj]

theorem linkView_deleteState (id : Nat) :
    (e.deleteState id).linkView = Function.update e.linkView id none := by
  funext j
  by_cases hj : j = id
  · subst hj; simp [linkView]
  · simp [linkView, hj]

theorem linkView_splitNode (node : Nat) (a b : Nat) :
    (e.splitNode node a b).linkView = e.linkView := by
  unfold splitNode
  rw [linkView_modifyState, linkView_modifyState] <;> intros <;> rfl

end Executor

/-! ## Linked recovery states -/

/-- `r`, a recovery state with links `R`, is linked to its dependent state. -/
def Linked (h : LinkHeap) (r : Nat) (R : Links) : Prop :=
  ∃ d D, R.dependentState = some d ∧ h d = some D ∧ D.suspendedNormal = true ∧
    D.recoveryState = some r ∧ R.level = D.levelAbove ∧ R.originatingState = D.origAbove d

/-- Every recovery state that `ex` does not exempt is linked. -/
def LinksWF (h : LinkHeap) (ex : Nat → Prop) : Prop :=
  ∀ r R, h r = some R → R.isRecovery = true → ex r ∨ Linked h r R

variable {h h' : LinkHeap} {ex : Nat → Prop}

/-- A linked state stays linked while its dependent state keeps its entry. -/
theorem Linked.congr {r : Nat} {R : Links} (hl : Linked h r R)
    (hd : ∀ d, R.dependentState = some d → h' d = h d) : Linked h' r R := by
  obtain ⟨d, D, hdep, hD, rest⟩ := hl
  exact ⟨d, D, hdep, (hd d hdep).trans hD, rest⟩

/-- The dependent state of a linked state is a suspended normal state of the heap. -/
theorem Linked.dep_suspendedNormal {r d : Nat} {R : Links} (hl : Linked h r R)
    (hd : R.dependentState = some d) : ∃ D, h d = some D ∧ D.suspendedNormal = true := by
  obtain ⟨d', D, hdep, hD, hsn, -⟩ := hl
  cases hd.symm.trans hdep
  exact ⟨D, hD, hsn⟩

/-- Two linked states with one dependent state are one state: the dependent points back. -/
theorem Linked.unique {r r' d : Nat} {R R' : Links} (hl : Linked h r R) (hl' : Linked h r' R')
    (hd : R.dependentState = some d) (hd' : R'.dependentState = some d) : r = r' := by
  obtain ⟨d₁, D, h₁, hD, -, hb, -⟩ := hl
  obtain ⟨d₂, D', h₂, hD', -, hb', -⟩ := hl'
  cases hd.symm.trans h₁
  cases hd'.symm.trans h₂
  cases hD.symm.trans hD'
  exact Option.some_injective _ (hb.symm.trans hb')

theorem LinksWF.mono {ex' : Nat → Prop} (hwf : LinksWF h ex) (hex : ∀ r, ex r → ex' r) :
    LinksWF h ex' := fun r R hr hrec => (hwf r R hr hrec).imp_left (hex r)

/-- A state of a well-formed heap that is not a suspended normal state is nobody's dependent,
whatever the exemptions. -/
theorem Linked.dep_ne {r x : Nat} {R : Links} (hl : Linked h r R)
    (hx : ∀ X, h x = some X → X.suspendedNormal = false) : R.dependentState ≠ some x := by
  intro hd
  obtain ⟨D, hD, hsn⟩ := hl.dep_suspendedNormal hd
  simp [hx D hD] at hsn

/-- A linked recovery state is not its own dependent: its level is one above its dependent's. -/
theorem Linked.dep_ne_self {r : Nat} {R : Links} (hl : Linked h r R) (hr : h r = some R)
    (hrec : R.isRecovery = true) : R.dependentState ≠ some r := by
  obtain ⟨d, D, hdep, hD, -, -, hlev, -⟩ := hl
  intro hd
  cases hd.symm.trans hdep
  cases hr.symm.trans hD
  simp [Links.levelAbove, hrec] at hlev

/-! ## Walks along dependent links -/

/-- From `x`, dependent links through the recovery states `ys` (each linked to the next but
for its originating state) lead to `o`, which is not a recovery state. -/
inductive ChainEnd (h : LinkHeap) : Nat → Nat → List Nat → Prop where
  | stop {o : Nat} {O : Links} : h o = some O → O.isRecovery = false → ChainEnd h o o []
  | link {x d o : Nat} {X D : Links} {ys : List Nat} : h x = some X →
      X.isRecovery = true → X.dependentState = some d → h d = some D →
      D.suspendedNormal = true → D.recoveryState = some x → X.level = D.levelAbove →
      ChainEnd h d o ys → ChainEnd h x o (x :: ys)

namespace ChainEnd

/-- A walk only reads the entries of its states. -/
theorem congr {x o : Nat} {ys : List Nat} (hc : ChainEnd h x o ys)
    (hh : ∀ y, y ∈ ys ∨ y = o → h' y = h y) : ChainEnd h' x o ys := by
  induction hc with
  | stop hO hrec => exact .stop ((hh _ (.inr rfl)).trans hO) hrec
  | @link x d o X D ys hX hrec hd hD hsn hb hl _ ih =>
    have hd' : h' d = h d := by
      cases ‹ChainEnd h d o ys› with
      | stop => exact hh _ (.inr rfl)
      | link => exact hh _ (.inl (List.mem_cons_of_mem _ (List.mem_cons_self _ _)))
    exact .link ((hh x (.inl (List.mem_cons_self _ _))).trans hX) hrec hd (hd'.trans hD) hsn hb
      hl (ih fun y hy => hh y (hy.imp_left (List.mem_cons_of_mem _)))

/-- Every state a walk passes after its first is a suspended normal state. -/
theorem suspendedNormal_of_dep {x o : Nat} {ys : List Nat} (hc : ChainEnd h x o ys)
    {X : Links} (hX : h x = some X) (hsn : X.suspendedNormal = true) :
    ∀ y, y ∈ ys ∨ y = o → ∃ Y, h y = some Y ∧ Y.suspendedNormal = true := by
  induction hc generalizing X with
  | stop hO _ =>
    rintro y (hy | rfl)
    · cases hy
    · exact ⟨X, hX, hsn⟩
  | link hX' _ _ hD hsnD _ _ _ ih =>
    intro y hy
    rw [List.mem_cons, or_assoc] at hy
    rcases hy with rfl | hy
    · exact ⟨X, hX, hsn⟩
    · exact ih hD hsnD y hy

/-- The first state of a walk is a recovery state exactly when the walk has a link. -/
theorem isRecovery_head {x o : Nat} {ys : List Nat} (hc : ChainEnd h x o ys) {X : Links}
    (hX : h x = some X) : X.isRecovery = true ↔ ∃ ys', ys = x :: ys' := by
  cases hc with
  | stop hO hrec => cases hX.symm.trans hO; simp [hrec]
  | link hX' hrec => cases hX.symm.trans hX'; simp [hrec]

/-- The dependent state of every recovery state of a walk is on the walk. -/
theorem dep_mem {x o : Nat} {ys : List Nat} (hc : ChainEnd h x o ys) :
    ∀ y ∈ ys, ∃ Y d, h y = some Y ∧ Y.dependentState = some d ∧ (d ∈ ys ∨ d = o) := by
  induction hc with
  | stop => intro y hy; cases hy
  | @link x d o X D ys hX _ hd _ _ _ _ hc ih =>
    intro y hy
    rcases List.mem_cons.mp hy with rfl | hy
    · refine ⟨X, d, hX, hd, ?_⟩
      cases hc with
      | stop => exact .inr rfl
      | link => exact .inl (List.mem_cons_of_mem _ (List.mem_cons_self _ _))
    · obtain ⟨Y, d', hY, hd', hmem⟩ := ih y hy
      exact ⟨Y, d', hY, hd', hmem.imp_left (List.mem_cons_of_mem _)⟩

/-- The first state of a walk is on it. -/
theorem head_mem {x o : Nat} {ys : List Nat} (hc : ChainEnd h x o ys) : x ∈ ys ∨ x = o := by
  cases hc with
  | stop => exact .inr rfl
  | link => exact .inl (List.mem_cons_self _ _)

/-- Every state of a walk has an entry. -/
theorem live {x o : Nat} {ys : List Nat} (hc : ChainEnd h x o ys) :
    ∀ y, y ∈ ys ∨ y = o → ∃ Y, h y = some Y := by
  induction hc with
  | stop hO _ =>
    rintro y (hy | rfl)
    · cases hy
    · exact ⟨_, hO⟩
  | link hX _ _ _ _ _ _ _ ih =>
    intro y hy
    rw [List.mem_cons, or_assoc] at hy
    rcases hy with rfl | hy
    · exact ⟨_, hX⟩
    · exact ih y hy

/-- The state a walk ends at has an entry and is not a recovery state. -/
theorem end_live {x o : Nat} {ys : List Nat} (hc : ChainEnd h x o ys) :
    ∃ O, h o = some O ∧ O.isRecovery = false := by
  induction hc with
  | stop hO hrec => exact ⟨_, hO, hrec⟩
  | link _ _ _ _ _ _ _ _ ih => exact ih

/-- A recovery state's level counts the links after it. -/
theorem level_head {x o : Nat} {ys : List Nat} (hc : ChainEnd h x o ys) :
    ∀ {X : Links}, h x = some X → X.isRecovery = true → X.level + 1 = ys.length := by
  induction hc with
  | stop hO hrec => intro X hX hXrec; cases hX.symm.trans hO; simp [hrec] at hXrec
  | @link x d o X D ys hX _ _ hD _ _ hlev hc ih =>
    intro X' hX' _
    cases hX'.symm.trans hX
    cases hDrec : D.isRecovery
    · cases hc with
      | stop => simp [hlev, Links.levelAbove, hDrec]
      | link hD' hrec' => cases hD.symm.trans hD'; simp [hDrec] at hrec'
    · simp [hlev, Links.levelAbove, hDrec, ← ih hD hDrec]

/-- Every state of a walk has a level below its length. -/
theorem level_lt {x o : Nat} {ys : List Nat} (hc : ChainEnd h x o ys) :
    ∀ y ∈ ys, ∃ Y, h y = some Y ∧ Y.level < ys.length := by
  induction hc with
  | stop => intro y hy; cases hy
  | @link x d o X D ys hX hrec hd hD hsn hb hlev hc ih =>
    intro y hy
    rcases List.mem_cons.mp hy with rfl | hy
    · have := (ChainEnd.link hX hrec hd hD hsn hb hlev hc).level_head hX hrec
      exact ⟨X, hX, by omega⟩
    · obtain ⟨Y, hY, hlt⟩ := ih y hy
      exact ⟨Y, hY, by simp; omega⟩

/-- A walk visits no state twice. -/
theorem nodup {x o : Nat} {ys : List Nat} (hc : ChainEnd h x o ys) : ys.Nodup ∧ o ∉ ys := by
  induction hc with
  | stop => exact ⟨List.nodup_nil, List.not_mem_nil _⟩
  | @link x d o X D ys hX hrec hd hD hsn hb hlev hc ih =>
    have hhead := (ChainEnd.link hX hrec hd hD hsn hb hlev hc).level_head hX hrec
    have hx : x ∉ ys := fun hm => by
      obtain ⟨Y, hY, hlt⟩ := hc.level_lt x hm
      cases hX.symm.trans hY
      simp at hhead; omega
    obtain ⟨O, hO, hOrec⟩ := hc.end_live
    refine ⟨List.nodup_cons.mpr ⟨hx, ih.1⟩, fun hm => ?_⟩
    rcases List.mem_cons.mp hm with rfl | hm
    · cases hX.symm.trans hO; simp [hrec] at hOrec
    · exact ih.2 hm

end ChainEnd

/-- In a heap whose recovery states are linked, but for those `ex` exempts (none of them a
dependent state), the walk from a linked recovery state takes `level + 1` links and ends at
its originating state. -/
theorem LinksWF.chainEnd (hwf : LinksWF h ex)
    (hex : ∀ r, ex r → ∀ R, h r = some R → R.suspendedNormal = false) :
    ∀ (n : Nat) (r : Nat) (R : Links), h r = some R → R.isRecovery = true → R.level = n →
      Linked h r R → ∃ o ys, ChainEnd h r o (r :: ys) ∧ R.originatingState = some o ∧
        ys.length = n := by
  intro n
  induction n using Nat.strong_induction_on with
  | _ n ih =>
    intro r R hr hrec hlev hl
    obtain ⟨d, D, hd, hD, hsn, hb, hlv, ho⟩ := hl
    cases hDrec : D.isRecovery
    · simp only [Links.levelAbove, Links.origAbove, hDrec, Bool.false_eq_true, if_false] at hlv ho
      exact ⟨d, [], .link hr hrec hd hD hsn hb (by simp [Links.levelAbove, hDrec, hlv])
        (.stop hD hDrec), ho, by simp; omega⟩
    · simp only [Links.levelAbove, Links.origAbove, hDrec, if_true] at hlv ho
      have hlD : Linked h d D := (hwf d D hD hDrec).resolve_left fun hx => by
        simp [hex d hx D hD] at hsn
      obtain ⟨o, ys, hc, hDo, hlen⟩ := ih D.level (by omega) d D hD hDrec rfl hlD
      exact ⟨o, d :: ys, .link hr hrec hd hD hsn hb (by simp [Links.levelAbove, hDrec, hlv]) hc,
        ho.trans hDo, by simp [hlen]; omega⟩

end PChop
