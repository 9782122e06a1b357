import Mathlib.Data.List.Basic

/-!
# The BFS searcher

`BFSSearcher` (`lib/Core/Searcher.{h,cpp}`) selects states by depth: it files every state it
holds under its `actDepth` in a map from depths to deques of states (`depthStatesMap`),
remembers the depth each state was filed at (`depthMap`), and selects the front of the deque
at `currentMinDepth`. `update` refiles the current state when its depth changed, then removes
and adds states.

The `std::unordered_map`s are lists of entries with distinct keys (`NatMap`). A state is its
pointer, a number, and its `actDepth` is an input of `update`. When a removal empties the
deque at `currentMinDepth`, the source looks for the next populated depth with an unbounded
loop; the model gives the loop `fuel` turns and returns `none` when they run out. `none` is
also a failed assertion.
-/

namespace PChop

/-- An `std::unordered_map` with `Nat` keys, as its entries. -/
abbrev NatMap (α : Type) := List (Nat × α)

namespace NatMap

variable {α : Type}

/-- `find`: the value at a key. -/
def get? (m : NatMap α) (k : Nat) : Option α := (m.find? (·.1 == k)).map (·.2)

/-- `erase(k)`. -/
def erase (m : NatMap α) (k : Nat) : NatMap α := m.filter (·.1 != k)

/-- `m[k] = v`. -/
def set (m : NatMap α) (k : Nat) (v : α) : NatMap α := (k, v) :: m.erase k

end NatMap

/-- The fields of `BFSSearcher`. -/
structure BFSSearcher where
  states : List Nat := []
  depthMap : NatMap Nat := []
  depthStatesMap : NatMap (List Nat) := []
  currentMinDepth : Nat := 0
  deriving DecidableEq, Repr

namespace BFSSearcher

variable (b : BFSSearcher)

/-- `BFSSearcher::empty`. -/
def empty : Bool := b.states.isEmpty

/-- `BFSSearcher::selectState`: the front of the deque at `currentMinDepth`. `none` is the
failed assertion that the depth has a deque, or an empty deque. -/
def selectState : Option Nat := (b.depthStatesMap.get? b.currentMinDepth).bind List.head?

/-- `BFSSearcher::getState2Offload` with `r` the value of `theRNG.getInt32()`. -/
def getState2Offload (r : Nat) : Option Nat :=
  (b.depthStatesMap.get? b.currentMinDepth).bind fun l => l.get? (r % l.length)

/-- `BFSSearcher::atleast2states`: `operator[]` inserts an empty deque at `currentMinDepth`
when it has none. -/
def atleast2states : BFSSearcher × Bool :=
  match b.depthStatesMap.get? b.currentMinDepth with
  | some l => (b, decide (l.length > 1))
  | none => ({ b with depthStatesMap := b.depthStatesMap.set b.currentMinDepth [] }, false)

/-- `BFSSearcher::insertIntoDepthStateMap(current)` for a state whose `actDepth` is `depth`:
the first state sets `currentMinDepth`, a new depth lowers it. -/
def insertIntoDepthStateMap (current depth : Nat) : BFSSearcher :=
  let states := if current ∈ b.states then b.states else b.states ++ [current]
  let currentMinDepth := if b.depthMap.isEmpty then depth else b.currentMinDepth
  let depthMap := b.depthMap.set current depth
  match b.depthStatesMap.get? depth with
  | none =>
    { states, depthMap, depthStatesMap := b.depthStatesMap.set depth [current],
      currentMinDepth := if currentMinDepth > depth then depth else currentMinDepth }
  | some l =>
    { states, depthMap, depthStatesMap := b.depthStatesMap.set depth (l ++ [current]),
      currentMinDepth }

/-- The loop `while (depthStatesMap.find(tryDepth) == end) tryDepth++` of
`removeFromDepthStateMap`, with `fuel` turns. -/
def nextPopulated (m : NatMap (List Nat)) : Nat → Nat → Option Nat
  | 0, _ => none
  | fuel + 1, tryDepth =>
    if (m.get? tryDepth).isSome then some tryDepth else nextPopulated m fuel (tryDepth + 1)

/-- `BFSSearcher::removeFromDepthStateMap(current)`: the state leaves `states` and its deque;
a deque left empty is erased, and when it was the one at `currentMinDepth` the next populated
depth above becomes `currentMinDepth`. -/
def removeFromDepthStateMap (fuel current : Nat) : Option BFSSearcher := do
  if current ∉ b.states then none else
  let states := b.states.erase current
  let oldDepth := (b.depthMap.get? current).getD 0
  let l ← b.depthStatesMap.get? oldDepth
  if current ∉ l then none else
  let l := l.erase current
  let depthMap := b.depthMap.erase current
  if l.isEmpty then
    let m := b.depthStatesMap.erase oldDepth
    if oldDepth = b.currentMinDepth then
      let tryDepth ← nextPopulated m fuel (b.currentMinDepth + 1)
      some { states, depthMap, depthStatesMap := m, currentMinDepth := tryDepth }
    else some { states, depthMap, depthStatesMap := m, currentMinDepth := b.currentMinDepth }
  else
    some { b with states, depthMap, depthStatesMap := b.depthStatesMap.set oldDepth l }

/-- `BFSSearcher::updateDepthStateMap(current, oldDepth)` for a state whose `actDepth` is now
`newDepth`: the state leaves the deque at `oldDepth`, which is erased when left empty, and
then `currentMinDepth` becomes `newDepth` when it was not above `oldDepth`; the state is then
filed at `newDepth`. -/
def updateDepthStateMap (current oldDepth newDepth : Nat) : Option BFSSearcher := do
  let l ← b.depthStatesMap.get? oldDepth
  if current ∉ l then none else
  let l := l.erase current
  let b :=
    if l.isEmpty then
      { b with depthStatesMap := b.depthStatesMap.erase oldDepth,
               currentMinDepth :=
                 if b.currentMinDepth ≤ oldDepth then newDepth else b.currentMinDepth }
    else { b with depthStatesMap := b.depthStatesMap.set oldDepth l }
  some (b.insertIntoDepthStateMap current newDepth)

/-- `BFSSearcher::update(current, addedStates, removedStates)`, with `actDepth` the
`actDepth` of every state: the current state is refiled when its depth changed, then the
removed states are removed and the added states inserted. -/
def update (fuel : Nat) (actDepth : Nat → Nat) (current : Option Nat)
    (addedStates removedStates : List Nat) : Option BFSSearcher := do
  let b ← match current.bind fun c => (b.depthMap.get? c).map (c, ·) with
    | some (c, d) =>
      if d ≠ actDepth c then
        (b.updateDepthStateMap c d (actDepth c)).map fun b =>
          { b with depthMap := b.depthMap.set c (actDepth c) }
      else some b
    | none => some b
  let b ← removedStates.foldlM (fun b s => b.removeFromDepthStateMap fuel s) b
  some (addedStates.foldl (fun b s => b.insertIntoDepthStateMap s (actDepth s)) b)

end BFSSearcher

end PChop
