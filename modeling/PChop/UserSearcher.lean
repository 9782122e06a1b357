import PChop.Executor.Basic

/-!
# The searchers the user may choose

`constructUserSearcher` (`lib/Core/UserSearcher.cpp`) builds the searcher of the run loop
from the search mode: `DFS` a `DFSSearcher`, `RAND` a `RandomSearcher`, `COVNEW` a
`WeightedRandomSearcher`, and any other mode, the executor's default `BFS` among them, a
`DFSSearcher`. The searcher `getNewSearcher` builds is named by its `CoreSearchType`. With
`--split-search` it builds two searchers of the same kind and hands them to a
`SplittedSearcher` with `SplitRatio` (default `20`): the first takes the states that are not
recovery states, the second the recovery states.

The DFS searcher is `dfsUpdate` and the last state of its vector. `RandomSearcher` keeps a
vector too: `update` appends the added states and erases each removed state at its first
position, and `selectState` takes the state at `theRNG.getInt32() % size`. The weighted
searcher draws from a `DiscretePDF` over coverage weights, which the sources do not hold; it
is not modelled.
-/

namespace PChop

/-- `Searcher::CoreSearchType`, the search heuristics `getNewSearcher` builds a searcher for. -/
inductive CoreSearchType where
  | DFS
  | BFS
  | RandomState
  | RandomPath
  | NURS_CovNew
  | NURS_MD2U
  | NURS_Depth
  | NURS_ICnt
  | NURS_CPICnt
  | NURS_QC
  deriving DecidableEq, Repr

/-- The searcher `constructUserSearcher` builds: the searcher `getNewSearcher` builds for a core
search type, or a `SplittedSearcher` over two of them with a split ratio. -/
inductive UserSearcher where
  | plain (type : CoreSearchType)
  | splitted (base recovery : CoreSearchType) (ratio : Nat)
  deriving DecidableEq, Repr

/-- Whether the searcher holds a searcher built for the core search type `type`. -/
def UserSearcher.builds : UserSearcher → CoreSearchType → Bool
  | plain t, type => t == type
  | splitted t t' _, type => t == type || t' == type

/-- The core search type `constructUserSearcher` asks `getNewSearcher` for: `DFS` for the mode
`DFS`, `RandomState` for `RAND`, `NURS_CovNew` for `COVNEW`, and `DFS` for any other mode. -/
def userSearchType (searchMode : String) : CoreSearchType :=
  if searchMode = "DFS" then .DFS
  else if searchMode = "RAND" then .RandomState
  else if searchMode = "COVNEW" then .NURS_CovNew
  else .DFS

/-- `constructUserSearcher(executor, searchMode)`, with the options `--split-search`
(`UseSplittedSearcher`) and `--split-ratio` (`SplitRatio`): a searcher of the mode's type, or
with `--split-search` a `SplittedSearcher` over two of them. -/
def constructUserSearcher (searchMode : String) (UseSplittedSearcher : Bool) (SplitRatio : Nat) :
    UserSearcher :=
  if UseSplittedSearcher then
    .splitted (userSearchType searchMode) (userSearchType searchMode) SplitRatio
  else .plain (userSearchType searchMode)

/-- `RandomSearcher::update`: append the added states, then erase each removed state at its
first position. `none` is the failed assertion `ok && "invalid state removed"`. -/
def randomUpdate (v added removed : List Nat) : Option (List Nat) :=
  removed.foldlM (fun v es => if es ∈ v then some (v.erase es) else none) (v ++ added)

/-- `RandomSearcher::selectState` with `r` the value of `theRNG.getInt32()`: the state at
`r % size`, none when the vector is empty. -/
def randomSelect (v : List Nat) (r : Nat) : Option Nat := v.get? (r % v.length)

/-- The kinds of searcher `getNewSearcher` builds for the modes the model follows. -/
inductive SearchKind where
  | DFS
  | RandomState
  deriving DecidableEq, Repr

namespace SearchKind

/-- `update` of a searcher of the kind. -/
def update : SearchKind → List Nat → List Nat → List Nat → Option (List Nat)
  | DFS => dfsUpdate
  | RandomState => randomUpdate

/-- `selectState` of a searcher of the kind, with `r` the value a random searcher draws. -/
def selectState : SearchKind → List Nat → Nat → Option Nat
  | DFS, v, _ => v.getLast?
  | RandomState, v, r => randomSelect v r

/-- The searcher after the updates of a run, each with the states one turn of the run loop
added and removed; `none` from the first failed assertion on. -/
def updates (kind : SearchKind) : List Nat → List (List Nat × List Nat) → Option (List Nat)
  | v, [] => some v
  | v, (added, removed) :: us => kind.update v added removed >>= fun v' => kind.updates v' us

end SearchKind

/-- `SplittedSearcher` over two searchers of one kind: `baseSearcher` holds the states that are
not recovery states, `recoverySearcher` the recovery states. -/
structure SplittedSearcher where
  kind : SearchKind
  baseSearcher : List Nat
  recoverySearcher : List Nat
  ratio : Nat
  deriving DecidableEq, Repr

namespace SplittedSearcher

variable (sp : SplittedSearcher)

/-- `SplittedSearcher::update`, with `isRecoveryState` the type of every state: the added and
the removed states are split by type, in order, and each searcher takes its share. The
`current` state, which the DFS and the random searcher ignore, is left out. -/
def update (isRecoveryState : Nat → Bool) (addedStates removedStates : List Nat) :
    Option SplittedSearcher := do
  let baseSearcher ← sp.kind.update sp.baseSearcher
    (addedStates.filter fun es => !isRecoveryState es)
    (removedStates.filter fun es => !isRecoveryState es)
  let recoverySearcher ← sp.kind.update sp.recoverySearcher
    (addedStates.filter isRecoveryState) (removedStates.filter isRecoveryState)
  some { sp with baseSearcher, recoverySearcher }

/-- `SplittedSearcher::selectState`, with `r` the split's `theRNG.getInt32()` and `r'` the value
a random searcher below draws: a searcher left empty hands over to the other, and otherwise
the recovery searcher is chosen when `r % 100 < ratio`. -/
def selectState (r r' : Nat) : Option Nat :=
  if sp.baseSearcher.isEmpty then sp.kind.selectState sp.recoverySearcher r'
  else if sp.recoverySearcher.isEmpty then sp.kind.selectState sp.baseSearcher r'
  else if r % 100 < sp.ratio then sp.kind.selectState sp.recoverySearcher r'
  else sp.kind.selectState sp.baseSearcher r'

/-- The split searcher after the updates of a run, as `SearchKind.updates`. -/
def updates (isRecoveryState : Nat → Bool) :
    SplittedSearcher → List (List Nat × List Nat) → Option SplittedSearcher
  | sp, [] => some sp
  | sp, (added, removed) :: us => sp.update isRecoveryState added removed >>= fun sp' =>
    updates isRecoveryState sp' us

/-- `SplittedSearcher::empty`. -/
def empty : Bool := sp.baseSearcher.isEmpty && sp.recoverySearcher.isEmpty

/-- `SplittedSearcher::getSize`. -/
def getSize : Nat := sp.baseSearcher.length + sp.recoverySearcher.length

end SplittedSearcher

end PChop
