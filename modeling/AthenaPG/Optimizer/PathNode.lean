import AthenaPG.Nodes.Bitmapset
import AthenaPG.Library.Tournament

/-!
Paths and the path tournament (`src/backend/optimizer/util/pathnode.c`,
`compare_pathkeys` of `pathkeys.c`).

Costs and row counts are doubles in the source and rationals here.  A `Path`
carries the fields a comparison reads.  `addPath` is one round of the
tournament of `Library/Tournament`, judged by `addPathVerdict`: the whole
dominance test of `add_path`, including the fork's switch that lets no path
dominate another.
-/

namespace AthenaPG

open Tournament

/-! ## Data -/

/-- A canonical `PathKey` node.  The planner compares them by address. -/
abbrev PathKey := Nat

/-- What a path comparison reads of `ParamPathInfo`. -/
structure ParamPathInfo where
  ppiReqOuter : Relids
  deriving DecidableEq

/-- What a path comparison reads of the path's parent `RelOptInfo`. -/
structure PathParent where
  considerStartup : Bool
  considerParamStartup : Bool
  deriving DecidableEq

structure Path where
  parent : PathParent
  paramInfo : Option ParamPathInfo
  parallelSafe : Bool
  rows : ℚ
  startupCost : ℚ
  totalCost : ℚ
  pathkeys : List PathKey
  deriving DecidableEq

def pathReqOuter (path : Path) : Relids := match path.paramInfo with
  | some info => info.ppiReqOuter
  | none => none

def effectivePathkeys (path : Path) : List PathKey := match path.paramInfo with
  | some _ => []
  | none => path.pathkeys

def considerPathStartupCost (path : Path) : Bool := match path.paramInfo with
  | none => path.parent.considerStartup
  | some _ => path.parent.considerParamStartup

def stdFuzzFactor : ℚ := 101 / 100

/-- The small fuzz limit `add_path` breaks ties with. -/
def tieFuzzFactor : ℚ := 10000000001 / 10000000000

inductive PathCostComparison
  | equal
  | better1
  | better2
  | different
  deriving DecidableEq, Repr

inductive PathKeysComparison
  | equal
  | better1
  | better2
  | different
  deriving DecidableEq, Repr

/-! ## Comparisons -/

def comparePathCostsFuzzily (path1 path2 : Path) (fuzzFactor : ℚ) : PathCostComparison :=
  if path1.totalCost > path2.totalCost * fuzzFactor then
    if considerPathStartupCost path1 ∧ path2.startupCost > path1.startupCost * fuzzFactor then
      .different
    else .better2
  else if path2.totalCost > path1.totalCost * fuzzFactor then
    if considerPathStartupCost path2 ∧ path1.startupCost > path2.startupCost * fuzzFactor then
      .different
    else .better1
  else if path1.startupCost > path2.startupCost * fuzzFactor then .better2
  else if path2.startupCost > path1.startupCost * fuzzFactor then .better1
  else .equal

def comparePathkeys : List PathKey → List PathKey → PathKeysComparison
  | [], [] => .equal
  | _ :: _, [] => .better1
  | [], _ :: _ => .better2
  | key1 :: keys1, key2 :: keys2 =>
    if key1 ≠ key2 then .different else comparePathkeys keys1 keys2

/-- The fork's two process globals (`costsize.c`). -/
structure JopFlags where
  enableJoinOrderPlans : Bool
  saveJoinOrderPlanFinished : Bool
  deriving DecidableEq

/-- `new_path` needs no outer rels beyond `old_path`'s, yields no more rows and
is no less parallel-safe. -/
def noWorse (outercmp : BmsComparison) (newPath oldPath : Path) : Bool :=
  (outercmp = .equal ∨ outercmp = .subset1) ∧ newPath.rows ≤ oldPath.rows ∧
    newPath.parallelSafe ≥ oldPath.parallelSafe

/-- The same test the other way round. -/
def noBetter (outercmp : BmsComparison) (newPath oldPath : Path) : Bool :=
  (outercmp = .equal ∨ outercmp = .subset2) ∧ newPath.rows ≥ oldPath.rows ∧
    newPath.parallelSafe ≤ oldPath.parallelSafe

/-- Same pathkeys and outer rels and fuzzily the same cost: keep just one. -/
def breakTie (newPath oldPath : Path) : Verdict :=
  if newPath.parallelSafe > oldPath.parallelSafe then .removeOld
  else if newPath.parallelSafe < oldPath.parallelSafe then .rejectNew
  else if newPath.rows < oldPath.rows then .removeOld
  else if newPath.rows > oldPath.rows then .rejectNew
  else if comparePathCostsFuzzily newPath oldPath tieFuzzFactor = .better1 then .removeOld
  else .rejectNew

variable (flags : JopFlags)

/-- The body of `add_path`'s loop: `removeOld` is `remove_old`, `rejectNew` is
`!accept_new`; no branch sets both. -/
def addPathVerdict (newPath oldPath : Path) : Verdict :=
  let costcmp :=
    if flags.enableJoinOrderPlans && flags.saveJoinOrderPlanFinished then .different
    else comparePathCostsFuzzily newPath oldPath stdFuzzFactor
  if costcmp = .different then .keepBoth
  else
    let keyscmp := comparePathkeys (effectivePathkeys newPath) (effectivePathkeys oldPath)
    if keyscmp = .different then .keepBoth
    else
      let outercmp := bmsSubsetCompare (pathReqOuter newPath) (pathReqOuter oldPath)
      match costcmp with
      | .equal =>
        match keyscmp with
        | .better1 => if noWorse outercmp newPath oldPath then .removeOld else .keepBoth
        | .better2 => if noBetter outercmp newPath oldPath then .rejectNew else .keepBoth
        | _ =>
          if outercmp = .equal then breakTie newPath oldPath
          else if outercmp = .subset1 ∧ noWorse outercmp newPath oldPath then .removeOld
          else if outercmp = .subset2 ∧ noBetter outercmp newPath oldPath then .rejectNew
          else .keepBoth
      | .better1 =>
        if keyscmp ≠ .better2 ∧ noWorse outercmp newPath oldPath then .removeOld else .keepBoth
      | .better2 =>
        if keyscmp ≠ .better1 ∧ noBetter outercmp newPath oldPath then .rejectNew else .keepBoth
      | .different => .keepBoth

/-! ## `add_path` -/

variable (pathlist : List Path)

/-- `add_path`: the new `pathlist` of the parent rel. -/
def addPath (newPath : Path) : List Path :=
  offer (addPathVerdict flags) (behind Path.totalCost) newPath pathlist

/-- A sequence of `add_path` calls under fixed flags. -/
def addPaths (offers : List Path) : List Path := offers.foldl (addPath flags) pathlist

@[simp] theorem addPaths_nil : addPaths flags pathlist [] = pathlist := rfl

theorem addPaths_eq_offerAll (pathlist os : List Path) :
    addPaths flags pathlist os =
      offerAll (addPathVerdict flags) (behind Path.totalCost) pathlist os := rfl

@[simp] theorem addPaths_cons (p : Path) (os : List Path) :
    addPaths flags pathlist (p :: os) = addPaths flags (addPath flags pathlist p) os := rfl

/-- `add_path_precheck`, whose arguments are those of a path not yet built. -/
def addPathPrecheck (parent : PathParent) (startupCost totalCost : ℚ) (pathkeys : List PathKey)
    (requiredOuter : Relids) : List Path → Bool
  | [] => true
  | oldPath :: rest =>
    let newPathPathkeys := if requiredOuter.isSome then [] else pathkeys
    let considerStartup :=
      if requiredOuter.isSome then parent.considerParamStartup else parent.considerStartup
    if totalCost > oldPath.totalCost * stdFuzzFactor then
      if (startupCost > oldPath.startupCost * stdFuzzFactor ∨ !considerStartup) ∧
          (comparePathkeys newPathPathkeys (effectivePathkeys oldPath) = .equal ∨
            comparePathkeys newPathPathkeys (effectivePathkeys oldPath) = .better2) ∧
          bmsEqual requiredOuter (pathReqOuter oldPath) then false
      else addPathPrecheck parent startupCost totalCost pathkeys requiredOuter rest
    else true   -- the list is sorted, so nothing further on can be cheaper

end AthenaPG
