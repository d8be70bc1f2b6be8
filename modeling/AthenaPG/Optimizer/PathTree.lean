/-!
Path trees: what `create_plan_recurse` (`src/backend/optimizer/plan/createplan.c`)
accepts, with one constructor for each shape of node.

The fork walks these trees twice: `catch_join_order` exports the join order of a
path, and Lero's `add_join_input_tables` counts the tables under it.  Both look
at the node type, the relid of a scan and the subpaths, and that is what a node
carries here.
-/

namespace AthenaPG

/-! ## Node types -/

/-- Scans of one base relation, by `pathtype`.  The subpath of a subquery scan
belongs to another `PlannerInfo`. -/
inductive ScanType
  | seqScan
  | sampleScan
  | indexScan
  | indexOnlyScan
  | bitmapHeapScan
  | tidScan
  | tidRangeScan
  | subqueryScan
  | functionScan
  | tableFuncScan
  | valuesScan
  | cteScan
  | workTableScan
  | namedTuplestoreScan
  deriving DecidableEq, Repr

inductive JoinType
  | hashJoin
  | mergeJoin
  | nestLoop
  deriving DecidableEq, Repr

/-- Nodes with one subpath.  `agg` and `groupingSets` share the `pathtype`
`T_Agg`, `unique` and `upperUnique` share `T_Unique`. -/
inductive UnaryType
  | projection
  | projectSet
  | material
  | memoize
  | unique
  | upperUnique
  | gather
  | gatherMerge
  | sort
  | incrementalSort
  | group
  | agg
  | groupingSets
  | windowAgg
  | setOp
  | lockRows
  | modifyTable
  | limit
  deriving DecidableEq, Repr

/-- A `Path` node with its subpaths. -/
inductive PathTree
  | scan (type : ScanType) (relid : Nat)
  /-- Foreign and custom scans stand for a base relation or a whole join. -/
  | foreignScan (relids : List Nat)
  | customScan (relids : List Nat)
  | join (type : JoinType) (outer inner : PathTree)
  | unary (type : UnaryType) (subpath : PathTree)
  | append (subpaths : List PathTree)
  | mergeAppend (subpaths : List PathTree)
  /-- A `Result` over an `RTE_RESULT` relation. -/
  | result (relid : Nat)
  | groupResult
  | minMaxAgg (subpaths : List PathTree)
  | recursiveUnion (left right : PathTree)

/-- `path->type`. -/
inductive NodeTag
  | path
  | indexPath
  | bitmapHeapPath
  | tidPath
  | tidRangePath
  | subqueryScanPath
  | foreignPath
  | customPath
  | hashPath
  | mergePath
  | nestPath
  | unaryPath (type : UnaryType)
  | appendPath
  | mergeAppendPath
  | groupResultPath
  | minMaxAggPath
  | recursiveUnionPath
  deriving DecidableEq, Repr

def PathTree.nodeTag : PathTree → NodeTag
  | .scan .indexScan _ => .indexPath
  | .scan .indexOnlyScan _ => .indexPath
  | .scan .bitmapHeapScan _ => .bitmapHeapPath
  | .scan .tidScan _ => .tidPath
  | .scan .tidRangeScan _ => .tidRangePath
  | .scan .subqueryScan _ => .subqueryScanPath
  | .scan _ _ => .path
  | .foreignScan _ => .foreignPath
  | .customScan _ => .customPath
  | .join .hashJoin _ _ => .hashPath
  | .join .mergeJoin _ _ => .mergePath
  | .join .nestLoop _ _ => .nestPath
  | .unary type _ => .unaryPath type
  | .append _ => .appendPath
  | .mergeAppend _ => .mergeAppendPath
  | .result _ => .path
  | .groupResult => .groupResultPath
  | .minMaxAgg _ => .minMaxAggPath
  | .recursiveUnion _ _ => .recursiveUnionPath

/-- `path->pathtype`, the tag of the plan node the path stands for. -/
inductive PlanTag
  | scan (type : ScanType)
  | foreignScan
  | customScan
  | join (type : JoinType)
  | result
  | projectSet
  | material
  | memoize
  | unique
  | gather
  | gatherMerge
  | sort
  | incrementalSort
  | group
  | agg
  | windowAgg
  | setOp
  | lockRows
  | modifyTable
  | limit
  | append
  | mergeAppend
  | recursiveUnion
  deriving DecidableEq, Repr

def UnaryType.pathtype : UnaryType → PlanTag
  | .projection => .result
  | .projectSet => .projectSet
  | .material => .material
  | .memoize => .memoize
  | .unique => .unique
  | .upperUnique => .unique
  | .gather => .gather
  | .gatherMerge => .gatherMerge
  | .sort => .sort
  | .incrementalSort => .incrementalSort
  | .group => .group
  | .agg => .agg
  | .groupingSets => .agg
  | .windowAgg => .windowAgg
  | .setOp => .setOp
  | .lockRows => .lockRows
  | .modifyTable => .modifyTable
  | .limit => .limit

def PathTree.pathtype : PathTree → PlanTag
  | .scan type _ => .scan type
  | .foreignScan _ => .foreignScan
  | .customScan _ => .customScan
  | .join type _ _ => .join type
  | .unary type _ => type.pathtype
  | .append _ => .append
  | .mergeAppend _ => .mergeAppend
  | .result _ => .result
  | .groupResult => .result
  | .minMaxAgg _ => .result
  | .recursiveUnion _ _ => .recursiveUnion

/-! ## Leaves -/

mutual

def PathTree.baseLeaves : PathTree → List Nat
  | .scan _ relid => [relid]
  | .foreignScan relids => relids
  | .customScan relids => relids
  | .join _ outer inner => outer.baseLeaves ++ inner.baseLeaves
  | .unary _ subpath => subpath.baseLeaves
  | .append subpaths => baseLeavesAll subpaths
  | .mergeAppend subpaths => baseLeavesAll subpaths
  | .result relid => [relid]
  | .groupResult => []
  | .minMaxAgg subpaths => baseLeavesAll subpaths
  | .recursiveUnion left right => left.baseLeaves ++ right.baseLeaves

def baseLeavesAll : List PathTree → List Nat
  | [] => []
  | path :: paths => path.baseLeaves ++ baseLeavesAll paths

end

end AthenaPG
