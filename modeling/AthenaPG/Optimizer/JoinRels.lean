import AthenaPG.Nodes.Bitmapset
import AthenaPG.Library.UnorderedPairs

/-!
The join search (`src/backend/optimizer/path/joinrels.c`, with
`standard_join_search` of `allpaths.c`, `have_relevant_joinclause` of
`joininfo.c`, the tests of `equivclass.c` and `build_join_rel` of `relnode.c`).

Relations carry what the search reads: relids, join clauses still to be applied,
whether an equivalence class links them to others, and lateral references.  The
search state carries the list of join relations of each level, all of them
together, and a trace of the calls of `make_join_rel`.  Paths are left out: the
search never looks at them.
-/

namespace AthenaPG

open UnorderedPairs

/-! ## Data -/

/-- A `RestrictInfo`.  The planner tells clauses apart by address, `serial` here. -/
structure RestrictInfo where
  serial : Nat
  requiredRelids : Relids
  deriving DecidableEq

/-- An `EquivalenceClass`: its relids and `list_length(ec_members)`. -/
structure EquivalenceClass where
  ecRelids : Relids
  ecMembers : Nat

/-- `jointype` of a `SpecialJoinInfo`. -/
inductive SpecialJoinType
  | left
  | full
  | semi
  | anti
  deriving DecidableEq, Repr

structure SpecialJoinInfo where
  minLefthand : Relids
  minRighthand : Relids
  synRighthand : Relids
  jointype : SpecialJoinType
  ojrelid : Nat
  commuteAboveL : Relids
  commuteBelowL : Relids
  lhsStrict : Bool
  deriving DecidableEq

/-- A `RelOptInfo`, as far as the join search reads it. -/
structure SearchRel where
  relids : Relids
  joininfo : List RestrictInfo
  hasEclassJoins : Bool
  lateralRelids : Relids
  directLateralRelids : Relids
  lateralReferencers : Relids

/-- A `PlannerInfo`, as far as the join search reads it.  `placeholderList` holds
the `ph_eval_at` sets, and `createUniquePath` tells whether `create_unique_path`
finds a way to unique-ify a relation. -/
structure SearchRoot where
  initialRels : List SearchRel
  eqClasses : List EquivalenceClass
  joinInfoList : List SpecialJoinInfo
  hasLateralRTEs : Bool
  placeholderList : List Relids
  createUniquePath : SearchRel → SpecialJoinInfo → Bool

/-! ## Join clauses -/

variable (root : SearchRoot) (rel1 rel2 : SearchRel)

/-- `have_relevant_eclass_joinclause`; the classes that mention both relations are
those `get_common_eclass_indexes` finds. -/
def haveRelevantEclassJoinclause : Bool :=
  root.eqClasses.any fun ec =>
    bmsOverlap rel1.relids ec.ecRelids && bmsOverlap rel2.relids ec.ecRelids &&
      decide (1 < ec.ecMembers)

def hasRelevantEclassJoinclause (eqClasses : List EquivalenceClass) (relids : Relids) : Bool :=
  eqClasses.any fun ec =>
    bmsOverlap relids ec.ecRelids && decide (1 < ec.ecMembers) && !bmsIsSubset ec.ecRelids relids

def haveRelevantJoinclause : Bool :=
  -- scan the shorter of the two lists
  let result :=
    if rel1.joininfo.length ≤ rel2.joininfo.length then
      rel1.joininfo.any fun rinfo => bmsOverlap rel2.relids rinfo.requiredRelids
    else
      rel2.joininfo.any fun rinfo => bmsOverlap rel1.relids rinfo.requiredRelids
  result || (rel1.hasEclassJoins && rel2.hasEclassJoins &&
    haveRelevantEclassJoinclause root rel1 rel2)

/-! ## Legality -/

/-- The variables of the scan in `join_is_legal`. -/
structure LegalScan where
  matchSjinfo : Option SpecialJoinInfo
  reversed : Bool
  uniqueIfied : Bool
  mustBeLeftjoin : Bool

/-- A special join found to be performed by the proposed join; a second match is an
invalid join path. -/
def matchSpecialJoin (scan : LegalScan) (sjinfo : SpecialJoinInfo) (reversed uniqueIfied : Bool) :
    Option LegalScan :=
  if scan.matchSjinfo.isSome then none
  else some
    { scan with
      matchSjinfo := some sjinfo
      reversed := reversed
      uniqueIfied := scan.uniqueIfied || uniqueIfied }

variable (joinrelids : Relids)

/-- The body of the loop over `join_info_list`; `none` is `return false`. -/
def checkSpecialJoin (scan : LegalScan) (sjinfo : SpecialJoinInfo) :
    Option LegalScan :=
  if !bmsOverlap sjinfo.minRighthand joinrelids then some scan
  else if bmsIsSubset joinrelids sjinfo.minRighthand then some scan
  else if bmsIsSubset sjinfo.minLefthand rel1.relids &&
      bmsIsSubset sjinfo.minRighthand rel1.relids then some scan
  else if bmsIsSubset sjinfo.minLefthand rel2.relids &&
      bmsIsSubset sjinfo.minRighthand rel2.relids then some scan
  else if sjinfo.jointype = .semi && bmsIsSubset sjinfo.synRighthand rel1.relids &&
      !bmsEqual sjinfo.synRighthand rel1.relids then some scan
  else if sjinfo.jointype = .semi && bmsIsSubset sjinfo.synRighthand rel2.relids &&
      !bmsEqual sjinfo.synRighthand rel2.relids then some scan
  else if bmsIsSubset sjinfo.minLefthand rel1.relids &&
      bmsIsSubset sjinfo.minRighthand rel2.relids then
    matchSpecialJoin scan sjinfo false false
  else if bmsIsSubset sjinfo.minLefthand rel2.relids &&
      bmsIsSubset sjinfo.minRighthand rel1.relids then
    matchSpecialJoin scan sjinfo true false
  else if sjinfo.jointype = .semi && bmsEqual sjinfo.synRighthand rel2.relids &&
      root.createUniquePath rel2 sjinfo then
    matchSpecialJoin scan sjinfo false true
  else if sjinfo.jointype = .semi && bmsEqual sjinfo.synRighthand rel1.relids &&
      root.createUniquePath rel1 sjinfo then
    matchSpecialJoin scan sjinfo true true
  -- a violation of the right-hand side that both inputs already commit
  else if bmsOverlap rel1.relids sjinfo.minRighthand &&
      bmsOverlap rel2.relids sjinfo.minRighthand then some scan
  else if sjinfo.jointype ≠ .left || bmsOverlap joinrelids sjinfo.minLefthand then none
  else some { scan with mustBeLeftjoin := true }

def haveDangerousPhv (outerRelids innerParams : Relids) : Bool :=
  root.placeholderList.any fun phEvalAt =>
    bmsIsSubset phEvalAt innerParams && bmsOverlap phEvalAt outerRelids &&
      !bmsIsSubset phEvalAt outerRelids

def minJoinParameterization (outerRel innerRel : SearchRel) : Relids :=
  bmsDelMembers (bmsUnion outerRel.lateralRelids innerRel.lateralRelids) joinrelids

/-- One pass of the `do` loop that closes a set under the right-hand sides of the
special joins it reaches, and the loop.  A pass that changes the set completes at
least one right-hand side, so there are at most as many such passes as joins. -/
def closeRighthandPass (joinPlusRhs : Relids) : Relids × Bool :=
  root.joinInfoList.foldl (fun (rhs, more) sjinfo =>
    if sjinfo.jointype = .full then (rhs, more)
    else if bmsOverlap sjinfo.minLefthand rhs && !bmsIsSubset sjinfo.minRighthand rhs then
      (bmsAddMembers rhs sjinfo.minRighthand, true)
    else (rhs, more)) (joinPlusRhs, false)

def closeRighthand (root : SearchRoot) : Nat → Relids → Relids
  | 0, joinPlusRhs => joinPlusRhs
  | fuel + 1, joinPlusRhs =>
    let (rhs, more) := closeRighthandPass root joinPlusRhs
    if more then closeRighthand root fuel rhs else rhs

/-- The constraints of lateral references: the join must be a nestloop with the
referencing relation inside. -/
def lateralIsLegal (scan : LegalScan) : Bool :=
  let lateralFwd := bmsOverlap rel1.relids rel2.lateralRelids
  let lateralRev := bmsOverlap rel2.relids rel1.lateralRelids
  let notNestloop (wrongWay : Bool) : Bool := match scan.matchSjinfo with
    | some sjinfo => wrongWay || scan.uniqueIfied || sjinfo.jointype = .full
    | none => false
  if lateralFwd && lateralRev then false
  else if lateralFwd && (notNestloop scan.reversed ||
      !bmsOverlap rel1.relids rel2.directLateralRelids ||
      haveDangerousPhv root rel1.relids rel2.lateralRelids) then false
  else if lateralRev && (notNestloop (!scan.reversed) ||
      !bmsOverlap rel2.relids rel1.directLateralRelids ||
      haveDangerousPhv root rel2.relids rel1.lateralRelids) then false
  else
    let joinLateralRels := minJoinParameterization joinrelids rel1 rel2
    joinLateralRels.isNone ||
      !bmsOverlap (closeRighthand root (root.joinInfoList.length + 1) joinrelids) joinLateralRels

/-- `join_is_legal`: on success the matching special join, and whether the inputs are
to be swapped. -/
def joinIsLegal :
    Option (Option SpecialJoinInfo × Bool) := do
  let scan ← root.joinInfoList.foldlM (checkSpecialJoin root rel1 rel2 joinrelids)
    ⟨none, false, false, false⟩
  let strictLeft := match scan.matchSjinfo with
    | some sjinfo => sjinfo.jointype = .left && sjinfo.lhsStrict
    | none => false
  if scan.mustBeLeftjoin && !strictLeft then none
  else if root.hasLateralRTEs && !lateralIsLegal root rel1 rel2 joinrelids scan then none
  else some (scan.matchSjinfo, scan.reversed)

/-! ## Join order restrictions -/

def hasLegalJoinclause (rel : SearchRel) : Bool :=
  root.initialRels.any fun rel2 =>
    !bmsOverlap rel.relids rel2.relids && haveRelevantJoinclause root rel rel2 &&
      (joinIsLegal root rel rel2 (bmsUnion rel.relids rel2.relids)).isSome

def haveJoinOrderRestriction : Bool :=
  if bmsOverlap rel1.relids rel2.directLateralRelids ||
      bmsOverlap rel2.relids rel1.directLateralRelids then true
  else if root.placeholderList.any fun phEvalAt =>
      bmsIsSubset rel1.relids phEvalAt && bmsIsSubset rel2.relids phEvalAt then true
  else
    let result := root.joinInfoList.any fun sjinfo =>
      sjinfo.jointype ≠ .full &&
        ((bmsIsSubset sjinfo.minLefthand rel1.relids &&
            bmsIsSubset sjinfo.minRighthand rel2.relids) ||
          (bmsIsSubset sjinfo.minLefthand rel2.relids &&
            bmsIsSubset sjinfo.minRighthand rel1.relids) ||
          (bmsOverlap sjinfo.minRighthand rel1.relids &&
            bmsOverlap sjinfo.minRighthand rel2.relids) ||
          (bmsOverlap sjinfo.minLefthand rel1.relids &&
            bmsOverlap sjinfo.minLefthand rel2.relids))
    result && !(hasLegalJoinclause root rel1 || hasLegalJoinclause root rel2)

def hasJoinRestriction (rel : SearchRel) : Bool :=
  rel.lateralRelids.isSome || rel.lateralReferencers.isSome ||
    (root.placeholderList.any fun phEvalAt =>
      bmsIsSubset rel.relids phEvalAt && !bmsEqual rel.relids phEvalAt) ||
    root.joinInfoList.any fun sjinfo =>
      sjinfo.jointype ≠ .full &&
        !(bmsIsSubset sjinfo.minLefthand rel.relids &&
          bmsIsSubset sjinfo.minRighthand rel.relids) &&
        (bmsOverlap sjinfo.minLefthand rel.relids || bmsOverlap sjinfo.minRighthand rel.relids)

/-! ## Building join relations -/

/-- `subbuild_joinrel_joinlist`: clauses not yet covered, without duplicates. -/
def subbuildJoinrelJoinlist (relids : Relids) (joininfoList newJoininfo : List RestrictInfo) :
    List RestrictInfo :=
  joininfoList.foldl (fun new rinfo =>
    if bmsIsSubset rinfo.requiredRelids relids then new
    else if rinfo ∈ new then new else new ++ [rinfo]) newJoininfo

/-- The fields `build_join_rel` fills in a new relation. -/
def buildJoinRel (outerRel innerRel : SearchRel) : SearchRel where
  relids := joinrelids
  joininfo := subbuildJoinrelJoinlist joinrelids innerRel.joininfo
    (subbuildJoinrelJoinlist joinrelids outerRel.joininfo [])
  hasEclassJoins := hasRelevantEclassJoinclause root.eqClasses joinrelids
  lateralRelids := minJoinParameterization joinrelids outerRel innerRel
  directLateralRelids :=
    bmsDelMembers (bmsUnion outerRel.directLateralRelids innerRel.directLateralRelids) joinrelids
  lateralReferencers := none

/-- The loop of `add_outer_joins_to_relids` over `join_info_list`. -/
def addCommutedJoin (sjinfo : SpecialJoinInfo) :
    Relids × Relids → SpecialJoinInfo → Relids × Relids
  | (relids, commuteAboveRels), othersj =>
    if othersj = sjinfo || othersj.ojrelid = 0 || othersj.jointype ≠ .left then
      (relids, commuteAboveRels)
    else if !bmsIsMember othersj.ojrelid commuteAboveRels then (relids, commuteAboveRels)
    else if !bmsIsMember othersj.ojrelid relids && bmsIsSubset othersj.minLefthand relids &&
        bmsIsSubset othersj.minRighthand relids && bmsIsSubset othersj.commuteBelowL relids then
      (bmsAddMember relids othersj.ojrelid,
        bmsAddMembers commuteAboveRels othersj.commuteAboveL)
    else (relids, commuteAboveRels)

def addOuterJoinsToRelids (inputRelids : Relids) :
    Option SpecialJoinInfo → Relids
  | none => inputRelids
  | some sjinfo =>
    if sjinfo.ojrelid = 0 then inputRelids
    else if sjinfo.jointype ≠ .left then bmsAddMember inputRelids sjinfo.ojrelid
    else if !bmsIsSubset sjinfo.commuteBelowL inputRelids then inputRelids
    else
      let relids := bmsAddMember inputRelids sjinfo.ojrelid
      if sjinfo.commuteAboveL.isSome then
        (root.joinInfoList.foldl (addCommutedJoin sjinfo) (relids, sjinfo.commuteAboveL)).1
      else relids

/-! ## The search -/

/-- `join_rel_level`, `join_cur_level`, `join_rel_list`, and the calls of
`make_join_rel` made so far. -/
structure SearchState where
  joinRelLevel : Nat → List SearchRel
  joinCurLevel : Nat
  joinRelList : List SearchRel
  calls : List (SearchRel × SearchRel)

variable (s : SearchState)

/-- `add_join_rel`, and the entry into the list of the current level. -/
def SearchState.addJoinRel (joinrel : SearchRel) : SearchState :=
  { s with
    joinRelList := s.joinRelList ++ [joinrel]
    joinRelLevel := Function.update s.joinRelLevel s.joinCurLevel
      (s.joinRelLevel s.joinCurLevel ++ [joinrel]) }

def makeJoinRel (rel1 rel2 : SearchRel) : SearchState :=
  let s := { s with calls := s.calls ++ [(rel1, rel2)] }
  let joinrelids := bmsUnion rel1.relids rel2.relids
  match joinIsLegal root rel1 rel2 joinrelids with
  | none => s
  | some (sjinfo, reversed) =>
    let joinrelids := addOuterJoinsToRelids root joinrelids sjinfo
    let (rel1, rel2) := if reversed then (rel2, rel1) else (rel1, rel2)
    -- `find_join_rel`
    if s.joinRelList.any fun rel => bmsEqual rel.relids joinrelids then s
    else s.addJoinRel (buildJoinRel root joinrelids rel1 rel2)

/-- The test of both clause-driven loops. -/
def clauseJoinable (oldRel otherRel : SearchRel) : Bool :=
  !bmsOverlap oldRel.relids otherRel.relids &&
    (haveRelevantJoinclause root oldRel otherRel || haveJoinOrderRestriction root oldRel otherRel)

def makeRelsByClauseJoins (oldRel : SearchRel) (otherRels : List SearchRel) :
    SearchState :=
  otherRels.foldl (fun s otherRel =>
    if clauseJoinable root oldRel otherRel then makeJoinRel root s oldRel otherRel else s) s

def makeRelsByClauselessJoins (oldRel : SearchRel) (otherRels : List SearchRel) :
    SearchState :=
  otherRels.foldl (fun s otherRel =>
    if !bmsOverlap otherRel.relids oldRel.relids then makeJoinRel root s oldRel otherRel else s) s

def hasJoinClause (rel : SearchRel) : Bool :=
  !rel.joininfo.isEmpty || rel.hasEclassJoins || hasJoinRestriction root rel

/-- The error both `join_search_one_level` and `standard_join_search` raise:
`failed to build any %d-way joins`. -/
structure FailedToBuild where
  ways : Nat
  deriving DecidableEq, Repr

variable (joinrels : Nat → List SearchRel) (level : Nat)

def leftRightPlans (s : SearchState) :
    SearchState :=
  (cells (joinrels (level - 1))).foldl (fun s (oldRel, rest) =>
    if hasJoinClause root oldRel then
      makeRelsByClauseJoins root s oldRel (if level = 2 then rest else joinrels 1)
    else makeRelsByClauselessJoins root s oldRel (joinrels 1)) s

/-- The body of the second loop for one `k`. -/
def bushyPlans (s : SearchState) (k : Nat) :
    SearchState :=
  (cells (joinrels k)).foldl (fun s (oldRel, rest) =>
    if !hasJoinClause root oldRel then s
    else makeRelsByClauseJoins root s oldRel
      (if k = level - k then rest else joinrels (level - k))) s

/-- The values of `k` for which the second loop runs: from 2 up to half the level. -/
def bushySizes : List Nat := List.range' 2 (level / 2 - 1)

def cartesianPlans (s : SearchState) :
    SearchState :=
  (joinrels (level - 1)).foldl (fun s oldRel =>
    makeRelsByClauselessJoins root s oldRel (joinrels 1)) s

/-- `join_search_one_level`.  Only the list of `level` changes while it runs, so the
lists it reads are those it starts with. -/
def joinSearchOneLevel :
    Except FailedToBuild SearchState :=
  let joinrels := s.joinRelLevel
  let s := { s with joinCurLevel := level }
  let s := leftRightPlans root joinrels level s
  let s := (bushySizes level).foldl (bushyPlans root joinrels level) s
  if (s.joinRelLevel level).isEmpty then
    let s := cartesianPlans root joinrels level s
    if (s.joinRelLevel level).isEmpty && root.joinInfoList.isEmpty && !root.hasLateralRTEs then
      .error ⟨level⟩
    else .ok s
  else .ok s

/-- The state `standard_join_search` sets up. -/
def startSearch : SearchState where
  joinRelLevel := fun level => if level = 1 then root.initialRels else []
  joinCurLevel := 0
  joinRelList := []
  calls := []

/-- `standard_join_search`, without the path generation between the levels: the final
state and the relation of the last level. -/
def standardJoinSearch : Except FailedToBuild (SearchState × SearchRel) := do
  let levelsNeeded := root.initialRels.length
  let s ← (List.range' 2 (levelsNeeded - 1)).foldlM (joinSearchOneLevel root) (startSearch root)
  match s.joinRelLevel levelsNeeded with
  | [] => .error ⟨levelsNeeded⟩
  | rel :: _ => .ok (s, rel)

end AthenaPG
