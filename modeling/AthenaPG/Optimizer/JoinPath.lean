import AthenaPG.Optimizer.AddPath

/-!
`add_paths_to_joinrel` (`src/backend/optimizer/path/joinpath.c`) with the fork's
root-candidate capture.

For the join relation it takes to be the root, the fork stashes `pathlist`,
lets the paths of this pair of input rels compete from an empty list, and
appends the winners behind the stash.

* `capture_iff_covers`: the test that recognises the root compares one
  truncated word of two bitmapsets.  It is right exactly when the two sets
  agree below relid 32 for the root, and differ there for every other join.
* `sorted_unless_appended_behind`: `pathlist` is sorted in every state of a run
  in which no capture appends a cheaper path behind a stashed one.
* `root_candidates_concat`: the root keeps the winners of all pairs.
-/

namespace AthenaPG

open Tournament

/-! ## Relations -/

inductive RelOptKind
  | baserel
  | joinrel
  | otherMemberRel
  | otherJoinrel
  | upperRel
  | otherUpperRel
  deriving DecidableEq, Repr

/-- What `add_paths_to_joinrel` reads and writes of a `RelOptInfo`.  A child
join always knows the relids of its topmost parent. -/
structure RelOptInfo where
  reloptkind : RelOptKind
  relids : Bitmapset
  topParentRelids : Relids
  parent : PathParent
  pathlist : List Path
  hasTopParent : reloptkind = .otherJoinrel → topParentRelids.isSome

/-- What it reads of `PlannerInfo`; a query with a join has base rels. -/
structure PlannerInfo where
  allBaserels : Bitmapset

/-- The `joinrelids` the function computes. -/
def joinrelids (joinrel : RelOptInfo) : Bitmapset :=
  if h : joinrel.reloptkind = .otherJoinrel then
    joinrel.topParentRelids.get (joinrel.hasTopParent h)
  else joinrel.relids

/-- A `bitmapword` cast to `int`. -/
def intOfWord (w : Bitmapword) : Int := (w.setWidth 32).toInt

variable (flags : JopFlags) (root : PlannerInfo)

/-- `rootrel_candidate_path`: is the capture branch taken? -/
def rootrelCandidatePath (joinrel : RelOptInfo) : Bool :=
  flags.enableJoinOrderPlans &&
    intOfWord root.allBaserels.firstWord == intOfWord (joinrelids joinrel).firstWord

/-- A path proposed for a join relation: the `try_*_path` functions build it
only if `add_path_precheck` accepts lower bounds of its costs, foreign-data
wrappers and hooks hand it to `add_path` directly. -/
inductive JoinOffer
  | tried (startupBound totalBound : ℚ) (path : Path)
  | direct (path : Path)

def JoinOffer.path : JoinOffer → Path
  | .tried _ _ path => path
  | .direct path => path

def tryPath (parent : PathParent) (pathlist : List Path) :
    JoinOffer → List Path
  | .tried startupBound totalBound path =>
    if addPathPrecheck parent startupBound totalBound path.pathkeys (pathReqOuter path) pathlist
    then addPath flags pathlist path
    else pathlist
  | .direct path => addPath flags pathlist path

/-- The proposals of one pair of input rels, in the order they are made. -/
def tryPaths (parent : PathParent) (pathlist : List Path) (offers : List JoinOffer) : List Path :=
  offers.foldl (tryPath flags parent) pathlist

/-- `add_paths_to_joinrel`: the new `pathlist`.  Which paths are proposed is
decided by the join methods; `offers` is that sequence. -/
def addPathsToJoinrel (joinrel : RelOptInfo) (offers : List JoinOffer) :
    List Path :=
  if rootrelCandidatePath flags root joinrel then
    let tmpList := joinrel.pathlist
    let built := tryPaths flags joinrel.parent [] offers
    if tmpList ≠ [] then tmpList ++ built else built
  else tryPaths flags joinrel.parent joinrel.pathlist offers

/-! ## Recognising the root -/

theorem wordBit_firstWord (s : Bitmapset) {x : Nat} (hx : x < 64) :
    s.firstWord.getLsbD x = wordBit s.words x := by
  obtain ⟨words, hm⟩ := s
  cases words with
  | nil => simp at hm
  | cons w ws => exact (wordBit_cons_low w ws hx).symm

theorem intOfWord_eq_iff (v w : Bitmapword) :
    intOfWord v = intOfWord w ↔ ∀ i < 32, v.getLsbD i = w.getLsbD i := by
  rw [intOfWord, intOfWord, BitVec.toInt_inj]
  constructor
  · intro h i hi
    have := congrArg (fun b => b.getLsbD i) h
    simpa [hi] using this
  · intro h
    apply BitVec.eq_of_getLsbD_eq
    intro i hi
    simp only [BitVec.getLsbD_setWidth, hi, decide_true, Bool.true_and]
    exact h i hi

/-- **What the test really asks**: the two sets agree below relid 32. -/
theorem rootrelCandidatePath_iff (hon : flags.enableJoinOrderPlans = true) (root : PlannerInfo)
    (joinrel : RelOptInfo) :
    rootrelCandidatePath flags root joinrel = true ↔
      ∀ x < 32, x ∈ (some root.allBaserels : Relids) ↔
        x ∈ (some (joinrelids joinrel) : Relids) := by
  simp only [rootrelCandidatePath, hon, Bool.true_and, beq_iff_eq, intOfWord_eq_iff]
  refine forall_congr' fun x => forall_congr' fun hx => ?_
  rw [wordBit_firstWord _ (by omega), wordBit_firstWord _ (by omega), mem_some_iff, mem_some_iff,
    Bool.eq_iff_iff]

def CoversQuery (joinrel : RelOptInfo) : Prop :=
  ∀ x, x ∈ (some root.allBaserels : Relids) → x ∈ (some (joinrelids joinrel) : Relids)

/-- The relids below 32 tell this join relation from the query as they should:
a covering join holds no other relid there (an outer-join relid would do), and a
smaller one lacks a base relid there or holds another relid there. -/
def LowRelidsDecide (joinrel : RelOptInfo) : Prop :=
  (CoversQuery root joinrel ∧ ∀ x < 32, x ∈ (some (joinrelids joinrel) : Relids) →
      x ∈ (some root.allBaserels : Relids)) ∨
  ((∃ y, y ∈ (some root.allBaserels : Relids) ∧ y ∉ (some (joinrelids joinrel) : Relids)) ∧
    ∃ x < 32, (x ∈ (some root.allBaserels : Relids) ∧ x ∉ (some (joinrelids joinrel) : Relids)) ∨
      (x ∈ (some (joinrelids joinrel) : Relids) ∧ x ∉ (some root.allBaserels : Relids)))

/-- **Root recognition.**  The capture branch is taken exactly for the joins that
cover the query if and only if the relids below 32 decide. -/
theorem capture_iff_covers (flags : JopFlags) (hon : flags.enableJoinOrderPlans = true)
    (root : PlannerInfo) (joinrel : RelOptInfo) :
    (rootrelCandidatePath flags root joinrel = true ↔ CoversQuery root joinrel) ↔
      LowRelidsDecide root joinrel := by
  rw [rootrelCandidatePath_iff flags hon]
  by_cases hc : CoversQuery root joinrel
  · have hno : ¬ ∃ y, y ∈ (some root.allBaserels : Relids) ∧
        y ∉ (some (joinrelids joinrel) : Relids) := by
      rintro ⟨y, hy, hny⟩
      exact hny (hc y hy)
    simp only [hc, iff_true, LowRelidsDecide, true_and, hno, false_and, or_false]
    constructor
    · intro h x hx; exact (h x hx).mpr
    · intro h x hx; exact ⟨hc x, h x hx⟩
  have hex : ∃ y, y ∈ (some root.allBaserels : Relids) ∧
      y ∉ (some (joinrelids joinrel) : Relids) := by
    unfold CoversQuery at hc
    push Not at hc
    exact hc
  simp only [hc, iff_false, LowRelidsDecide, false_and, false_or, hex, true_and]
  push Not
  refine exists_congr fun x => and_congr_right fun _ => ?_
  tauto

def oneWordSet (w : Bitmapword) (h : w ≠ 0) : Bitmapset := ⟨[w], w, by simp, h⟩

def emptyJoinrel (relids : Bitmapset) : RelOptInfo where
  reloptkind := .joinrel
  relids := relids
  topParentRelids := none
  parent := ⟨true, false⟩
  pathlist := []
  hasTopParent := by simp

/-- In a query over relids 1, 2 and 33 the join of 1 and 2 is taken for the
root, and in a query over 1 and 2 under outer join 3 the root is not. -/
theorem capture_misjudges :
    ¬ (rootrelCandidatePath ⟨true, false⟩ ⟨oneWordSet 0x200000006 (by decide)⟩
        (emptyJoinrel (oneWordSet 0x6 (by decide))) = true ↔
      CoversQuery ⟨oneWordSet 0x200000006 (by decide)⟩
        (emptyJoinrel (oneWordSet 0x6 (by decide)))) ∧
    ¬ (rootrelCandidatePath ⟨true, false⟩ ⟨oneWordSet 0x6 (by decide)⟩
        (emptyJoinrel (oneWordSet 0xe (by decide))) = true ↔
      CoversQuery ⟨oneWordSet 0x6 (by decide)⟩
        (emptyJoinrel (oneWordSet 0xe (by decide)))) := by
  constructor
  · intro h
    have hc := h.mp (by decide) 33 (by decide)
    exact absurd hc (by decide)
  · intro h
    have hs : CoversQuery ⟨oneWordSet 0x6 (by decide)⟩
        (emptyJoinrel (oneWordSet 0xe (by decide))) :=
      (bmsIsSubset_iff _ _).mp (by decide)
    exact absurd (h.mpr hs) (by decide)

/-- The join of both relations of a two-relation query is recognised. -/
theorem capture_iff_covers_two_rels :
    (rootrelCandidatePath ⟨true, false⟩ ⟨oneWordSet 0x6 (by decide)⟩
        (emptyJoinrel (oneWordSet 0x6 (by decide))) = true ↔
      CoversQuery ⟨oneWordSet 0x6 (by decide)⟩
        (emptyJoinrel (oneWordSet 0x6 (by decide)))) ↔
    LowRelidsDecide ⟨oneWordSet 0x6 (by decide)⟩ (emptyJoinrel (oneWordSet 0x6 (by decide))) :=
  capture_iff_covers ⟨true, false⟩ rfl _ _

/-! ## Sortedness over a run -/

variable {pathlist : List Path}

theorem tryPath_sorted (parent : PathParent)
    (h : SortedBy Path.totalCost pathlist) (o : JoinOffer) :
    SortedBy Path.totalCost (tryPath flags parent pathlist o) := by
  cases o with
  | tried startupBound totalBound path =>
    simp only [tryPath]
    split
    · exact addPath_sorted flags h path
    · exact h
  | direct path => exact addPath_sorted flags h path

theorem tryPaths_sorted (parent : PathParent)
    (h : SortedBy Path.totalCost pathlist) (os : List JoinOffer) :
    SortedBy Path.totalCost (tryPaths flags parent pathlist os) := by
  induction os generalizing pathlist with
  | nil => exact h
  | cons o os ih => exact ih (tryPath_sorted flags parent h o)

theorem mem_tryPath {flags : JopFlags} {parent : PathParent} {o : JoinOffer}
    {p : Path} (h : p ∈ tryPath flags parent pathlist o) : p = o.path ∨ p ∈ pathlist := by
  cases o with
  | tried startupBound totalBound path =>
    simp only [tryPath] at h
    split at h
    · exact mem_of_mem_offer _ _ path h
    · exact Or.inr h
  | direct path => exact mem_of_mem_offer _ _ path h

theorem mem_tryPaths {flags : JopFlags} {parent : PathParent}
    {os : List JoinOffer} {p : Path} (h : p ∈ tryPaths flags parent pathlist os) :
    p ∈ pathlist ∨ ∃ o ∈ os, p = o.path := by
  induction os generalizing pathlist with
  | nil => exact Or.inl h
  | cons o os ih =>
    obtain h | ⟨o', ho', rfl⟩ := ih h
    · obtain rfl | h := mem_tryPath h
      · exact Or.inr ⟨o, List.mem_cons_self .., rfl⟩
      · exact Or.inl h
    exact Or.inr ⟨o', List.mem_cons_of_mem _ ho', rfl⟩

/-- The calls that touch one relation, and the changes of the fork's switch
between them. -/
inductive RelOp
  | addPath (path : Path)
  | addPathsToJoinrel (offers : List JoinOffer)
  | setFinished (finished : Bool)

structure RelState where
  flags : JopFlags
  joinrel : RelOptInfo

namespace RelState

def withPathlist (s : RelState) (pathlist : List Path) : RelState :=
  { s with joinrel := { s.joinrel with pathlist := pathlist } }

@[simp] theorem withPathlist_pathlist (s : RelState) (l : List Path) :
    (s.withPathlist l).joinrel.pathlist = l := rfl

variable (root : PlannerInfo)

def step (s : RelState) : RelOp → RelState
  | .addPath path => s.withPathlist (AthenaPG.addPath s.flags s.joinrel.pathlist path)
  | .addPathsToJoinrel offers =>
    s.withPathlist (AthenaPG.addPathsToJoinrel s.flags root s.joinrel offers)
  | .setFinished finished =>
    { s with flags := { s.flags with saveJoinOrderPlanFinished := finished } }

def reached (root : PlannerInfo) (s : RelState) : List RelOp → List RelState
  | [] => [s]
  | op :: ops => s :: reached root (s.step root op) ops

/-- The step appends no proposed path behind a dearer stashed one. -/
def AppendsInOrder (s : RelState) : RelOp → Prop
  | .addPathsToJoinrel offers =>
    rootrelCandidatePath s.flags root s.joinrel = true →
      ∀ p ∈ s.joinrel.pathlist, ∀ o ∈ offers, p.totalCost ≤ o.path.totalCost
  | _ => True

/-- Every step of the run meets the condition in the state it is taken from. -/
def RunAppendsInOrder (root : PlannerInfo) (s : RelState) : List RelOp → Prop
  | [] => True
  | op :: ops => AppendsInOrder root s op ∧ RunAppendsInOrder root (s.step root op) ops

theorem step_sorted {s : RelState} {op : RelOp} (hs : SortedBy Path.totalCost s.joinrel.pathlist)
    (hop : AppendsInOrder root s op) :
    SortedBy Path.totalCost (s.step root op).joinrel.pathlist := by
  cases op with
  | addPath path => exact addPath_sorted s.flags hs path
  | setFinished finished => exact hs
  | addPathsToJoinrel offers =>
    simp only [step, withPathlist_pathlist, AthenaPG.addPathsToJoinrel]
    split
    next hc =>
      have hb : SortedBy Path.totalCost (tryPaths s.flags s.joinrel.parent [] offers) :=
        tryPaths_sorted _ _ List.Pairwise.nil offers
      split
      · refine List.pairwise_append.mpr ⟨hs, hb, ?_⟩
        intro p hp q hq
        obtain hq | ⟨o, ho, rfl⟩ := mem_tryPaths hq
        · simp at hq
        · exact hop hc p hp o ho
      · exact hb
    · exact tryPaths_sorted _ _ hs offers

/-- **`pathlist` stays sorted** in every state of a run that never appends a
cheaper path behind a stashed one; with the fork's switch off that is every
run. -/
theorem sorted_unless_appended_behind (root : PlannerInfo) (ops : List RelOp) :
    ∀ s : RelState, s.joinrel.pathlist = [] → RunAppendsInOrder root s ops →
      ∀ s' ∈ reached root s ops, SortedBy Path.totalCost s'.joinrel.pathlist := by
  have hr : ∀ s : RelState, SortedBy Path.totalCost s.joinrel.pathlist →
      RunAppendsInOrder root s ops →
      ∀ s' ∈ reached root s ops, SortedBy Path.totalCost s'.joinrel.pathlist := by
    induction ops with
    | nil =>
      intro s hs _ s' hs'
      rw [List.mem_singleton.mp hs']
      exact hs
    | cons op ops ih =>
      intro s hs hm s' hs'
      obtain rfl | hs' := List.mem_cons.mp hs'
      · exact hs
      · exact ih _ (step_sorted root hs hm.1) hm.2 s' hs'
  intro s hn hm
  exact hr s (by rw [hn]; exact List.Pairwise.nil) hm

/-- The calls for the pairs of input rels of one join relation. -/
def addAllPaths (s : RelState) (calls : List (List JoinOffer)) : RelState :=
  calls.foldl (fun s offers => s.step root (.addPathsToJoinrel offers)) s

/-- The join of two relations, with the fork's switch on and no paths yet. -/
def twoRelStart : RelState := ⟨⟨true, false⟩, emptyJoinrel (oneWordSet 0x6 (by decide))⟩

def twoRelRoot : PlannerInfo := ⟨oneWordSet 0x6 (by decide)⟩

theorem addPathsToJoinrel_capture {s : RelState}
    (hc : rootrelCandidatePath s.flags root s.joinrel = true) (os : List JoinOffer) :
    (s.step root (.addPathsToJoinrel os)).joinrel.pathlist =
      s.joinrel.pathlist ++ tryPaths s.flags s.joinrel.parent [] os := by
  simp only [step, withPathlist_pathlist, AthenaPG.addPathsToJoinrel, hc, if_true]
  split
  · rfl
  next hn => rw [not_not.mp hn, List.nil_append]

/-- **Root candidates are neither lost nor duplicated.**  The calls that capture leave in
`pathlist`, behind what was there, what each of them has made of its own offers, in order. -/
theorem root_candidates_concat (root : PlannerInfo) (s : RelState)
    (hcapture : rootrelCandidatePath s.flags root s.joinrel = true)
    (calls : List (List JoinOffer)) :
    (addAllPaths root s calls).joinrel.pathlist =
      s.joinrel.pathlist ++ calls.flatMap (tryPaths s.flags s.joinrel.parent []) := by
  induction calls generalizing s with
  | nil => simp [addAllPaths]
  | cons offers calls ih =>
    have hr := ih (s.step root (.addPathsToJoinrel offers)) hcapture
    rw [addPathsToJoinrel_capture root hcapture] at hr
    rw [List.flatMap_cons, ← List.append_assoc]
    exact hr

/-- Two calls; the path of the first stays although the second offers a cheaper one. -/
theorem root_candidates_concat_two :
    (addAllPaths twoRelRoot twoRelStart [[.direct (plainPath 1 10 [])],
        [.direct (plainPath 1 5 [])]]).joinrel.pathlist =
      [] ++ [[.direct (plainPath 1 10 [])], [.direct (plainPath 1 5 [])]].flatMap
        (tryPaths ⟨true, false⟩ ⟨true, false⟩ []) :=
  root_candidates_concat twoRelRoot twoRelStart (by decide +kernel) _

/-- Two calls for the root, the second offering a cheaper path: it stands last. -/
theorem appended_behind_unsorted :
    ∃ s' ∈ reached twoRelRoot twoRelStart
        [.addPathsToJoinrel [.direct (plainPath 1 10 [])],
          .addPathsToJoinrel [.direct (plainPath 1 5 [])]],
      s'.joinrel.pathlist = [plainPath 1 10 [], plainPath 1 5 []] ∧
      ¬ SortedBy Path.totalCost s'.joinrel.pathlist := by
  refine ⟨(twoRelStart.step twoRelRoot (.addPathsToJoinrel [.direct (plainPath 1 10 [])])).step
    twoRelRoot (.addPathsToJoinrel [.direct (plainPath 1 5 [])]), by simp [reached], ?_, ?_⟩ <;>
    decide +kernel

/-- The same two calls in the order of their costs. -/
theorem sorted_unless_appended_behind_two_calls :
    rootrelCandidatePath twoRelStart.flags twoRelRoot twoRelStart.joinrel = true ∧
    ∀ s' ∈ reached twoRelRoot twoRelStart
        [.addPathsToJoinrel [.direct (plainPath 1 5 [])],
          .addPathsToJoinrel [.direct (plainPath 1 10 [])]],
      SortedBy Path.totalCost s'.joinrel.pathlist := by
  refine ⟨by decide +kernel, ?_⟩
  apply sorted_unless_appended_behind twoRelRoot _ twoRelStart rfl
  refine ⟨?_, ?_, trivial⟩
  · intro _ p hp
    simp [twoRelStart, emptyJoinrel] at hp
  intro _ p hp o ho
  rw [List.mem_singleton.mp hp, List.mem_singleton.mp ho]
  norm_num [plainPath, JoinOffer.path]

end RelState

end AthenaPG
