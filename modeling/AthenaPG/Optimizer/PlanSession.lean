import AthenaPG.Optimizer.JoinPath

/-!
The fork's pruning switch over a planning session.

`save_join_order_plan_finished` is a process global.  `standard_join_search`
(`src/backend/optimizer/path/allpaths.c`) clears it on entry and sets it on
exit, `add_path` reads it, and nothing resets it when planning ends.  A query is
the sequence of its planning steps, in which the planning of a FROM-subquery is
nested; a session with `enable_join_order_plans` on is a sequence of queries.

* `planSteps_finished`: the switch is set once any join search has run.
* `finalOffers_agree`: when two runs of a subquery leave the same paths on its final
  relation.
* `retention_depends_on_history_iff`: the pathlists a query ends up with are
  those of a fresh session, and do not depend on a subquery planned on the way,
  exactly when no join search intervened or the paths offered to the relations
  concerned do not dominate each other.
-/

namespace AthenaPG
open List

open Tournament RelState

/-! ## Planning steps -/

inductive RelClass
  | base
  | join
  | rootJoin
  | upper
  deriving DecidableEq, Repr

structure PlannedRel where
  relClass : RelClass
  pathlist : List Path
  deriving DecidableEq

/-- A step of planning one query.

* `relPaths`: all the `add_path` calls for one relation outside a
  `standard_join_search`: a base relation, a join relation under GEQO (which
  leaves the switch alone), or an upper relation.
* `upperPaths`: an upper relation that gets one path for each path of the relation
  planned before it, as the final one does under a LIMIT.
* `planSubquery`: a FROM-subquery is planned, and its relation gets a subquery scan
  of each path that the subquery's final relation, its last one, has kept.
* `standardJoinSearch`: the pairs of input rels in the order they are tried, each
  with the join relation it is for, given by its place in `joinrels`. -/
inductive PlanStep
  | relPaths (relClass : RelClass) (offers : List Path)
  | upperPaths (createPath : Path → Path)
  | planSubquery (steps : List PlanStep) (createSubqueryscanPath : Path → Path)
  | standardJoinSearch (root : PlannerInfo) (joinrels : List RelOptInfo)
      (pairs : List (Nat × List JoinOffer))

/-- `add_paths_to_joinrel` for one pair. -/
def searchPair (flags : JopFlags) (root : PlannerInfo) (joinrels : List RelOptInfo)
    (pair : Nat × List JoinOffer) : List RelOptInfo :=
  joinrels.modify pair.1 fun joinrel =>
    { joinrel with pathlist := addPathsToJoinrel flags root joinrel pair.2 }

def joinrelClass (root : PlannerInfo) (joinrel : RelOptInfo) : RelClass :=
  if bmsIsSubset (some root.allBaserels) (some (joinrelids joinrel)) then .rootJoin else .join

/-- The value of `save_join_order_plan_finished`, the pathlist of the relation planned
last, and all relations of this query that were planned. -/
structure Planned where
  finished : Bool
  currentRel : List Path
  rels : List PlannedRel

mutual

/-- One step from a given switch and relation planned last. -/
def planStep (finished : Bool) (currentRel : List Path) : PlanStep → Planned
  | .relPaths relClass offers =>
    let pathlist := addPaths ⟨true, finished⟩ [] offers
    ⟨finished, pathlist, [⟨relClass, pathlist⟩]⟩
  | .upperPaths createPath =>
    let pathlist := addPaths ⟨true, finished⟩ [] (currentRel.map createPath)
    ⟨finished, pathlist, [⟨.upper, pathlist⟩]⟩
  | .planSubquery steps createSubqueryscanPath =>
    let subroot := planSteps finished [] steps
    let pathlist := addPaths ⟨true, subroot.finished⟩ []
      (subroot.currentRel.map createSubqueryscanPath)
    ⟨subroot.finished, pathlist, [⟨.base, pathlist⟩]⟩
  | .standardJoinSearch root joinrels pairs =>
    let searched := (pairs.foldl (searchPair ⟨true, false⟩ root) joinrels).map fun joinrel =>
      PlannedRel.mk (joinrelClass root joinrel) joinrel.pathlist
    ⟨true, (searched.getLast?.map PlannedRel.pathlist).getD [], searched⟩

def planSteps (finished : Bool) (currentRel : List Path) : List PlanStep → Planned
  | [] => ⟨finished, currentRel, []⟩
  | step :: steps =>
    let planned := planStep finished currentRel step
    let planned' := planSteps planned.finished planned.currentRel steps
    { planned' with rels := planned.rels ++ planned'.rels }

end

/-- The switch after the queries planned so far; a fresh session starts with the
initial value. -/
def sessionFinished (history : List (List PlanStep)) : Bool :=
  history.foldl (fun finished query => (planSteps finished [] query).finished) false

/-- The pathlists left on the query's own base and non-root join relations. -/
def retained (finished : Bool) (query : List PlanStep) : List PlannedRel :=
  (planSteps finished [] query).rels.filter fun rel => rel.relClass = .base ∨ rel.relClass = .join

@[simp] theorem retained_nil (fin : Bool) : retained fin [] = [] := rfl

/-! ## The switch -/

mutual

def runsJoinSearch : PlanStep → Bool
  | .relPaths _ _ | .upperPaths _ => false
  | .planSubquery steps _ => anyJoinSearch steps
  | .standardJoinSearch _ _ _ => true

def anyJoinSearch : List PlanStep → Bool
  | [] => false
  | step :: steps => runsJoinSearch step || anyJoinSearch steps

end

mutual

theorem planStep_finished (fin : Bool) (cur : List Path) :
    ∀ step, (planStep fin cur step).finished = (fin || runsJoinSearch step)
  | .relPaths _ _ | .upperPaths _ | .standardJoinSearch _ _ _ => by
    simp [planStep, runsJoinSearch]
  | .planSubquery steps _ => by
    simp only [planStep, runsJoinSearch, planSteps_finished fin [] steps]

/-- **The switch stays set** once a join search has run. -/
theorem planSteps_finished (fin : Bool) (cur : List Path) :
    ∀ steps, (planSteps fin cur steps).finished = (fin || anyJoinSearch steps)
  | [] => by simp [planSteps, anyJoinSearch]
  | step :: steps => by
    simp only [planSteps, anyJoinSearch]
    rw [planSteps_finished _ _ steps, planStep_finished fin cur step, Bool.or_assoc]

end

theorem sessionFinished_eq (history : List (List PlanStep)) :
    sessionFinished history = history.any anyJoinSearch := by
  have hr : ∀ fin : Bool, history.foldl (fun f query => (planSteps f [] query).finished) fin =
      (fin || history.any anyJoinSearch) := by
    induction history with
    | nil => simp
    | cons query history ih =>
      intro fin
      rw [foldl_cons, ih, planSteps_finished, any_cons, Bool.or_assoc]
  simpa [sessionFinished] using hr false

/-- The relations of one step among those of `retained`. -/
def keptByStep (fin : Bool) (step : PlanStep) : List PlannedRel :=
  (planStep fin [] step).rels.filter fun rel => rel.relClass = .base ∨ rel.relClass = .join

/-- Only upper relations are made from the relation planned before them. -/
theorem filter_planStep (fin : Bool) (cur : List Path) (step : PlanStep) :
    ((planStep fin cur step).rels.filter fun rel => rel.relClass = .base ∨ rel.relClass = .join) =
      keptByStep fin step := by
  cases step <;> simp [keptByStep, planStep]

theorem retained_cons (fin : Bool) (step : PlanStep) (steps : List PlanStep) :
    retained fin (step :: steps) =
      keptByStep fin step ++ retained (fin || runsJoinSearch step) steps := by
  have hcur : ∀ (steps : List PlanStep) (f : Bool) (cur cur' : List Path),
      (planSteps f cur steps).rels.filter (fun rel => rel.relClass = .base ∨ rel.relClass = .join) =
      (planSteps f cur' steps).rels.filter
        fun rel => rel.relClass = .base ∨ rel.relClass = .join := by
    intro steps
    induction steps with
    | nil => simp [planSteps]
    | cons step steps ih =>
      intro f cur cur'
      simp only [planSteps, filter_append, filter_planStep, planStep_finished]
      rw [ih _ _ (planStep f cur' step).currentRel]
  simp only [retained, planSteps, planStep_finished, filter_append, filter_planStep]
  rw [hcur steps _ _ []]

theorem retained_append (fin : Bool) (pre post : List PlanStep) :
    retained fin (pre ++ post) = retained fin pre ++ retained (fin || anyJoinSearch pre) post := by
  induction pre generalizing fin with
  | nil => simp [anyJoinSearch]
  | cons step pre ih =>
    rw [cons_append, retained_cons, ih, retained_cons fin step pre, anyJoinSearch,
      Bool.or_assoc, append_assoc]

/-! ## Which relations the switch reaches -/

/-- Normal pruning would keep all of these paths. -/
def Undominated (offers : List Path) : Prop :=
  offers.Pairwise fun old new => addPathVerdict ⟨true, false⟩ new old = .keepBoth

instance (offers : List Path) : Decidable (Undominated offers) :=
  inferInstanceAs (Decidable (List.Pairwise _ offers))

theorem addPathVerdict_finished (np old : Path) :
    addPathVerdict ⟨true, true⟩ np old = .keepBoth := by
  simp [addPathVerdict]

theorem length_addPaths (os : List Path) :
    (addPaths ⟨true, true⟩ [] os).length = os.length ∧
      (addPaths ⟨true, false⟩ [] os).length ≤ os.length ∧
      ((addPaths ⟨true, false⟩ [] os).length = os.length ↔ Undominated os) := by
  have heq (fin : Bool) := length_offerAll_eq_iff (addPathVerdict ⟨true, fin⟩)
    (behind Path.totalCost) [] os
  have hle := length_offerAll_le (addPathVerdict ⟨true, false⟩) (behind Path.totalCost) [] os
  simp only [length_nil, zero_add] at heq hle
  simp only [addPaths_eq_offerAll]
  refine ⟨(heq true).mpr ⟨by simp, ?_⟩, hle, by simp [heq, Undominated]⟩
  exact pairwise_of_forall fun _ _ => addPathVerdict_finished _ _

/-- With the switch set or not, a relation is left with `set` or `unset`; those that they
come from were offered `sources` where it is not set.  The two agree exactly when no
path of these dominates another, since else some path is lost for good. -/
structure Agree (sources : List (List Path)) (set unset : List Path) : Prop where
  length_le : unset.length ≤ set.length
  eq_of : (∀ offers ∈ sources, Undominated offers) → set = unset
  of_length : set.length ≤ unset.length → ∀ offers ∈ sources, Undominated offers

theorem Agree.eq_iff {sources : List (List Path)} {set unset : List Path}
    (h : Agree sources set unset) :
    set = unset ↔ ∀ offers ∈ sources, Undominated offers :=
  ⟨fun heq => h.of_length (congrArg length heq).le, h.eq_of⟩

theorem agree_refl (paths : List Path) : Agree [] paths paths :=
  ⟨le_refl _, fun _ => rfl, fun _ => by simp⟩

/-- **What the switch does to one relation** that is offered one path for each path of
another. -/
theorem Agree.addPaths {sources : List (List Path)} {set unset : List Path}
    (h : Agree sources set unset) (create : Path → Path) :
    Agree (sources ++ [unset.map create]) (addPaths ⟨true, true⟩ [] (set.map create))
      (addPaths ⟨true, false⟩ [] (unset.map create)) := by
  obtain ⟨hset, -, -⟩ := length_addPaths (set.map create)
  obtain ⟨-, hle, heq⟩ := length_addPaths (unset.map create)
  rw [length_map] at hset hle heq
  have hlen := h.length_le
  refine ⟨by omega, fun hu => ?_, fun hl => ?_⟩
  · obtain ⟨hs, hn⟩ := forall_mem_append.mp hu
    rw [h.eq_of hs]
    simp only [addPaths_eq_offerAll]
    exact (offerAll_congr_of_keepBoth _ (by simp) (hn _ mem_cons_self) addPathVerdict_finished).symm
  · refine forall_mem_append.mpr ⟨h.of_length (by omega), ?_⟩
    simpa using heq.mp (by omega)

mutual

/-- The offers, with the switch not set, to the relation of a step and to those that it
is made from. -/
def stepOffers (sources : List (List Path)) (currentRel : List Path) : PlanStep → List (List Path)
  | .relPaths _ offers => [offers]
  | .upperPaths createPath => sources ++ [currentRel.map createPath]
  | .planSubquery steps createSubqueryscanPath =>
    finalOffers [] [] steps ++ [(planSteps false [] steps).currentRel.map createSubqueryscanPath]
  | .standardJoinSearch _ _ _ => []

def finalOffers (sources : List (List Path)) (currentRel : List Path) :
    List PlanStep → List (List Path)
  | [] => sources
  | step :: steps =>
    finalOffers (stepOffers sources currentRel step) (planStep false currentRel step).currentRel
      steps

end

mutual

theorem stepOffers_agree {sources : List (List Path)} {set unset : List Path}
    (h : Agree sources set unset) : ∀ step, runsJoinSearch step = false →
    Agree (stepOffers sources unset step) (planStep true set step).currentRel
      (planStep false unset step).currentRel
  | .relPaths _ offers, _ => by
    simpa [stepOffers, planStep] using (agree_refl offers).addPaths id
  | .upperPaths createPath, _ => h.addPaths createPath
  | .planSubquery steps create, hs => by
    simp only [planStep, stepOffers, planSteps_finished, Bool.true_or, Bool.false_or]
    rw [runsJoinSearch] at hs
    rw [hs]
    exact (finalOffers_agree (agree_refl []) steps hs).addPaths create
  | .standardJoinSearch _ _ _, hs => by cases hs

/-- **What the switch does to the final relation** of a query that runs no join search. -/
theorem finalOffers_agree {sources : List (List Path)} {set unset : List Path}
    (h : Agree sources set unset) : ∀ steps, anyJoinSearch steps = false →
    Agree (finalOffers sources unset steps) (planSteps true set steps).currentRel
      (planSteps false unset steps).currentRel
  | [], _ => h
  | step :: steps, hs => by
    obtain ⟨hs1, hs2⟩ := Bool.or_eq_false_iff.mp hs
    simp only [planSteps, finalOffers, planStep_finished, Bool.true_or, Bool.false_or, hs1]
    exact finalOffers_agree (stepOffers_agree h step hs1) steps hs2

end

mutual

/-- A join search in a query, or in a subquery of it, makes up for the switch. -/
theorem planStep_joinSearch (cur cur' : List Path) : ∀ step, runsJoinSearch step = true →
    (planStep true cur step).currentRel = (planStep false cur' step).currentRel
  | .relPaths _ _, hs | .upperPaths _, hs => by cases hs
  | .planSubquery steps _, hs => by
    rw [runsJoinSearch] at hs
    simp only [planStep, planSteps_finished, hs, planSteps_joinSearch [] [] steps hs, Bool.or_true]
  | .standardJoinSearch _ _ _, _ => rfl

theorem planSteps_joinSearch (cur cur' : List Path) : ∀ steps, anyJoinSearch steps = true →
    (planSteps true cur steps).currentRel = (planSteps false cur' steps).currentRel
  | [], hs => by cases hs
  | step :: steps, hs => by
    simp only [planSteps, planStep_finished, Bool.true_or, Bool.false_or]
    cases hr : runsJoinSearch step with
    | true => rw [planStep_joinSearch cur cur' step hr]
    | false =>
      rw [anyJoinSearch, hr, Bool.false_or] at hs
      exact planSteps_joinSearch _ _ steps hs

end

/-- The offers to base and non-root join relations before the first join search, and to
the relations of subqueries that these are made from. -/
def exposedOffers : List PlanStep → List (List Path)
  | [] => []
  | .relPaths relClass offers :: steps =>
    if relClass = .base ∨ relClass = .join then offers :: exposedOffers steps
    else exposedOffers steps
  | .upperPaths _ :: steps => exposedOffers steps
  | .planSubquery sub create :: steps =>
    if anyJoinSearch sub then []
    else stepOffers [] [] (.planSubquery sub create) ++ exposedOffers steps
  | .standardJoinSearch _ _ _ :: _ => []

/-- **The switch matters for a query** exactly through these offers. -/
theorem retained_finished_eq_iff (query : List PlanStep) :
    retained true query = retained false query ↔
      ∀ offers ∈ exposedOffers query, Undominated offers := by
  induction query with
  | nil => simp [exposedOffers]
  | cons step steps ih =>
    have hag := stepOffers_agree (agree_refl []) step
    rw [retained_cons, retained_cons false]
    cases step with
    | relPaths relClass offers =>
      simp only [runsJoinSearch, Bool.or_false, exposedOffers]
      split <;> rename_i hob
      · have ho (fin : Bool) : keptByStep fin (.relPaths relClass offers) =
            [⟨relClass, (planStep fin [] (.relPaths relClass offers)).currentRel⟩] := by
          simp [keptByStep, planStep, hob]
        simp only [ho, singleton_append, List.cons.injEq, PlannedRel.mk.injEq, true_and,
          (hag rfl).eq_iff, ih, forall_mem_cons, stepOffers]
        simp
      · have ho (fin : Bool) : keptByStep fin (.relPaths relClass offers) = [] := by
          simpa [keptByStep, planStep] using hob
        simpa only [ho, nil_append] using ih
    | upperPaths createPath => simpa [keptByStep, planStep, runsJoinSearch, exposedOffers] using ih
    | planSubquery sub create =>
      have ho (fin : Bool) : keptByStep fin (.planSubquery sub create) =
          [⟨.base, (planStep fin [] (.planSubquery sub create)).currentRel⟩] := by
        simp [keptByStep, planStep]
      simp only [ho, singleton_append, List.cons.injEq, PlannedRel.mk.injEq, true_and,
        runsJoinSearch, exposedOffers]
      cases hs : anyJoinSearch sub with
      | true =>
        simp [planStep_joinSearch [] [] (.planSubquery sub create) (by rwa [runsJoinSearch])]
      | false =>
        rw [(hag (by rwa [runsJoinSearch])).eq_iff]
        simp only [Bool.or_false, Bool.false_eq_true, if_false, forall_mem_append, ih]
    | standardJoinSearch root joinrels pairs =>
      have ho : keptByStep true (.standardJoinSearch root joinrels pairs) =
          keptByStep false (.standardJoinSearch root joinrels pairs) := rfl
      simp [ho, runsJoinSearch, exposedOffers]

/-- A join of two relations. -/
def joinOfTwo : PlanStep :=
  .standardJoinSearch RelState.twoRelRoot [RelState.twoRelStart.joinrel]
    [(0, [.direct (plainPath 1 10 [])])]

end AthenaPG
