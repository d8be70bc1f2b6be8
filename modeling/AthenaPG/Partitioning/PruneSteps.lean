import AthenaPG.Executor.TupleRouting
import AthenaPG.Partitioning.PartPrune

/-!
Pruning steps under any partitioning strategy, and list and hash pruning
(`src/backend/partitioning/partprune.c`).

A step yields offsets of bounds and two flags, for the null-accepting and the default
partition.  A row has one place in such a result, and every step keeps the place of a
row that satisfies its condition.

* `unionResults_keeps`, `intersectResults_keeps`: combine steps.
* `performSteps_keeps`: the loop over all steps.
* `performListBaseStep_keeps`, `performHashBaseStep_keeps`: operator steps.
* `pruning_keeps_routed`: the partition a satisfying row is routed to survives.
-/

namespace AthenaPG
open List Function

open Bisection Comparator Numbering TupleKey
open Or (inl inr)

variable {D B : Type}

/-! ## List bounds -/

section ListBounds

variable (key : ListPartitionKey D) (boundinfo : PartitionBoundInfo D)

/-- `bound_offsets` under `BTGreaterEqualStrategyNumber` (inclusive) or
`BTGreaterStrategyNumber`. -/
def listGreaterOffsets (off : Int) (isEqual inclusive : Bool) : Relids :=
  let minoff :=
    if 0 ≤ off then (if !isEqual || !inclusive then (off + 1).toNat else off.toNat)
    -- all bounds are greater
    else 0
  if boundinfo.ndatums - 1 < minoff then none
  else bmsAddRange none minoff (boundinfo.ndatums - 1)

/-- `bound_offsets` under `BTLessEqualStrategyNumber` (inclusive) or
`BTLessStrategyNumber`. -/
def listLessOffsets (off : Int) (isEqual inclusive : Bool) : Relids :=
  let maxoff := if 0 ≤ off ∧ isEqual ∧ !inclusive then off - 1 else off
  if maxoff < 0 then none else bmsAddRange none 0 maxoff.toNat

/-- `get_matching_list_bounds`; no value is `nvalues = 0`. -/
def getMatchingListBounds (opstrategy : StrategyNumber) (value : Option D) (nullkeys : Relids) :
    Except PruneError PruneStepResult :=
  if nullkeys ≠ none then
    if boundinfo.acceptsNulls then .ok ⟨none, false, true⟩
    else .ok ⟨none, boundinfo.hasDefault, false⟩
  else if boundinfo.ndatums = 0 then .ok ⟨none, boundinfo.hasDefault, false⟩
  else
    match value with
    | none => .ok ⟨allOffsets boundinfo.ndatums, boundinfo.hasDefault, false⟩
    | some value =>
      let (off, isEqual) := partitionListBsearch key.partsupfunc boundinfo value
      let found := 0 ≤ off ∧ isEqual
      let offsets (boundOffsets : Relids) : Except PruneError PruneStepResult :=
        .ok ⟨boundOffsets, boundinfo.hasDefault, false⟩
      match opstrategy with
      -- `InvalidStrategy`: the value comes from a `<>` clause
      | .other 0 =>
        let all := allOffsets boundinfo.ndatums
        offsets (if found then bmsDelMember all off.toNat else all)
      | .equal =>
        if found then .ok ⟨bmsMakeSingleton off.toNat, false, false⟩ else offsets none
      | .greaterEqual => offsets (listGreaterOffsets boundinfo off isEqual true)
      | .greater => offsets (listGreaterOffsets boundinfo off isEqual false)
      | .lessEqual => offsets (listLessOffsets off isEqual true)
      | .less => offsets (listLessOffsets off isEqual false)
      | .other number => .error (.invalidStrategyNumber number)

end ListBounds

/-! ## Hash bounds -/

/-- `values` as `compute_partition_hash_value` reads them, with `isnull` set from
`nullkeys`. -/
def maskNulls (nullkeys : Relids) : Nat → List (Option D) → List (Option D)
  | _, [] => []
  | keyno, value :: values =>
    (if keyno ∈ nullkeys then none else value) :: maskNulls nullkeys (keyno + 1) values

/-- `get_matching_hash_bounds`; `values` has an entry for each key, `none` where no
value was found.  `opstrategy` is only asserted to be `HTEqualStrategyNumber`. -/
def getMatchingHashBounds (key : HashPartitionKey D) (boundinfo : PartitionBoundInfo Nat)
    (values : List (Option D)) (nullkeys : Relids) : PruneStepResult :=
  if values.countP Option.isSome + bmsNumMembers nullkeys = key.partnatts then
    let rowHash := computePartitionHashValue key (maskNulls nullkeys 0 values)
    let off := rowHash % boundinfo.indexes.length
    ⟨if 0 ≤ boundinfo.index off then bmsMakeSingleton off else none, false, false⟩
  else ⟨allOffsets boundinfo.indexes.length, false, false⟩

/-! ## Operator steps -/

/-- The loop of `perform_pruning_base_step` over the key columns from `keyno` on, under
a strategy other than range; `none` if a comparison value is null. -/
def gatherKeyValues (nullkeys : Relids) : Nat → Nat → List (Option D) → Option (List (Option D))
  | 0, _, _ => some []
  | remaining + 1, keyno, exprs =>
    if keyno ∈ nullkeys then (gatherKeyValues nullkeys remaining (keyno + 1) exprs).map (none :: ·)
    else
      match exprs with
      | [] => (gatherKeyValues nullkeys remaining (keyno + 1) []).map (none :: ·)
      | none :: _ => none
      | some datum :: exprs =>
        (gatherKeyValues nullkeys remaining (keyno + 1) exprs).map (some datum :: ·)

/-- `perform_pruning_base_step` under `PARTITION_STRATEGY_LIST`. -/
def performListBaseStep (key : ListPartitionKey D) (boundinfo : PartitionBoundInfo D)
    (opstep : PartitionPruneStepOp D) : Except PruneError PruneStepResult :=
  match gatherKeyValues opstep.nullkeys 1 0 opstep.exprs with
  | none => .ok ⟨none, false, false⟩
  | some values =>
    getMatchingListBounds key boundinfo opstep.opstrategy (values.head?.join) opstep.nullkeys

/-- `perform_pruning_base_step` under `PARTITION_STRATEGY_HASH`. -/
def performHashBaseStep (key : HashPartitionKey D) (boundinfo : PartitionBoundInfo Nat)
    (opstep : PartitionPruneStepOp D) : Except PruneError PruneStepResult :=
  match gatherKeyValues opstep.nullkeys key.partnatts 0 opstep.exprs with
  | none => .ok ⟨none, false, false⟩
  | some values => .ok (getMatchingHashBounds key boundinfo values opstep.nullkeys)

inductive DiscreteTable (D : Type)
  | hash (key : HashPartitionKey D) (specs : List HashBoundSpec)
  | list (key : ListPartitionKey D) (specs : List (ListBoundSpec D))

open DiscreteTable

namespace DiscreteTable

def table : DiscreteTable D → PartitionedTable D
  | .hash key specs => .hash key specs
  | .list key specs => .list key specs

/-- `get_matching_partitions` over the bounds built for a table. -/
def partitionPruning : DiscreteTable D → Except ListBoundsError
    (List (PartitionPruneStep D) → Except PruneError Relids)
  | .hash key specs =>
    let (boundinfo, _) := createHashBounds specs
    .ok (PruneContext.getMatchingPartitions
      ⟨boundinfo, specs.length, performHashBaseStep key boundinfo⟩)
  | .list key specs => do
    let (boundinfo, _) ← createListBounds key specs
    .ok (PruneContext.getMatchingPartitions
      ⟨boundinfo, specs.length, performListBaseStep key boundinfo⟩)

end DiscreteTable

/-! ## Conditions -/

/-- The result of a comparison that an operator of this strategy accepts, where
`InvalidStrategy` stands for `<>`. -/
def StrategyNumber.ListAccepts : StrategyNumber → Int → Prop
  | .other 0, cmpval => cmpval ≠ 0
  | opstrategy, cmpval => opstrategy.Accepts cmpval

/-- The condition a list step stands for, on the key of a row.  A step with a null key
is `IS NULL`, one without values `IS NOT NULL`. -/
def ListStepHolds (key : ListPartitionKey D) (opstep : PartitionPruneStepOp D)
    (rowValue : Option D) : Prop :=
  if opstep.nullkeys ≠ none then rowValue = none
  else
    match opstep.exprs with
    | [] => rowValue.isSome = true
    | none :: _ => False
    | some value :: _ => ∃ rowDatum, rowValue = some rowDatum ∧
      opstep.opstrategy.ListAccepts (key.partsupfunc rowDatum value)

/-- The condition a hash step stands for, on the columns from `keyno` on: those in
`nullkeys` are null, the others equal the values in turn. -/
def HashStepHoldsFrom (nullkeys : Relids) :
    Nat → List (HashColumn D) → List (Option D) → List (Option D) → Prop
  | keyno, column :: columns, rowValue :: row, exprs =>
    if keyno ∈ nullkeys then
      rowValue = none ∧ HashStepHoldsFrom nullkeys (keyno + 1) columns row exprs
    else
      match exprs with
      | [] => HashStepHoldsFrom nullkeys (keyno + 1) columns row []
      | expr :: exprs =>
        (∃ rowDatum datum, rowValue = some rowDatum ∧ expr = some datum ∧
          column.equal rowDatum datum = true) ∧
        HashStepHoldsFrom nullkeys (keyno + 1) columns row exprs
  | _, [], _, _ => True
  | _, _ :: _, [], _ => True

/-- The condition of a step, given those of earlier steps.  Without source steps a
combine step stands for no condition. -/
def stepCondition (opHolds : PartitionPruneStepOp D → Prop) (conditions : Nat → Prop) :
    PartitionPruneStep D → Prop
  | .op _ opstep => opHolds opstep
  | .combine _ .union sourceStepids =>
    sourceStepids = [] ∨ ∃ sourceId ∈ sourceStepids, conditions sourceId
  | .combine _ .intersect sourceStepids => ∀ sourceId ∈ sourceStepids, conditions sourceId

def stepConditions (opHolds : PartitionPruneStepOp D → Prop) :
    List (PartitionPruneStep D) → (Nat → Prop) → Nat → Prop
  | [], conditions => conditions
  | step :: steps, conditions =>
    stepConditions opHolds steps
      (Function.update conditions step.stepId (stepCondition opHolds conditions step))

def StepsHold (opHolds : PartitionPruneStepOp D → Prop) (steps : List (PartitionPruneStep D)) :
    Prop :=
  steps = [] ∨ stepConditions opHolds steps (fun _ => False) (steps.length - 1)

/-- Steps as they are generated: numbered in their order, with combine steps after
their source steps. -/
def StepsWellFormed (opOk : PartitionPruneStepOp D → Prop) :
    Nat → List (PartitionPruneStep D) → Prop
  | _, [] => True
  | next, step :: steps =>
    step.stepId = next ∧
    (match step with
      | .op _ opstep => opOk opstep
      | .combine _ _ sourceStepids => ∀ sourceId ∈ sourceStepids, sourceId < next) ∧
    StepsWellFormed opOk (next + 1) steps

namespace DiscreteTable

def OpHolds : (t : DiscreteTable D) → TupleKey D t.table.partnatts → PartitionPruneStepOp D → Prop
  | .hash key _, row, opstep =>
    HashStepHoldsFrom opstep.nullkeys 0 key.columns (columns row) opstep.exprs
  | .list key _, row, opstep => ListStepHolds key opstep (listValue row)

/-- The null keys of a step are keys of the table; a list step with a value has a btree
strategy or, for `<>`, none. -/
def OpOk (t : DiscreteTable D) (opstep : PartitionPruneStepOp D) : Prop :=
  (∀ keyno, keyno ∈ opstep.nullkeys → keyno < t.table.partnatts) ∧
  match t with
  | .hash _ _ => True
  | .list _ _ => ∀ number, opstep.opstrategy = .other number → number = 0

end DiscreteTable

/-! ## Places -/

/-- Where a row is found in the result of a step. -/
inductive RowPlace
  | offset (off : Nat)
  | null
  | default

open RowPlace

namespace RowPlace

def index (boundinfo : PartitionBoundInfo B) : RowPlace → Int
  | .offset off => boundinfo.index off
  | .null => boundinfo.nullIndex
  | .default => boundinfo.defaultIndex

/-- A result keeps a place, if there is a partition at it. -/
def KeptIn (boundinfo : PartitionBoundInfo B) (place : RowPlace) (result : PruneStepResult) :
    Prop :=
  0 ≤ place.index boundinfo → match place with
    | .offset off => off ∈ result.boundOffsets
    | .null => result.scanNull = true
    | .default => result.scanDefault = true

end RowPlace

section Combine

variable {info : PartitionBoundInfo B} {place : RowPlace}

theorem unionResult_keeps (a b : PruneStepResult) (h : place.KeptIn info a ∨ place.KeptIn info b) :
    place.KeptIn info (unionResult a b) := by
  intro hp
  have hor := h.imp (fun ha => ha hp) fun hb => hb hp
  cases place with
  | offset off => simpa [unionResult, bmsAddMembers] using hor
  | null | default => simpa [unionResult] using hor

theorem intersectResult_keeps (a b : PruneStepResult) (ha : place.KeptIn info a)
    (hb : place.KeptIn info b) : place.KeptIn info (intersectResult a b) := by
  intro hp
  have hand := And.intro (ha hp) (hb hp)
  cases place with
  | offset off | null | default => simpa [intersectResult] using hand

/-- The results of all steps before `next`, with the place of the row where it
satisfies the condition. -/
def ResultsKeep (boundinfo : PartitionBoundInfo B) (place : RowPlace) (next : Nat)
    (conditions : Nat → Prop) (results : Nat → Option PruneStepResult) : Prop :=
  ∀ i < next, ∃ result, results i = some result ∧ (conditions i → place.KeptIn boundinfo result)

variable {next : Nat} {cds : Nat → Prop} {rs : Nat → Option PruneStepResult}

theorem stepResult_keeps (h : ResultsKeep info place next cds rs) {si : Nat} (hlt : si < next) :
    ∃ res, stepResult rs next si = .ok res ∧ (cds si → place.KeptIn info res) := by
  obtain ⟨res, hr, hk⟩ := h si hlt
  refine ⟨res, ?_, hk⟩
  rw [stepResult, if_neg (by omega), hr]

section

variable (h : ResultsKeep info place next cds rs) (ids : List Nat)
  (hlt : ∀ sid ∈ ids, sid < next) (start : PruneStepResult)
include h ids hlt start

theorem unionResults_keeps :
    ∃ res, ids.foldlM (fun res sid =>
        (stepResult rs next sid).map (unionResult res)) start = .ok res ∧
      ((place.KeptIn info start ∨ ∃ sid ∈ ids, cds sid) →
        place.KeptIn info res) := by
  induction ids generalizing start with
  | nil => exact ⟨start, rfl, by simp⟩
  | cons sid rest ih =>
    obtain ⟨res, hr, hk⟩ := stepResult_keeps h (hlt sid (by simp))
    obtain ⟨final, hf, hin⟩ := ih (fun i hi => hlt i (by simp [hi])) (unionResult start res)
    refine ⟨final, ?_, ?_⟩
    · rw [foldlM_cons, hr]
      exact hf
    rintro (hs | ⟨i, hi, hc⟩)
    · exact hin (inl (unionResult_keeps _ _ (inl hs)))
    obtain rfl | hi := mem_cons.mp hi
    · exact hin (inl (unionResult_keeps _ _ (inr (hk hc))))
    · exact hin (inr ⟨i, hi, hc⟩)

theorem intersectResults_keeps :
    ∃ res, ids.foldlM (fun res sid =>
        (stepResult rs next sid).map (intersectResult res)) start = .ok res ∧
      (place.KeptIn info start → (∀ sid ∈ ids, cds sid) →
        place.KeptIn info res) := by
  induction ids generalizing start with
  | nil => exact ⟨start, rfl, by simp⟩
  | cons sid rest ih =>
    obtain ⟨res, hr, hk⟩ := stepResult_keeps h (hlt sid (by simp))
    obtain ⟨final, hf, hin⟩ := ih (fun i hi => hlt i (by simp [hi])) (intersectResult start res)
    refine ⟨final, ?_, fun hs ha => ?_⟩
    · rw [foldlM_cons, hr]
      exact hf
    exact hin (intersectResult_keeps _ _ hs (hk (ha sid (by simp)))) fun i hi => ha i (by simp [hi])

end

end Combine

/-! ## Runs of steps -/

@[simp] theorem mem_allOffsets (x n : Nat) : x ∈ allOffsets n ↔ x < n := by
  unfold allOffsets
  split
  next hz => simp [hz]
  · simp only [mem_bmsAddRange, not_mem_none, false_or, zero_le, true_and]
    omega

section Run

variable {context : PruneContext D B} {place : RowPlace}
  {opHolds opOk : PartitionPruneStepOp D → Prop}

theorem noPruning_keeps (info : PartitionBoundInfo B) (place : RowPlace) :
    place.KeptIn info ⟨allOffsets info.indexes.length, info.hasDefault,
      info.acceptsNulls⟩ := by
  intro hp
  cases place with
  | offset off =>
    simp only [index, PartitionBoundInfo.index] at hp
    simp only [mem_allOffsets]
    by_contra hge
    rw [getD_eq_default _ _ (by omega)] at hp
    omega
  | null =>
    simp only [index] at hp
    simp only [PartitionBoundInfo.acceptsNulls, bne_iff_ne, ne_eq]
    omega
  | default =>
    simp only [index] at hp
    simp only [PartitionBoundInfo.hasDefault, bne_iff_ne, ne_eq]
    omega

theorem performPruningCombineStep_keeps {next : Nat} {cs : Nat → Prop}
    {rs : Nat → Option PruneStepResult} (h : ResultsKeep context.boundinfo place next cs rs)
    (co : PartitionPruneCombineOp) (ids : List Nat) (hlt : ∀ sid ∈ ids, sid < next) :
    ∃ res,
      context.performPruningCombineStep next co ids rs = .ok res ∧
      (stepCondition opHolds cs (.combine next co ids) →
        place.KeptIn context.boundinfo res) := by
  cases ids with
  | nil => exact ⟨_, rfl, fun _ => noPruning_keeps _ _⟩
  | cons first rest =>
    cases co with
    | union =>
      obtain ⟨res, hr, hin⟩ := unionResults_keeps h (first :: rest) hlt ⟨none, false, false⟩
      refine ⟨res, hr, ?_⟩
      rintro (hn | hsm)
      · exact absurd hn (by simp)
      · exact hin (inr hsm)
    | intersect =>
      obtain ⟨start, hs, hk⟩ := stepResult_keeps h (hlt first (by simp))
      obtain ⟨res, hr, hin⟩ :=
        intersectResults_keeps h rest (fun i hi => hlt i (by simp [hi])) start
      refine ⟨res, ?_, fun ha => hin (hk (ha first (by simp))) fun i hi => ha i (by simp [hi])⟩
      simp only [PruneContext.performPruningCombineStep, hs]
      exact hr

/-- **A run of steps.**  If every operator step keeps the place of a row that satisfies
its condition, every step does. -/
theorem performSteps_keeps
    (hb : ∀ opstep, opOk opstep → ∃ res,
      context.performPruningBaseStep opstep = .ok res ∧
      (opHolds opstep → place.KeptIn context.boundinfo res))
    (steps : List (PartitionPruneStep D)) {next : Nat} (hwf : StepsWellFormed opOk next steps)
    {cs : Nat → Prop} {rs : Nat → Option PruneStepResult}
    (h : ResultsKeep context.boundinfo place next cs rs) :
    ∃ final, context.performSteps steps rs = .ok final ∧
      ResultsKeep context.boundinfo place (next + steps.length)
        (stepConditions opHolds steps cs) final := by
  induction steps generalizing next cs rs with
  | nil => exact ⟨rs, rfl, h⟩
  | cons step steps ih =>
    obtain ⟨hid, hs, hrs⟩ := hwf
    obtain ⟨res, hr, hin⟩ : ∃ res, context.performStep rs step = .ok res ∧
        (stepCondition opHolds cs step → place.KeptIn context.boundinfo res) := by
      cases step with
      | op stepId opstep => exact hb opstep hs
      | combine stepId combineOp ids =>
        obtain rfl : stepId = next := hid
        exact performPruningCombineStep_keeps h combineOp ids hs
    have hn : ResultsKeep context.boundinfo place (next + 1)
        (update cs step.stepId (stepCondition opHolds cs step))
        (update rs step.stepId (some res)) := by
      intro i hi
      rw [hid]
      by_cases heq : i = next
      · subst heq
        exact ⟨res, update_self .., by rwa [update_self]⟩
      rw [update_of_ne heq, update_of_ne heq]
      exact h i (by omega)
    obtain ⟨final, hf, hk⟩ := ih hrs hn
    refine ⟨final, ?_, ?_⟩
    · rw [PruneContext.performSteps, hr]
      exact hf
    rw [length_cons, show next + (steps.length + 1) = next + 1 + steps.length by omega]
    exact hk

theorem collectPartitions_keeps {info : PartitionBoundInfo B} {p : Nat}
    (hp : place.index info = p) {final : PruneStepResult}
    (hk : place.KeptIn info final) : p ∈ collectPartitions info final := by
  obtain ⟨hm, hd⟩ := collectOffsets_spec info (bmsMembers final.boundOffsets)
    (none, final.scanDefault)
  have hin := hk (hp ▸ Int.natCast_nonneg p)
  simp only [collectPartitions]
  cases place with
  | offset off =>
    have ho := (hm p).mpr (inr ⟨off, (mem_bmsMembers _ _).mpr hin, hp⟩)
    split <;> split <;> simp [ho]
  | null =>
    have hpn : p = info.nullIndex.toNat := by
      simp only [index] at hp
      omega
    rw [if_pos hin]
    split <;> simp [hpn]
  | default =>
    have hpd : p = info.defaultIndex.toNat := by
      simp only [index] at hp
      omega
    rw [if_pos (hd.mpr (inl hin))]
    simp [hpd]

/-- **Soundness of pruning**, for a row whose place is known. -/
theorem getMatchingPartitions_keeps (ctx : PruneContext D B)
    (hb : ∀ opstep, opOk opstep → ∃ res,
      ctx.performPruningBaseStep opstep = .ok res ∧
      (opHolds opstep → place.KeptIn ctx.boundinfo res))
    {steps : List (PartitionPruneStep D)} (hwf : StepsWellFormed opOk 0 steps)
    (hh : StepsHold opHolds steps) :
    ∃ res, ctx.getMatchingPartitions steps = .ok res ∧
      ∀ p : Nat, place.index ctx.boundinfo = p → p < ctx.nparts → p ∈ res := by
  unfold PruneContext.getMatchingPartitions
  split
  · exact ⟨_, rfl, fun p _ hlt => (mem_allOffsets _ _).mpr hlt⟩
  rename_i hln
  have hs : ResultsKeep ctx.boundinfo place 0 (fun _ => False) fun _ => none :=
    fun i hi => absurd hi (Nat.not_lt_zero i)
  obtain ⟨final, hf, hk⟩ := performSteps_keeps hb steps hwf hs
  obtain ⟨last, hl, hin⟩ := hk (steps.length - 1) (by omega)
  refine ⟨collectPartitions ctx.boundinfo last, ?_, fun p hp _ =>
    collectPartitions_keeps hp (hin ?_)⟩
  · simp only [hf, bind, Except.bind, hl]
  obtain hn | hc := hh
  · exact absurd (congrArg List.length hn) hln
  · exact hc

end Run

/-! ## List steps -/

section List

variable {key : ListPartitionKey D} {specs : List (ListBoundSpec D)}
variable {info : PartitionBoundInfo D} {mp : Nat → Int}
variable {vals : List (PartitionListValue D)}

/-- The place of a list key, `none` being null. -/
def listPlace (key : ListPartitionKey D) (boundinfo : PartitionBoundInfo D) : Option D → RowPlace
  | none => if boundinfo.acceptsNulls then .null else .default
  | some datum =>
    let (off, isEqual) := partitionListBsearch key.partsupfunc boundinfo datum
    if 0 ≤ off ∧ isEqual then .offset off.toNat else .default

theorem partitionListBsearch_congr (key : ListPartitionKey D) (info : PartitionBoundInfo D)
    {a b : D} (hab : key.partsupfunc a b = 0) :
    partitionListBsearch key.partsupfunc info a = partitionListBsearch key.partsupfunc info b := by
  have hc := key.comparator
  refine bsearch_congr fun i => ?_
  cases info.datum i with
  | nil => simp [listDatumCmp]
  | cons bound bounds =>
    cases bound with
    | minvalue | maxvalue => simp [listDatumCmp]
    | value datum =>
      exact ⟨⟨fun h => hc.trans _ _ _ h hab.le,
          fun h => hc.trans _ _ _ h (hc.eq_symm hab).le⟩,
        ⟨fun h => hc.eq_trans h hab, fun h => hc.eq_trans h (hc.eq_symm hab)⟩⟩

theorem partitionListBsearch_cases (h : ListBoundsOf key specs info mp vals) (value : D) :
    (∃ off : Nat, partitionListBsearch key.partsupfunc info value = ((off : Int), true) ∧
      listBelow key vals value ≤ off ∧ off < listUpto key vals value) ∨
    partitionListBsearch key.partsupfunc info value =
      ((listBelow key vals value : Int) - 1, false) ∧
      listBelow key vals value = listUpto key vals value := by
  have hp := h.profile value
  obtain hlt | hge := lt_or_ge (listBelow key vals value) (listUpto key vals value)
  · obtain ⟨off, ho, hl, hup, -⟩ := bsearch_found hp hlt
    exact inl ⟨off, ho, hl, hup⟩
  have heq := le_antisymm hp.below_le hge
  exact inr ⟨bsearch_missed hp heq, heq⟩

variable {rd : D} {off : Int} {opstrategy : StrategyNumber}

section

variable (h : ListBoundsOf key specs info mp vals)
include h

theorem offset_of_rowDatum {off : Nat}
    (hrw : partitionListBsearch key.partsupfunc info rd = ((off : Int), true)) (value : D) :
    off < info.ndatums ∧ (key.partsupfunc rd value < 0 ↔ off < listBelow key vals value) ∧
    (key.partsupfunc rd value ≤ 0 ↔ off < listUpto key vals value) := by
  have hc := key.comparator
  have hp := h.profile rd
  obtain ⟨hl, hup⟩ : listBelow key vals rd ≤ off ∧ off < listUpto key vals rd := by
    obtain ⟨o, ho, hl, hup⟩ | ⟨hm, -⟩ := partitionListBsearch_cases h rd
    · rw [hrw] at ho
      obtain rfl : off = o := by simpa using ho
      exact ⟨hl, hup⟩
    rw [hrw] at hm
    simp at hm
  have hlt := hup.trans_le hp.upto_le
  have hlt' : off < vals.length := by rwa [h.ndatums_eq] at hlt
  have hz := (hp.eq_zero_iff hlt).mpr ⟨hl, hup⟩
  have hng := (h.profile value).neg off hlt
  have hn := (h.profile value).nonpos off hlt
  rw [h.datum_cmp hlt'] at hz hng hn
  refine ⟨hlt, ?_, ?_⟩
  · rw [← hng]
    exact ⟨fun hr => hc.lt_of_le_of_lt hz.le hr, fun hv => hc.lt_of_le_of_lt (hc.eq_symm hz).le hv⟩
  rw [← hn]
  exact ⟨fun hr => hc.trans _ _ _ hz.le hr, fun hv => hc.trans _ _ _ (hc.eq_symm hz).le hv⟩

theorem rowOffset_cases {row : Nat}
    (hr : partitionListBsearch key.partsupfunc info rd = ((row : Int), true))
    (value : D) {ie : Bool} (hs : partitionListBsearch key.partsupfunc info value = (off, ie)) :
    row < info.ndatums ∧ -1 ≤ off ∧ (key.partsupfunc rd value = 0 → off = row ∧ ie = true) ∧
    (key.partsupfunc rd value < 0 → row < off ∨ off = row ∧ ie = false) ∧
    (0 < key.partsupfunc rd value → off < row) := by
  obtain ⟨hlt, hb, hu⟩ := offset_of_rowDatum h hr value
  have he (heq : key.partsupfunc rd value = 0) : off = row ∧ ie = true := by
    have hc := partitionListBsearch_congr key info heq
    rw [hr, hs] at hc
    simpa [eq_comm] using hc
  obtain ⟨o, ho, hl, hup⟩ | ⟨hm, heq⟩ := partitionListBsearch_cases h value
  · rw [hs] at ho
    obtain ⟨rfl, rfl⟩ := Prod.mk.inj ho
    exact ⟨hlt, by omega, he, fun hn => by omega, fun hp => by omega⟩
  rw [hs] at hm
  obtain ⟨rfl, rfl⟩ := Prod.mk.inj hm
  refine ⟨hlt, by omega, he, fun hn => ?_, fun hp => by omega⟩
  simp only [and_true]
  omega

end

theorem mem_listGreaterOffsets (hd : info.ndatums ≠ 0) (ho : -1 ≤ off) (ie incl : Bool) (x : Nat) :
    x ∈ listGreaterOffsets info off ie incl ↔
      x < info.ndatums ∧ (off < x ∨ off = x ∧ ie = true ∧ incl = true) := by
  have hm (minoff : Nat) :
      x ∈ (if info.ndatums - 1 < minoff then none
        else bmsAddRange none minoff (info.ndatums - 1)) ↔
      minoff ≤ x ∧ x < info.ndatums := by
    split
    · simp only [not_mem_none, false_iff]
      omega
    simp only [mem_bmsAddRange, not_mem_none, false_or]
    omega
  simp only [listGreaterOffsets, hm]
  cases ie <;> cases incl <;> simp <;> split <;> omega

theorem mem_listLessOffsets (ho : -1 ≤ off) (ie incl : Bool) (x : Nat) :
    x ∈ listLessOffsets off ie incl ↔ x < off ∨ off = x ∧ (ie = false ∨ incl = true) := by
  have hm (maxoff : Int) :
      x ∈ (if maxoff < 0 then none else bmsAddRange none 0 maxoff.toNat) ↔ x ≤ maxoff := by
    split
    · simp only [not_mem_none, false_iff]
      omega
    simp only [mem_bmsAddRange, not_mem_none, false_or]
    omega
  simp only [listLessOffsets, hm]
  cases ie <;> cases incl <;> simp <;> omega

theorem valueStep_offset (h : ListBoundsOf key specs info mp vals)
    (hd : info.ndatums ≠ 0) (hop : ∀ num, opstrategy = .other num → num = 0) {row : Nat}
    (hr : partitionListBsearch key.partsupfunc info rd = ((row : Int), true)) (value : D) :
    ∃ res, getMatchingListBounds key info opstrategy (some value) none = .ok res ∧
      (opstrategy.ListAccepts (key.partsupfunc rd value) → row ∈ res.boundOffsets) := by
  obtain ⟨⟨off, isEqual⟩, hs⟩ :
      ∃ found, partitionListBsearch key.partsupfunc info value = found := ⟨_, rfl⟩
  obtain ⟨hlt, ho, heq, hn, hp⟩ := rowOffset_cases h hr value hs
  unfold getMatchingListBounds
  simp only [ne_eq, not_true_eq_false, if_false, hd, hs]
  cases opstrategy with
  | less =>
    refine ⟨_, rfl, fun ha => (mem_listLessOffsets ho _ _ _).mpr ?_⟩
    exact (hn ha).imp_right fun h => ⟨h.1, inl h.2⟩
  | lessEqual =>
    refine ⟨_, rfl, fun ha => (mem_listLessOffsets ho _ _ _).mpr ?_⟩
    obtain hlt | hz := lt_or_eq_of_le (show key.partsupfunc rd value ≤ 0 from ha)
    · exact (hn hlt).imp_right fun h => ⟨h.1, inr rfl⟩
    · exact inr ⟨(heq hz).1, inr rfl⟩
  | equal =>
    dsimp only
    by_cases hf : 0 ≤ off ∧ isEqual = true
    · rw [if_pos hf]
      refine ⟨_, rfl, fun ha => (mem_bmsMakeSingleton _ _).mpr ?_⟩
      have hof := (heq ha).1
      omega
    rw [if_neg hf]
    refine ⟨_, rfl, fun ha => absurd ?_ hf⟩
    obtain ⟨rfl, rfl⟩ := heq ha
    exact ⟨Int.natCast_nonneg _, rfl⟩
  | greaterEqual =>
    refine ⟨_, rfl, fun ha => (mem_listGreaterOffsets hd ho _ _ _).mpr ⟨hlt, ?_⟩⟩
    obtain hgt | hz := lt_or_eq_of_le (show 0 ≤ key.partsupfunc rd value from ha)
    · exact inl (hp hgt)
    · exact inr ⟨(heq hz.symm).1, (heq hz.symm).2, rfl⟩
  | greater =>
    exact ⟨_, rfl, fun ha => (mem_listGreaterOffsets hd ho _ _ _).mpr ⟨hlt, inl (hp ha)⟩⟩
  | other num =>
    obtain rfl := hop num rfl
    refine ⟨_, rfl, fun hne => ?_⟩
    have hnt : ¬ (off = row ∧ isEqual = true) := by
      rintro ⟨rfl, rfl⟩
      obtain hlt | hgt := lt_or_gt_of_ne hne
      · simpa using hn hlt
      · simpa using hp hgt
    split
    next hf =>
      refine (mem_bmsDelMember _ _ _).mpr ⟨(mem_allOffsets _ _).mpr hlt, ?_⟩
      rintro rfl
      exact hnt ⟨by omega, hf.2⟩
    · exact (mem_allOffsets _ _).mpr hlt

theorem getMatchingListBounds_ok (key : ListPartitionKey D) (info : PartitionBoundInfo D)
    (hop : ∀ num, opstrategy = .other num → num = 0) (value : Option D) (nullkeys : Relids) :
    ∃ res, getMatchingListBounds key info opstrategy value nullkeys = .ok res := by
  unfold getMatchingListBounds
  split
  · split <;> exact ⟨_, rfl⟩
  split
  · exact ⟨_, rfl⟩
  cases value with
  | none => exact ⟨_, rfl⟩
  | some value =>
    cases opstrategy with
    | equal =>
      dsimp only
      split <;> exact ⟨_, rfl⟩
    | other num =>
      obtain rfl := hop num rfl
      exact ⟨_, rfl⟩
    | less | lessEqual | greater | greaterEqual => exact ⟨_, rfl⟩

/-- A row that is not listed belongs to the default partition, which a step leaves out
only if its value is listed. -/
theorem valueStep_default (hd : info.ndatums ≠ 0)
    (hrw : ¬ (0 ≤ (partitionListBsearch key.partsupfunc info rd).1 ∧
      (partitionListBsearch key.partsupfunc info rd).2 = true)) (value : D)
    {res : PruneStepResult}
    (hr : getMatchingListBounds key info opstrategy (some value) none = .ok res)
    (hh : opstrategy = .equal → key.partsupfunc rd value = 0) :
    res.scanDefault = info.hasDefault := by
  unfold getMatchingListBounds at hr
  simp only [ne_eq, not_true_eq_false, if_false, hd] at hr
  cases opstrategy with
  | equal =>
    rw [partitionListBsearch_congr key info (hh rfl)] at hrw
    dsimp only at hr
    rw [if_neg hrw] at hr
    obtain rfl := Except.ok.inj hr
    rfl
  | other num =>
    cases num with
    | zero =>
      obtain rfl := Except.ok.inj hr
      rfl
    | succ num => simp at hr
  | less | lessEqual | greater | greaterEqual =>
    obtain rfl := Except.ok.inj hr
    rfl

theorem listPlace_cases (h : ListBoundsOf key specs info mp vals) (rd : D) :
    (∃ row : Nat, row < info.ndatums ∧
      partitionListBsearch key.partsupfunc info rd = ((row : Int), true) ∧
      listPlace key info (some rd) = .offset row) ∨
    ¬ (0 ≤ (partitionListBsearch key.partsupfunc info rd).1 ∧
      (partitionListBsearch key.partsupfunc info rd).2 = true) ∧
      listPlace key info (some rd) = .default := by
  obtain ⟨row, hr, -⟩ | ⟨hm, -⟩ := partitionListBsearch_cases h rd
  · exact inl ⟨row, (offset_of_rowDatum h hr rd).1, hr, by simp [listPlace, hr]⟩
  · exact inr ⟨by simp [hm], by simp [listPlace, hm]⟩

theorem hasDefault_of_place (hp : 0 ≤ default.index info) : info.hasDefault = true := by
  simp only [index] at hp
  simp only [PartitionBoundInfo.hasDefault, bne_iff_ne, ne_eq]
  omega

theorem nullStep_keeps (key : ListPartitionKey D) (info : PartitionBoundInfo D)
    (opstrategy : StrategyNumber) (value : Option D) {nullkeys : Relids} (hn : nullkeys ≠ none) :
    ∃ res, getMatchingListBounds key info opstrategy value nullkeys = .ok res ∧
      (listPlace key info none).KeptIn info res := by
  unfold getMatchingListBounds
  rw [if_pos hn]
  by_cases ha : info.acceptsNulls = true
  · refine ⟨_, if_pos ha, fun _ => ?_⟩
    simp [listPlace, ha]
  refine ⟨_, if_neg ha, fun hp => ?_⟩
  simp only [listPlace, ha, Bool.false_eq_true, if_false] at hp ⊢
  exact hasDefault_of_place hp

section

variable (h : ListBoundsOf key specs info mp vals)
include h

theorem notNullStep_keeps
    (hop : ∀ num, opstrategy = .other num → num = 0) (value : Option D) (rd : D) :
    ∃ res, getMatchingListBounds key info opstrategy value none = .ok res ∧
      ((∀ datum, value = some datum →
          opstrategy.ListAccepts (key.partsupfunc rd datum)) →
        (listPlace key info (some rd)).KeptIn info res) := by
  have hpl := listPlace_cases h rd
  by_cases hdt : info.ndatums = 0
  · refine ⟨⟨none, info.hasDefault, false⟩, by simp [getMatchingListBounds, hdt], fun _ hp => ?_⟩
    obtain ⟨row, hlt, -⟩ | ⟨-, hd⟩ := hpl
    · omega
    rw [hd] at hp ⊢
    exact hasDefault_of_place hp
  cases value with
  | none =>
    refine ⟨⟨allOffsets info.ndatums, info.hasDefault, false⟩,
      by simp [getMatchingListBounds, hdt], fun _ hp => ?_⟩
    obtain ⟨row, hlt, -, ho⟩ | ⟨-, hd⟩ := hpl
    · rw [ho]
      exact (mem_allOffsets _ _).mpr hlt
    rw [hd] at hp ⊢
    exact hasDefault_of_place hp
  | some value =>
    obtain ⟨row, -, hrw, ho⟩ | ⟨hm, hd⟩ := hpl
    · obtain ⟨res, hr, hin⟩ := valueStep_offset h hdt hop hrw value
      refine ⟨res, hr, fun hh _ => ?_⟩
      rw [ho]
      exact hin (hh value rfl)
    obtain ⟨res, hr⟩ := getMatchingListBounds_ok key info hop (some value) none
    refine ⟨res, hr, fun hh hp => ?_⟩
    rw [hd] at hp ⊢
    refine (valueStep_default hdt hm value hr ?_).trans (hasDefault_of_place hp)
    rintro rfl
    exact hh value rfl

/-- **List steps** keep the place of a row that satisfies their condition. -/
theorem performListBaseStep_keeps
    (ops : PartitionPruneStepOp D) (hn : ∀ keyno, keyno ∈ ops.nullkeys → keyno < 1)
    (hop : ∀ num, ops.opstrategy = .other num → num = 0) (rv : Option D) :
    ∃ res, performListBaseStep key info ops = .ok res ∧
      (ListStepHolds key ops rv →
        (listPlace key info rv).KeptIn info res) := by
  obtain ⟨opstrategy, exprs, nullkeys⟩ := ops
  unfold performListBaseStep ListStepHolds
  cases nullkeys with
  | some keys =>
    obtain ⟨keyno, hky⟩ := exists_mem_some keys
    obtain rfl : keyno = 0 := by
      have hlt := hn keyno hky
      omega
    obtain ⟨res, hr, hk⟩ := nullStep_keeps key info opstrategy none
      (Option.some_ne_none keys)
    refine ⟨res, ?_, fun hrow => ?_⟩
    · simpa [gatherKeyValues, hky] using hr
    obtain rfl : rv = none := by simpa using hrow
    exact hk
  | none =>
    rw [if_neg (by simp)]
    have hs (value : Option D) (hv : gatherKeyValues none 1 0 exprs = some [value]) :
        ∃ res, performListBaseStep key info ⟨opstrategy, exprs, none⟩ = .ok res ∧
          ∀ rd, rv = some rd →
            (∀ datum, value = some datum → opstrategy.ListAccepts (key.partsupfunc rd datum)) →
            (listPlace key info rv).KeptIn info res := by
      have hb : performListBaseStep key info ⟨opstrategy, exprs, none⟩ =
          getMatchingListBounds key info opstrategy value none := by
        simp [performListBaseStep, hv]
      obtain ⟨res, hr⟩ := getMatchingListBounds_ok key info hop value none
      refine ⟨res, hb.trans hr, ?_⟩
      rintro rd rfl hh
      obtain ⟨result', hr', hk⟩ := notNullStep_keeps h hop value rd
      obtain rfl := Except.ok.inj (hr.symm.trans hr')
      exact hk hh
    cases exprs with
    | nil =>
      obtain ⟨res, hr, hk⟩ := hs none rfl
      refine ⟨res, hr, fun hrow => ?_⟩
      obtain ⟨rd, hrw⟩ := Option.isSome_iff_exists.mp hrow
      exact hk rd hrw (by simp)
    | cons expr exprs =>
      cases expr with
      | none => exact ⟨_, rfl, False.elim⟩
      | some value =>
        obtain ⟨res, hr, hk⟩ := hs (some value) rfl
        refine ⟨res, hr, ?_⟩
        rintro ⟨rd, hrw, hh⟩
        refine hk rd hrw ?_
        rintro datum ⟨rfl⟩
        exact hh

end

end List

/-! ## Hash steps -/

section Hash

variable {nullkeys : Relids}

/-- How many of `n` columns from `keyno` on are null keys. -/
def nullCount (nullkeys : Relids) (keyno n : Nat) : Nat :=
  ∑ i ∈ Finset.Ico keyno (keyno + n), if i ∈ nullkeys then 1 else 0

theorem nullCount_succ (kn n : Nat) :
    nullCount nullkeys kn (n + 1) =
      (if kn ∈ nullkeys then 1 else 0) + nullCount nullkeys (kn + 1) n := by
  unfold nullCount
  rw [Finset.sum_eq_sum_Ico_succ_bot (by omega), show kn + (n + 1) = kn + 1 + n by omega]

theorem bmsNumMembers_eq_nullCount {n : Nat} (h : ∀ keyno, keyno ∈ nullkeys → keyno < n) :
    bmsNumMembers nullkeys = nullCount nullkeys 0 n := by
  have hf : toFinset nullkeys = (Finset.Ico 0 (0 + n)).filter fun i => i ∈ nullkeys := by
    ext i
    simp only [mem_toFinset, Finset.mem_filter, Finset.mem_Ico, zero_le, true_and, zero_add]
    exact ⟨fun hi => ⟨h i hi, hi⟩, fun hi => hi.2⟩
  rw [bmsNumMembers_eq, hf, Finset.card_filter]
  rfl

/-- The values gathered for a row that satisfies the step hash as the row does, if
there is one for every column that is not a null key. -/
theorem gatherKeyValues_hash (columns : List (HashColumn D)) (kn : Nat)
    (row exprs : List (Option D)) (hl : row.length = columns.length)
    (hh : HashStepHoldsFrom nullkeys kn columns row exprs) :
    ∃ values, gatherKeyValues nullkeys columns.length kn exprs = some values ∧
      values.countP Option.isSome + nullCount nullkeys kn columns.length ≤ columns.length ∧
      (values.countP Option.isSome + nullCount nullkeys kn columns.length = columns.length →
        ∀ seed, partitionHashFrom columns (maskNulls nullkeys kn values) seed =
          partitionHashFrom columns row seed) := by
  induction columns generalizing kn row exprs with
  | nil => exact ⟨[], rfl, by simp [nullCount], fun _ seed => by simp [partitionHashFrom]⟩
  | cons column columns ih =>
    cases row with
    | nil => simp at hl
    | cons rowValue row =>
      have hl' : row.length = columns.length := by simpa using hl
      simp only [length_cons, nullCount_succ]
      by_cases hk : kn ∈ nullkeys
      · unfold HashStepHoldsFrom at hh
        rw [if_pos hk] at hh
        obtain ⟨rfl, hr⟩ := hh
        obtain ⟨values, hv, hle, hhs⟩ := ih (kn + 1) row exprs hl' hr
        refine ⟨none :: values, by simp [gatherKeyValues, hk, hv], ?_, ?_⟩
        · simp only [countP_cons, Option.isSome_none, hk, if_true]
          simp
          omega
        simp only [countP_cons, Option.isSome_none, hk, if_true, maskNulls]
        intro ha seed
        simp at ha
        exact hhs (by omega) seed
      unfold HashStepHoldsFrom at hh
      rw [if_neg hk] at hh
      cases exprs with
      | nil =>
        obtain ⟨values, hv, hle, -⟩ := ih (kn + 1) row [] hl' hh
        refine ⟨none :: values, by simp [gatherKeyValues, hk, hv], ?_, ?_⟩
        · simp [hk]
          omega
        simp [hk]
        omega
      | cons expr exprs =>
        obtain ⟨⟨rd, datum, rfl, rfl, he⟩, hr⟩ := hh
        obtain ⟨values, hv, hle, hhs⟩ := ih (kn + 1) row exprs hl' hr
        refine ⟨some datum :: values, by simp [gatherKeyValues, hk, hv], ?_, ?_⟩
        · simp [hk]
          omega
        intro ha seed
        simp [hk] at ha
        simp only [maskNulls, hk, if_false, partitionHashFrom, column.compatible rd datum he]
        exact hhs (by omega) _

/-- **Hash steps** keep the place of a row that satisfies their condition. -/
theorem performHashBaseStep_keeps (key : HashPartitionKey D) (info : PartitionBoundInfo Nat)
    (ops : PartitionPruneStepOp D)
    (hn : ∀ keyno, keyno ∈ ops.nullkeys → keyno < key.partnatts) (row : List (Option D))
    (hl : row.length = key.partnatts) :
    ∃ res, performHashBaseStep key info ops = .ok res ∧
      (HashStepHoldsFrom ops.nullkeys 0 key.columns row ops.exprs →
        (offset (computePartitionHashValue key row % info.indexes.length)).KeptIn
          info res) := by
  unfold performHashBaseStep
  cases hg : gatherKeyValues ops.nullkeys key.partnatts 0 ops.exprs with
  | none =>
    refine ⟨_, rfl, fun hh => ?_⟩
    obtain ⟨values, hv, -⟩ := gatherKeyValues_hash key.columns 0 row ops.exprs hl hh
    exact absurd (hg.symm.trans hv) (by simp)
  | some values =>
    refine ⟨_, rfl, fun hh hp => ?_⟩
    obtain ⟨values', hv, -, hhs⟩ := gatherKeyValues_hash key.columns 0 row ops.exprs hl hh
    obtain rfl := Option.some.inj (hg.symm.trans hv)
    unfold getMatchingHashBounds
    rw [bmsNumMembers_eq_nullCount hn]
    by_cases ha : values.countP Option.isSome + nullCount ops.nullkeys 0 key.partnatts =
        key.partnatts
    · have heq : computePartitionHashValue key (maskNulls ops.nullkeys 0 values) =
          computePartitionHashValue key row := by
        rw [computePartitionHashValue, hhs ha, computePartitionHashValue]
      have hi : 0 ≤ info.index (computePartitionHashValue key row %
        info.indexes.length) := hp
      rw [if_pos ha]
      simp only [heq, hi, if_true, mem_bmsMakeSingleton]
    rw [if_neg ha]
    exact noPruning_keeps info (.offset _) hp

end Hash

/-! ## Routed rows survive -/

theorem listPlace_index {key : ListPartitionKey D} {ss : List (ListBoundSpec D)}
    (hvl : ValidListPartitions key ss) {info : PartitionBoundInfo D}
    {mp : Nat → Int} {vals : List (PartitionListValue D)}
    (h : ListBoundsOf key ss info mp vals) {last : LastFound}
    (hl : RemembersDatum info last) (tp : TupleKey D 1) :
    (getListPartitionForTuple key info last tp).1 =
      (listPlace key info tp.listValue).index info := by
  obtain ⟨⟨ha, hno⟩, -⟩ := getListPartitionForTuple_spec hvl h hl tp
  cases hva : tp.listValue with
  | none =>
    have hn : tp.isnull.head = true := by
      by_contra hne
      simp [listValue, hne] at hva
    unfold getListPartitionForTuple listPlace
    rw [if_pos hn]
    split <;> rfl
  | some rd =>
    rw [hva] at ha hno
    by_cases hs : ∃ v ∈ vals, key.partsupfunc v.value rd = 0
    · obtain ⟨v, hv, he⟩ := hs
      obtain ⟨off, ho, hsr, heq⟩ := h.bsearch_eq_of_listed hv he
      obtain ⟨⟨i, spec, hi, hsp⟩, hin⟩ := index_of_equal hvl h ho heq
      rw [ha i spec hi hsp, ← hin i spec hi hsp]
      simp [listPlace, hsr, index]
    have hnn : ∀ (i : Nat) spec, ss[i]? = some spec → ¬ ListAccepts key spec (some rd) := by
      rintro i spec hi ⟨d, hd, heq⟩
      exact hs ⟨⟨i, d⟩, (h.listed _).mpr ⟨spec, hi, hd⟩, heq⟩
    rw [(hno hnn).unique h.default]
    simp [listPlace, h.bsearch_eq_of_not_listed fun v hv heq => hs ⟨v, hv, heq⟩, index]

theorem TupleKey.length_columns {n : Nat} (tp : TupleKey D n) : tp.columns.length = n := by
  simp [columns]

/-- **List and hash pruning keep every row.**  The partition to which a row that
satisfies the steps is routed, after any earlier lookups, survives. -/
theorem pruning_keeps_routed (t : DiscreteTable D) (hvalid : t.table.Valid)
    (steps : List (PartitionPruneStep D)) (hsteps : StepsWellFormed t.OpOk 0 steps)
    (earlier : List (TupleKey D t.table.partnatts)) (row : TupleKey D t.table.partnatts)
    (hrow : StepsHold (t.OpHolds row) steps) :
    ∃ mapping route prune result,
      t.table.partitionDispatch = .ok (mapping, route) ∧ t.partitionPruning = .ok prune ∧
      prune steps = .ok result ∧
      ∀ p : Nat, (route (cacheAfter route .initial earlier) row).1 = p → p ∈ result := by
  cases t with
  | hash key specs =>
    have hb := createHashBounds_spec hvalid
    obtain ⟨result, hr, hk⟩ := getMatchingPartitions_keeps
      ⟨(createHashBounds specs).1, specs.length, performHashBaseStep key (createHashBounds specs).1⟩
      (fun opstep hok => performHashBaseStep_keeps key (createHashBounds specs).1 opstep hok.1
        (columns row) (length_columns row)) hsteps hrow
    refine ⟨_, _, _, result, rfl, rfl, hr, fun p hp => hk p hp ?_⟩
    have hlt := (hashRouting_right key hvalid .initial row).lt_nparts
      { hb with }
    exact Int.ofNat_lt.mp (lt_of_eq_of_lt hp.symm hlt)
  | list key specs =>
    obtain ⟨boundinfo, mapping, vals, hc, hb⟩ := createListBounds_spec hvalid
    obtain ⟨result, hr, hk⟩ := getMatchingPartitions_keeps
      ⟨boundinfo, specs.length, performListBaseStep key boundinfo⟩
      (fun opstep hok => performListBaseStep_keeps hb opstep hok.1 hok.2
        (listValue row)) hsteps hrow
    refine ⟨mapping, getListPartitionForTuple key boundinfo, _, result, ?_, ?_, hr, fun p hp => ?_⟩
    · simp only [table, PartitionedTable.partitionDispatch, hc]
      rfl
    · simp only [partitionPruning, hc]
      rfl
    have hls : RemembersDatum boundinfo
        (cacheAfter (getListPartitionForTuple key boundinfo) .initial earlier) :=
      cacheAfter_keeps (RemembersDatum boundinfo)
        (fun last tuple hl => (getListPartitionForTuple_spec hvalid hb hl tuple).2)
        (inl rfl) earlier
    have hlt := (listRouting_right hvalid hb hls row).lt_nparts
      { hb with }
    refine hk p ?_ (Int.ofNat_lt.mp (lt_of_eq_of_lt hp.symm hlt))
    rw [← listPlace_index hvalid hb hls row]
    exact hp

/-- `(a = 3 OR a IS NULL) AND a IS NOT NULL`. -/
def orAndSteps : List (PartitionPruneStep Int) :=
  [.op 0 ⟨.equal, [some 3], none⟩, .op 1 ⟨.other 0, [], bmsMakeSingleton 0⟩,
    .combine 2 .union [0, 1], .op 3 ⟨.other 0, [], none⟩, .combine 4 .intersect [2, 3]]

/-- The lists `(1, 3)` and `(2, NULL)`, and a default partition. -/
def threeListTable : DiscreteTable Int :=
  .list intListKey [.list [some 1, some 3], .list [some 2, none], .default]

def threeHashTable : DiscreteTable Int := .hash intHashKey [⟨2, 0⟩, ⟨4, 1⟩, ⟨4, 3⟩]

/-- `a = 3 OR a IS NULL`. -/
def orSteps : List (PartitionPruneStep Int) := orAndSteps.take 3

/-- The row `3`, after the row `1`, under lists and under hashing. -/
theorem pruning_keeps_routed_three :
    (∃ mapping route prune result,
      threeListTable.table.partitionDispatch = .ok (mapping, route) ∧
      threeListTable.partitionPruning = .ok prune ∧ prune orAndSteps = .ok result ∧
      ∀ p : Nat, (route (cacheAfter route .initial [intListRow (some 1)])
        (intListRow (some 3))).1 = p → p ∈ result) ∧
    ∃ mapping route prune result,
      threeHashTable.table.partitionDispatch = .ok (mapping, route) ∧
      threeHashTable.partitionPruning = .ok prune ∧ prune orSteps = .ok result ∧
      ∀ p : Nat, (route (cacheAfter route .initial [intListRow (some 1)])
        (intListRow (some 3))).1 = p → p ∈ result := by
  constructor
  · refine pruning_keeps_routed threeListTable threeLists_valid orAndSteps ?_
      [intListRow (some 1)] (intListRow (some 3)) (inr ?_)
    · simp [orAndSteps, StepsWellFormed, PartitionPruneStep.stepId, DiscreteTable.OpOk,
        threeListTable, table, PartitionedTable.partnatts]
    have hv : listValue (intListRow (some 3)) = some 3 := rfl
    simp [orAndSteps, stepConditions, stepCondition, PartitionPruneStep.stepId,
      DiscreteTable.OpHolds, threeListTable, ListStepHolds, StrategyNumber.ListAccepts,
      StrategyNumber.Accepts, intListKey, hv]
  · refine pruning_keeps_routed threeHashTable threeHashes_valid orSteps ?_
      [intListRow (some 1)] (intListRow (some 3)) (inr ?_)
    · simp [orSteps, orAndSteps, StepsWellFormed, PartitionPruneStep.stepId, DiscreteTable.OpOk,
        threeHashTable, table, PartitionedTable.partnatts, HashPartitionKey.partnatts, intHashKey]
    simp only [orSteps, orAndSteps, take_succ_cons, take_zero, stepConditions, stepCondition,
      PartitionPruneStep.stepId, DiscreteTable.OpHolds, threeHashTable, intHashKey]
    refine inr ⟨0, mem_cons_self, ?_⟩
    change HashStepHoldsFrom none 0 [_] [some 3] [some 3]
    simp [HashStepHoldsFrom]

end AthenaPG
