import AthenaPG.Executor.ExecPartition
import AthenaPG.Nodes.Bitmapset

/-!
Range partition pruning (`src/backend/partitioning/partprune.c`).

A pruning step yields offsets of bounds; an offset stands for the slot below that
bound, and `get_matching_partitions` turns slots into partitions.

* `mem_collectPartitions`: which partitions a set of slots gives.
* `lessMaxoff_inclusive`, `greaterMinoff_le`: where the walks over equal bounds end.
* `range_pruning_keeps_iff`: exactly when the partition of a row that satisfies an
  operator step is among the partitions kept.
-/

namespace AthenaPG
open List

open Bisection PartitionRangeDatum PartitionKey
open Bool (false_eq_true)

variable {D : Type}

/-! ## Steps -/

/-- A `StrategyNumber`: the btree strategies, or another number. -/
inductive StrategyNumber
  | less
  | lessEqual
  | equal
  | greaterEqual
  | greater
  | other (number : Nat)
  deriving DecidableEq, Repr

structure PruneStepResult where
  boundOffsets : Relids
  scanDefault : Bool
  scanNull : Bool

inductive PruneError
  | invalidStrategyNumber (number : Nat)
  | invalidCombineArgument
  | missingResult
  deriving DecidableEq, Repr

/-- A `PartitionPruneStepOp`; `exprs` holds what the expressions evaluate to, a null
being `none`.  The comparison functions of a step are those of the key. -/
structure PartitionPruneStepOp (D : Type) where
  opstrategy : StrategyNumber
  exprs : List (Option D)
  nullkeys : Relids

inductive PartitionPruneCombineOp
  | union
  | intersect
  deriving DecidableEq, Repr

inductive PartitionPruneStep (D : Type)
  | op (stepId : Nat) (opstep : PartitionPruneStepOp D)
  | combine (stepId : Nat) (combineOp : PartitionPruneCombineOp) (sourceStepids : List Nat)

structure PartitionPruneContext (D : Type) where
  key : PartitionKey D
  nparts : Nat
  boundinfo : PartitionBoundInfo D

/-! ## Operator steps -/

section RangeBounds

variable (key : PartitionKey D) (boundinfo : PartitionBoundInfo D) (values : List D)

/-- The comparison of the bound at `off` with the lookup values. -/
def cmpBound (off : Nat) : Int :=
  partitionRboundDatumCmp key.partsupfunc (boundinfo.datum off) values

/-- `bound_offsets` under `BTEqualStrategyNumber`. -/
def equalOffsets : Relids :=
  let (off, isEqual) := partitionRangeDatumBsearch key.partsupfunc boundinfo values
  if 0 ≤ off ∧ isEqual then
    if values.length = key.partnatts then bmsMakeSingleton (off + 1).toNat
    else
      let savedOff := off.toNat
      -- the greatest bound that is smaller than the lookup value
      let off := walk (fun off => 1 ≤ off) (· - 1) (cmpBound key boundinfo values)
        boundinfo.ndatums savedOff
      let minoff := if boundinfo.kind off values.length = some .minvalue then off + 1 else off
      -- the smallest bound that is greater
      let off := walk (fun off => off < boundinfo.ndatums - 1) (· + 1)
        (cmpBound key boundinfo values) boundinfo.ndatums savedOff
      bmsAddRange none minoff (off + 1)
  else bmsMakeSingleton (off + 1).toNat

/-- The guard of the loops over equal bounds for the other strategies. -/
def insideBounds (off : Nat) : Bool := 1 ≤ off ∧ off < boundinfo.ndatums - 1

/-- `minoff` under `BTGreaterEqualStrategyNumber` (inclusive) or
`BTGreaterStrategyNumber`. -/
def greaterMinoff (inclusive : Bool) : Nat :=
  let (off, isEqual) := partitionRangeDatumBsearch key.partsupfunc boundinfo values
  if off < 0 then 0
  else if isEqual ∧ values.length < key.partnatts then
    let off := walk (insideBounds boundinfo) (if inclusive then (· - 1) else (· + 1))
      (cmpBound key boundinfo values) boundinfo.ndatums off.toNat
    if inclusive then off else off + 1
  else off.toNat + 1

/-- `maxoff` under `BTLessEqualStrategyNumber` (inclusive) or `BTLessStrategyNumber`. -/
def lessMaxoff (inclusive : Bool) : Nat :=
  let (off, isEqual) := partitionRangeDatumBsearch key.partsupfunc boundinfo values
  if 0 ≤ off then
    if isEqual ∧ values.length < key.partnatts then
      let off := walk (insideBounds boundinfo) (if inclusive then (· + 1) else (· - 1))
        (cmpBound key boundinfo values) boundinfo.ndatums off.toNat
      if inclusive then off + 1 else off
    else if !isEqual || inclusive then off.toNat + 1
    else off.toNat
  else (off + 1).toNat

/-- The end of `get_matching_range_bounds`: skip space that is not covered at either
end, if the bound next to it ends in an infinite column. -/
def trimOffsets (nvalues minoff maxoff : Nat) : Relids :=
  let lastkey := nvalues - 1
  let minoff :=
    if minoff < boundinfo.ndatums ∧ boundinfo.index minoff < 0 ∧
        boundinfo.kind minoff lastkey = some .minvalue then minoff + 1
    else minoff
  let maxoff :=
    if 1 ≤ maxoff ∧ boundinfo.index maxoff < 0 ∧
        boundinfo.kind (maxoff - 1) lastkey = some .maxvalue then maxoff - 1
    else maxoff
  if minoff ≤ maxoff then bmsAddRange none minoff maxoff else none

def getMatchingRangeBounds (opstrategy : StrategyNumber) (nullkeys : Relids) :
    Except PruneError PruneStepResult :=
  let ndatums := boundinfo.ndatums
  if ndatums = 0 ∨ nullkeys ≠ none then .ok ⟨none, boundinfo.hasDefault, false⟩
  else if values.length = 0 then
    -- ignore key space not covered by any partitions
    let minoff := if boundinfo.index 0 < 0 then 1 else 0
    let maxoff := if boundinfo.index ndatums < 0 then ndatums - 1 else ndatums
    .ok ⟨bmsAddRange none minoff maxoff, boundinfo.hasDefault, false⟩
  else
    let scanDefault := if values.length < key.partnatts then boundinfo.hasDefault else false
    let trimmed (minoff maxoff : Nat) : Except PruneError PruneStepResult :=
      .ok ⟨trimOffsets boundinfo values.length minoff maxoff, scanDefault, false⟩
    match opstrategy with
    | .equal => .ok ⟨equalOffsets key boundinfo values, scanDefault, false⟩
    | .greaterEqual => trimmed (greaterMinoff key boundinfo values true) ndatums
    | .greater => trimmed (greaterMinoff key boundinfo values false) ndatums
    | .lessEqual => trimmed 0 (lessMaxoff key boundinfo values true)
    | .less => trimmed 0 (lessMaxoff key boundinfo values false)
    | .other number => .error (.invalidStrategyNumber number)

end RangeBounds

/-- The loop of `perform_pruning_base_step` over the key columns from `keyno` on;
`none` if a comparison value is null. -/
def gatherValues (nullkeys : Relids) : Nat → Nat → List D → List (Option D) → Option (List D)
  | 0, _, values, _ => some values
  | remaining + 1, keyno, values, exprs =>
    if keyno ∈ nullkeys then gatherValues nullkeys remaining (keyno + 1) values exprs
    -- only a leading part of the key can be used
    else if values.length < keyno then some values
    else
      match exprs with
      | [] => gatherValues nullkeys remaining (keyno + 1) values []
      | none :: _ => none
      | some datum :: exprs =>
        gatherValues nullkeys remaining (keyno + 1) (values ++ [datum]) exprs

variable (context : PartitionPruneContext D)

/-- `perform_pruning_base_step` under `PARTITION_STRATEGY_RANGE`. -/
def performPruningBaseStep (opstep : PartitionPruneStepOp D) :
    Except PruneError PruneStepResult :=
  match gatherValues opstep.nullkeys context.key.partnatts 0 [] opstep.exprs with
  | none => .ok ⟨none, false, false⟩
  | some values =>
    getMatchingRangeBounds context.key context.boundinfo values opstep.opstrategy opstep.nullkeys

/-! ## Combining steps -/

def stepResult (results : Nat → Option PruneStepResult) (stepId sourceId : Nat) :
    Except PruneError PruneStepResult :=
  if stepId ≤ sourceId then .error .invalidCombineArgument
  else
    match results sourceId with
    | some result => .ok result
    | none => .error .missingResult

def unionResult (a b : PruneStepResult) : PruneStepResult where
  boundOffsets := bmsAddMembers a.boundOffsets b.boundOffsets
  scanDefault := a.scanDefault || b.scanDefault
  scanNull := a.scanNull || b.scanNull

def intersectResult (a b : PruneStepResult) : PruneStepResult where
  boundOffsets := bmsIntMembers a.boundOffsets b.boundOffsets
  scanDefault := a.scanDefault && b.scanDefault
  scanNull := a.scanNull && b.scanNull

/-! ## Partitions -/

/-- One round of the loop over `bound_offsets`. -/
def collectOffset (boundinfo : PartitionBoundInfo D) (state : Relids × Bool) (i : Nat) :
    Relids × Bool :=
  if boundinfo.index i < 0 then (state.1, state.2 || boundinfo.hasDefault)
  else (bmsAddMember state.1 (boundinfo.index i).toNat, state.2)

/-- The end of `get_matching_partitions`: from offsets to partitions. -/
def collectPartitions (boundinfo : PartitionBoundInfo D) (final : PruneStepResult) : Relids :=
  let (result, scanDefault) :=
    (bmsMembers final.boundOffsets).foldl (collectOffset boundinfo) (none, final.scanDefault)
  let result := if final.scanNull then bmsAddMember result boundinfo.nullIndex.toNat else result
  if scanDefault then bmsAddMember result boundinfo.defaultIndex.toNat else result

/-! ## Steps under any strategy -/

section Steps

variable {B : Type}

/-- The part of a `PartitionPruneContext` that combining steps needs: the bounds, the
number of partitions, and `perform_pruning_base_step` under the table's strategy. -/
structure PruneContext (D B : Type) where
  boundinfo : PartitionBoundInfo B
  nparts : Nat
  performPruningBaseStep : PartitionPruneStepOp D → Except PruneError PruneStepResult

/-- `bms_add_range(NULL, 0, n - 1)`. -/
def allOffsets (n : Nat) : Relids := if n = 0 then none else bmsAddRange none 0 (n - 1)

namespace PruneContext

variable (context : PruneContext D B)

def performPruningCombineStep (stepId : Nat) (combineOp : PartitionPruneCombineOp)
    (sourceStepids : List Nat) (results : Nat → Option PruneStepResult) :
    Except PruneError PruneStepResult :=
  match sourceStepids with
  | [] =>
    .ok ⟨allOffsets context.boundinfo.indexes.length, context.boundinfo.hasDefault,
      context.boundinfo.acceptsNulls⟩
  | first :: rest =>
    match combineOp with
    | .union =>
      (first :: rest).foldlM (fun result sourceId =>
        (stepResult results stepId sourceId).map (unionResult result)) ⟨none, false, false⟩
    | .intersect => do
      -- the first result is copied
      let result ← stepResult results stepId first
      rest.foldlM (fun result sourceId =>
        (stepResult results stepId sourceId).map (intersectResult result)) result

def performStep (results : Nat → Option PruneStepResult) :
    PartitionPruneStep D → Except PruneError PruneStepResult
  | .op _ opstep => context.performPruningBaseStep opstep
  | .combine stepId combineOp sourceStepids =>
    context.performPruningCombineStep stepId combineOp sourceStepids results

end PruneContext

def PartitionPruneStep.stepId : PartitionPruneStep D → Nat
  | .op stepId _ => stepId
  | .combine stepId _ _ => stepId

namespace PruneContext

variable (context : PruneContext D B)

def performSteps : List (PartitionPruneStep D) → (Nat → Option PruneStepResult) →
    Except PruneError (Nat → Option PruneStepResult)
  | [], results => .ok results
  | step :: steps, results => do
    let result ← context.performStep results step
    performSteps steps (Function.update results step.stepId (some result))

def getMatchingPartitions (pruningSteps : List (PartitionPruneStep D)) :
    Except PruneError Relids :=
  if pruningSteps.length = 0 then .ok (allOffsets context.nparts)
  else do
    let results ← context.performSteps pruningSteps fun _ => none
    match results (pruningSteps.length - 1) with
    | some final => .ok (collectPartitions context.boundinfo final)
    | none => .error .missingResult

end PruneContext

end Steps

/-- `get_matching_partitions` under `PARTITION_STRATEGY_RANGE`. -/
def getMatchingPartitions (pruningSteps : List (PartitionPruneStep D)) : Except PruneError Relids :=
  PruneContext.getMatchingPartitions
    ⟨context.boundinfo, context.nparts, performPruningBaseStep context⟩ pruningSteps

/-! ## From slots to partitions -/

section Collect

variable {key : PartitionKey D} {info : PartitionBoundInfo D}

theorem collectOffsets_spec (info : PartitionBoundInfo D) (offsets : List Nat)
    (state : Relids × Bool) :
    (∀ x, x ∈ (offsets.foldl (collectOffset info) state).1 ↔
      x ∈ state.1 ∨ ∃ i ∈ offsets, info.index i = x) ∧
    ((offsets.foldl (collectOffset info) state).2 = true ↔
      state.2 = true ∨ info.hasDefault = true ∧ ∃ i ∈ offsets, info.index i < 0) := by
  induction offsets generalizing state with
  | nil => simp
  | cons i offsets ih =>
    obtain ⟨h1, h2⟩ := ih (collectOffset info state i)
    rw [foldl_cons]
    by_cases hn : info.index i < 0
    · have hs : collectOffset info state i = (state.1, state.2 || info.hasDefault) := by
        rw [collectOffset, if_pos hn]
      rw [hs] at h1 h2 ⊢
      constructor
      · intro x
        rw [h1 x]
        have hne : ¬ info.index i = x := by omega
        simp [hne]
      · rw [h2]
        simp only [mem_cons, exists_eq_or_imp, hn, true_or, and_true, Bool.or_eq_true]
        exact or_iff_left_of_imp fun h => Or.inr h.1
    have hs : collectOffset info state i =
        (bmsAddMember state.1 (info.index i).toNat, state.2) := by
      rw [collectOffset, if_neg hn]
    rw [hs] at h1 h2 ⊢
    constructor
    · intro x
      rw [h1 x]
      simp only [mem_cons, exists_eq_or_imp, mem_bmsAddMember]
      have hx : x = (info.index i).toNat ↔ info.index i = x := by omega
      rw [hx, or_assoc]
    · rw [h2]
      simp [hn]

/-- **Which partitions a set of slots gives.**  The partition of a slot is among them
if the slot is, or if both the slot and a slot of the set belong to the default
partition. -/
theorem mem_collectPartitions (hva : ValidBounds key info) {final : PruneStepResult}
    (hnl : final.scanNull = false)
    (hdf : final.scanDefault = true → info.hasDefault = true) {slot p : Nat}
    (hp : partitionOfSlot info slot = p) :
    p ∈ collectPartitions info final ↔
      0 ≤ info.index slot ∧ slot ∈ final.boundOffsets ∨
      info.index slot < 0 ∧ (final.scanDefault = true ∨
        ∃ i, i ∈ final.boundOffsets ∧ info.index i < 0) := by
  obtain ⟨h1, h2⟩ := collectOffsets_spec info (bmsMembers final.boundOffsets)
    (none, final.scanDefault)
  have hge := hva.default_ge
  have hh : info.hasDefault = true ↔ info.defaultIndex ≠ -1 := by
    simp [PartitionBoundInfo.hasDefault]
  have hm : p ∈ collectPartitions info final ↔
      (∃ i, i ∈ final.boundOffsets ∧ info.index i = p) ∨
      (final.scanDefault = true ∨ info.hasDefault = true ∧
        ∃ i, i ∈ final.boundOffsets ∧ info.index i < 0) ∧
        p = info.defaultIndex.toNat := by
    simp only [mem_bmsMembers, not_mem_none, false_or] at h1 h2
    simp only [collectPartitions, hnl, false_eq_true, if_false]
    split <;> rename_i hs
    · rw [mem_bmsAddMember, h1 p]
      exact or_congr_right (and_iff_right (h2.mp hs)).symm
    · rw [h1 p]
      exact (or_iff_left fun h => hs (h2.mpr h.1)).symm
  rw [hm]
  unfold partitionOfSlot at hp
  by_cases hn : info.index slot < 0
  · rw [if_pos hn] at hp
    have hd := hh.mpr (by omega)
    have hno : ¬ ∃ i, i ∈ final.boundOffsets ∧ info.index i = p := by
      rintro ⟨i, -, hi⟩
      have hf := hva.default_fresh i (by omega)
      omega
    have hpd : p = info.defaultIndex.toNat := by omega
    have hnn : ¬ 0 ≤ info.index slot := by omega
    simp only [hno, hd, ← hpd, hn, hnn, true_and, and_true, false_or, false_and]
  rw [if_neg hn] at hp
  have hnd : ¬ ((final.scanDefault = true ∨ info.hasDefault = true ∧
      ∃ i, i ∈ final.boundOffsets ∧ info.index i < 0) ∧
      p = info.defaultIndex.toNat) := by
    rintro ⟨hs, hpd⟩
    have hd : info.hasDefault = true := by
      obtain hs | ⟨hs, -⟩ := hs
      · exact hdf hs
      · exact hs
    have hd' := hh.mp hd
    have hf := hva.default_fresh slot (by omega)
    omega
  have hsl : (∃ i, i ∈ final.boundOffsets ∧ info.index i = p) ↔ slot ∈ final.boundOffsets := by
    constructor
    · rintro ⟨i, hi, heq⟩
      have hsm := hva.distinct i slot (by omega) (by omega)
      rwa [← hsm]
    · intro h
      exact ⟨slot, h, hp⟩
  simp only [hnd, or_false, hsl, not_lt.mp hn, true_and, hn, false_and]

end Collect

/-! ## The slots of a step -/

section Slots

variable {key : PartitionKey D} {info : PartitionBoundInfo D} {vals : List D}

def compareKey : List (D → D → Int) → List D → List D → Int
  | supfunc :: supfuncs, r :: rs, v :: vs =>
    if supfunc r v ≠ 0 then supfunc r v else compareKey supfuncs rs vs
  | _, _, _ => 0

/-- The result of a comparison that an operator of this strategy accepts. -/
def StrategyNumber.Accepts : StrategyNumber → Int → Prop
  | .less, cmpval => cmpval < 0
  | .lessEqual, cmpval => cmpval ≤ 0
  | .equal, cmpval => cmpval = 0
  | .greaterEqual, cmpval => 0 ≤ cmpval
  | .greater, cmpval => 0 < cmpval
  | .other _, _ => False

instance (ops : StrategyNumber) (cmpval : Int) : Decidable (ops.Accepts cmpval) := match ops with
  | .less => inferInstanceAs (Decidable (cmpval < 0))
  | .lessEqual => inferInstanceAs (Decidable (cmpval ≤ 0))
  | .equal => inferInstanceAs (Decidable (cmpval = 0))
  | .greaterEqual => inferInstanceAs (Decidable (0 ≤ cmpval))
  | .greater => inferInstanceAs (Decidable (0 < cmpval))
  | .other _ => inferInstanceAs (Decidable False)

theorem compareKey_eq (key : PartitionKey D) {row vals : List D}
    (hr : row.length = key.partnatts) (hv : vals.length ≤ key.partnatts) :
    compareKey key.partsupfunc row vals =
      key.leadingCmp vals.length (tupleBound row) (tupleBound vals) := by
  unfold leadingCmp columns tupleBound
  unfold partnatts at hr hv
  generalize key.partsupfunc = supfuncs at hr hv
  induction vals generalizing supfuncs row with
  | nil => simp [compareKey, Comparator.lexCmp]
  | cons v vs ih =>
    cases supfuncs with
    | nil => simp at hv
    | cons supfunc supfuncs =>
      obtain ⟨r, rs, rfl⟩ := exists_cons_of_length_eq_add_one hr
      simp only [compareKey, length_cons, map_cons, take_succ_cons,
        Comparator.lexCmp, PartitionRangeDatum.cmp, infinite,
        false_eq_true, if_false]
      split
      · rfl
      · exact ih supfuncs (by simpa using hr) (by simpa using hv)

/-- Where a row stands among the bounds, and where the values of a step do. -/
structure RowSlot (key : PartitionKey D) (boundinfo : PartitionBoundInfo D) (values : List D)
    (cmpval : Int) (slot : Nat) : Prop where
  ge_below : 0 ≤ cmpval → boundsBelow key boundinfo values ≤ slot
  ge_upto : 0 < cmpval → boundsUpto key boundinfo values ≤ slot
  le_upto : cmpval ≤ 0 → slot ≤ boundsUpto key boundinfo values
  le_below : cmpval < 0 → slot ≤ boundsBelow key boundinfo values
  whole : values.length = key.partnatts → 0 ≤ cmpval → boundsUpto key boundinfo values ≤ slot

section

variable (hvalid : ValidBounds key info) (hne : vals ≠ [])
include hvalid hne

theorem rowSlot (hlen : vals.length ≤ key.partnatts) (row : List.Vector D key.partnatts) :
    RowSlot key info vals (compareKey key.partsupfunc row.toList vals)
      (boundsUpto key info row.toList) := by
  have hl := key.isComparator_leadingCmp vals.length
  have hbn := key.isComparator_boundCmp
  have hr (b : List (PartitionRangeDatum D)) (hb : b ∈ info.datums) :
      partitionRboundDatumCmp key.partsupfunc b row.toList =
        key.boundCmp b (tupleBound row.toList) := by
    rw [partitionRboundDatumCmp_eq key (values_ne_nil row) row.toList_length.le
      (hvalid.columns b hb), row.toList_length, key.leadingCmp_partnatts]
  have hv (b : List (PartitionRangeDatum D)) (hb : b ∈ info.datums) :=
    partitionRboundDatumCmp_eq key hne hlen (hvalid.columns b hb)
  rw [compareKey_eq key row.toList_length hlen]
  have hs := hl.swap (tupleBound row.toList) (tupleBound vals)
  have hs' := hl.swap (tupleBound vals) (tupleBound row.toList)
  -- what the leading columns decide about a bound and the row, all columns do
  have hlt (b : List (PartitionRangeDatum D))
      (h : key.leadingCmp vals.length b (tupleBound row.toList) < 0) :
      key.boundCmp b (tupleBound row.toList) < 0 := by
    rwa [key.boundCmp_of_leadingCmp h.ne]
  have hgt (b : List (PartitionRangeDatum D))
      (h : key.leadingCmp vals.length (tupleBound row.toList) b < 0) :
      0 < key.boundCmp b (tupleBound row.toList) := by
    rw [hbn.swap, key.boundCmp_of_leadingCmp h.ne]
    exact h
  refine ⟨fun hc => ?_, fun hc => ?_, fun hc => ?_, fun hc => ?_, fun hk hc => ?_⟩
  · refine countP_mono_left fun b hb h => ?_
    simp only [decide_eq_true_eq] at h ⊢
    rw [hv b hb] at h
    rw [hr b hb]
    exact (hlt b (hl.lt_of_lt_of_le h (by omega))).le
  · refine countP_mono_left fun b hb h => ?_
    simp only [decide_eq_true_eq] at h ⊢
    rw [hv b hb] at h
    rw [hr b hb]
    exact (hlt b (hl.lt_of_le_of_lt h (by omega))).le
  · refine countP_mono_left fun b hb h => ?_
    simp only [decide_eq_true_eq] at h ⊢
    rw [hr b hb] at h
    rw [hv b hb]
    by_contra hp
    have hb' := hl.swap b (tupleBound vals)
    have := hgt b (hl.lt_of_le_of_lt hc (by omega))
    omega
  · refine countP_mono_left fun b hb h => ?_
    simp only [decide_eq_true_eq] at h ⊢
    rw [hr b hb] at h
    rw [hv b hb]
    by_contra hp
    have hb' := hl.swap (tupleBound vals) b
    have := hgt b (hl.lt_of_lt_of_le hc (by omega))
    omega
  refine countP_mono_left fun b hb h => ?_
  simp only [decide_eq_true_eq] at h ⊢
  rw [hv b hb, hk, key.leadingCmp_partnatts] at h
  rw [hr b hb]
  rw [hk, key.leadingCmp_partnatts] at hc hs
  have hs2 := hbn.swap (tupleBound vals) (tupleBound row.toList)
  exact hbn.trans _ _ _ h (by omega)

theorem slot_gt_of_minvalue (hlen : vals.length < key.partnatts)
    (row : List.Vector D key.partnatts) (hcmp : compareKey key.partsupfunc row.toList vals = 0)
    (hlt : boundsBelow key info vals < boundsUpto key info vals)
    (hk : info.kind (boundsBelow key info vals) vals.length = some .minvalue) :
    boundsBelow key info vals < boundsUpto key info row.toList := by
  have hp := datumProfile hvalid hne hlen.le
  have hrw := datumProfile hvalid (values_ne_nil row) row.toList_length.le
  have hn := hp.upto_le
  have hl := key.isComparator_leadingCmp vals.length
  have hin : boundsBelow key info vals < info.ndatums := by omega
  refine (hrw.nonpos _ hin).mp ?_
  have hz := (hp.eq_zero_iff hin).mpr ⟨le_rfl, hlt⟩
  rw [partitionRboundDatumCmp_eq key hne hlen.le (hvalid.datum_length hin)] at hz
  rw [compareKey_eq key row.toList_length hlen.le] at hcmp
  have he := hl.eq_trans hz (hl.eq_symm hcmp)
  rw [partitionRboundDatumCmp_eq key (values_ne_nil row) row.toList_length.le
    (hvalid.datum_length hin), row.toList_length, key.leadingCmp_partnatts]
  obtain ⟨supfunc, hs⟩ : ∃ f, key.partsupfunc[vals.length]? = some f :=
    ⟨_, getElem?_eq_getElem hlen⟩
  obtain ⟨r, hr⟩ : ∃ r, row.toList[vals.length]? = some r :=
    ⟨_, getElem?_eq_getElem (by rwa [row.toList_length])⟩
  obtain ⟨d, hd, hdk⟩ := Option.map_eq_some_iff.mp hk
  obtain rfl : d = .minvalue := by
    cases d with
    | minvalue => rfl
    | value d | maxvalue => simp [kind] at hdk
  -- the first column that the step leaves open puts the bound below every row
  have hc : key.columns[vals.length]? = some (PartitionRangeDatum.cmp supfunc) := by
    simp [columns, hs]
  have hv : (tupleBound row.toList)[vals.length]? = some (.value r) := by simp [tupleBound, hr]
  have hf : ∀ x ∈ tupleBound row.toList, infinite x = false := by
    intro x hx
    obtain ⟨v, -, rfl⟩ := mem_map.mp hx
    rfl
  have hnx := Comparator.lexCmp_next vals.length _ _ hc hd hv hf
    key.orderedColumns he (by simp [PartitionRangeDatum.cmp])
  unfold boundCmp
  rw [hnx]
  simp [PartitionRangeDatum.cmp]

/-! ## Where the walks end -/

theorem bsearch_ends (hlen : vals.length ≤ key.partnatts) :
    (boundsBelow key info vals = boundsUpto key info vals ∧
      partitionRangeDatumBsearch key.partsupfunc info vals =
        ((boundsUpto key info vals : Int) - 1, false)) ∨
    (boundsBelow key info vals < boundsUpto key info vals ∧
      ∃ off : Nat, partitionRangeDatumBsearch key.partsupfunc info vals =
          ((off : Int), true) ∧
        boundsBelow key info vals ≤ off ∧ off < boundsUpto key info vals ∧
        (off + 1 = info.ndatums → off = boundsBelow key info vals)) := by
  have hp := datumProfile hvalid hne hlen
  obtain heq | hlt := eq_or_lt_of_le hp.below_le
  · exact Or.inl ⟨heq, heq ▸ bsearch_missed hp heq⟩
  · exact Or.inr ⟨hlt, bsearch_found hp hlt⟩

section

variable {off : Nat} (hlen : vals.length ≤ key.partnatts)
  (hlw : boundsBelow key info vals ≤ off) (hup : off < boundsUpto key info vals)
include hlen hlw hup

theorem walk_below {gd : Nat → Bool}
    (hgr : ∀ i, boundsBelow key info vals < i → i ≤ off → gd i = true) (hz : gd 0 = false) :
    walk gd (· - 1) (cmpBound key info vals) info.ndatums off = boundsBelow key info vals := by
  have hp := datumProfile hvalid hne hlen
  have hn := hp.upto_le
  refine walk_down _ off hlw (by omega) (fun i hi hio => ⟨hgr i hi hio, ?_⟩) ?_
  · exact (hp.eq_zero_iff (by omega)).mpr ⟨by omega, by omega⟩
  intro hg
  have hps : boundsBelow key info vals ≠ 0 := by
    intro h0
    rw [h0, hz] at hg
    simp at hg
  have hng := (hp.neg (boundsBelow key info vals - 1) (by omega)).mpr (by omega)
  exact hng.ne

theorem walk_upto {gd : Nat → Bool}
    (hgr : ∀ i, off ≤ i → i + 1 < boundsUpto key info vals → gd i = true)
    (he : gd (info.ndatums - 1) = false) :
    walk gd (· + 1) (cmpBound key info vals) info.ndatums off + 1 = boundsUpto key info vals := by
  have hp := datumProfile hvalid hne hlen
  have hn := hp.upto_le
  have hw : walk gd (· + 1) (cmpBound key info vals) info.ndatums off =
      boundsUpto key info vals - 1 := by
    refine walk_up _ off (by omega) (by omega) (fun i hi hil => ⟨hgr i hi (by omega), ?_⟩) ?_
    · exact (hp.eq_zero_iff (by omega)).mpr ⟨by omega, by omega⟩
    intro hg
    have hl : boundsUpto key info vals ≠ info.ndatums := by
      intro h
      rw [h, he] at hg
      simp at hg
    have hps := (hp.nonpos (boundsUpto key info vals) (by omega)).not.mpr (by omega)
    rw [show boundsUpto key info vals - 1 + 1 = boundsUpto key info vals by omega]
    exact fun h => hps h.le
  omega

end

end

variable (info)

theorem insideBounds_zero : insideBounds info 0 = false := by simp [insideBounds]

theorem insideBounds_last : insideBounds info (info.ndatums - 1) = false := by simp [insideBounds]

variable {info}

theorem insideBounds_of {i : Nat} (h1 : 1 ≤ i) (h2 : i + 1 < info.ndatums) :
    insideBounds info i = true := by
  simp [insideBounds]
  omega

section

variable (hvalid : ValidBounds key info)
include hvalid

/-- `minoff` of an inclusive lower end: the walk is not cut short, for the search
ends at the last bound only if no other one is equal. -/
theorem greaterMinoff_inclusive (hne : vals ≠ []) (hlen : vals.length < key.partnatts) :
    greaterMinoff key info vals true = boundsBelow key info vals := by
  unfold greaterMinoff
  obtain ⟨heq, hs⟩ | ⟨-, off, hs, hlw, hup, hl⟩ := bsearch_ends hvalid hne hlen.le
  · simp only [hs, false_eq_true, false_and, if_false]
    split <;> omega
  have hn := boundsUpto_le key info vals
  simp only [hs, hlen, Int.toNat_natCast, if_true, true_and]
  rw [if_neg (by omega)]
  refine walk_below hvalid hne hlen.le hlw hup (fun i hi hio => ?_) (insideBounds_zero info)
  exact insideBounds_of (by omega) (by omega)

/-- `minoff` of an exclusive lower end may stop too low, which loses nothing. -/
theorem greaterMinoff_le (hne : vals ≠ []) (hlen : vals.length < key.partnatts) :
    greaterMinoff key info vals false ≤ boundsUpto key info vals := by
  unfold greaterMinoff
  obtain ⟨heq, hs⟩ | ⟨-, off, hs, hlw, hup, -⟩ := bsearch_ends hvalid hne hlen.le
  · simp only [hs, false_eq_true, false_and, if_false]
    split <;> omega
  have hn := boundsUpto_le key info vals
  simp only [hs, hlen, Int.toNat_natCast, if_true, true_and, false_eq_true, if_false]
  rw [if_neg (by omega)]
  by_cases h0 : off = 0
  · rw [h0, walk_of_stop _ (by simp [insideBounds_zero])]
    omega
  refine (walk_upto hvalid hne hlen.le hlw hup (fun i hi hiu => ?_) (insideBounds_last info)).le
  exact insideBounds_of (by omega) (by omega)

theorem greaterMinoff_whole (hlen : vals.length = key.partnatts) (hne : vals ≠ [])
    (incl : Bool) : greaterMinoff key info vals incl = boundsUpto key info vals := by
  have ho := boundsUpto_le_succ hvalid hlen
  unfold greaterMinoff
  obtain ⟨heq, hs⟩ | ⟨-, off, hs, hlw, hup, -⟩ := bsearch_ends hvalid hne hlen.le
  · simp only [hs, false_eq_true, false_and, if_false]
    split <;> omega
  simp only [hs, hlen, lt_irrefl, and_false, if_false, Int.toNat_natCast]
  rw [if_neg (by omega)]
  omega

theorem lessMaxoff_exclusive (hne : vals ≠ []) (hlen : vals.length ≤ key.partnatts) :
    lessMaxoff key info vals false = boundsBelow key info vals := by
  unfold lessMaxoff
  obtain ⟨heq, hs⟩ | ⟨-, off, hs, hlw, hup, hl⟩ := bsearch_ends hvalid hne hlen
  · simp only [hs, false_eq_true, false_and, if_false, Bool.not_false, Bool.true_or, if_true]
    split <;> omega
  have hn := boundsUpto_le key info vals
  simp only [hs, Int.toNat_natCast, true_and, Bool.not_true, Bool.or_self, false_eq_true, if_false]
  rw [if_pos (by omega)]
  by_cases hk : vals.length < key.partnatts
  · rw [if_pos hk]
    refine walk_below hvalid hne hlen hlw hup (fun i hi hio => ?_) (insideBounds_zero info)
    exact insideBounds_of (by omega) (by omega)
  rw [if_neg hk]
  have ho := boundsUpto_le_succ hvalid (show vals.length = key.partnatts by omega)
  omega

theorem lessMaxoff_whole (hlen : vals.length = key.partnatts) (hne : vals ≠ []) :
    lessMaxoff key info vals true = boundsUpto key info vals := by
  have ho := boundsUpto_le_succ hvalid hlen
  unfold lessMaxoff
  obtain ⟨heq, hs⟩ | ⟨-, off, hs, hlw, hup, -⟩ := bsearch_ends hvalid hne hlen.le
  · simp only [hs, false_eq_true, false_and, if_false, Bool.not_false, Bool.true_or, if_true]
    split <;> omega
  simp only [hs, hlen, lt_irrefl, and_false, if_false, Int.toNat_natCast, Bool.or_true, if_true]
  rw [if_pos (by omega)]
  omega

/-- **`maxoff` of an inclusive upper end.**  The walk does not start if the search
ends at the first bound, so a second equal one is missed. -/
theorem lessMaxoff_inclusive (hne : vals ≠ []) (hlen : vals.length < key.partnatts) :
    (boundsBelow key info vals = 0 ∧ boundsUpto key info vals = 2 ∧
        StopsAtFirst info.ndatums ∧ lessMaxoff key info vals true = 1) ∨
    (¬ (boundsBelow key info vals = 0 ∧ boundsUpto key info vals = 2 ∧
        StopsAtFirst info.ndatums) ∧
      lessMaxoff key info vals true = boundsUpto key info vals) := by
  have hp := datumProfile hvalid hne hlen.le
  have hn := hp.upto_le
  unfold lessMaxoff
  obtain ⟨heq, hs⟩ | ⟨hlt, off, hs, hlw, hup, -⟩ := bsearch_ends hvalid hne hlen.le
  · right
    refine ⟨by omega, ?_⟩
    simp only [hs, false_eq_true, false_and, if_false, Bool.not_false, Bool.true_or, if_true]
    split <;> omega
  simp only [hs, hlen, Int.toNat_natCast, true_and, if_true]
  rw [if_pos (by omega)]
  by_cases h0 : off = 0
  · have hb : boundsBelow key info vals = 0 := by omega
    rw [h0, walk_of_stop _ (by simp [insideBounds_zero])]
    by_cases ht : 2 ≤ boundsUpto key info vals
    · rw [hb] at hp
      have hif := bsearch_zero_iff hp ht
      have hz : (partitionRangeDatumBsearch key.partsupfunc info vals).1 = 0 := by
        rw [hs, h0]
        rfl
      obtain ⟨hu, hst⟩ := hif.mp hz
      exact Or.inl ⟨hb, hu, hst, rfl⟩
    exact Or.inr ⟨by omega, by omega⟩
  right
  refine ⟨?_, ?_⟩
  · rintro ⟨hb, hu, hst⟩
    rw [hb] at hp
    have hz := (bsearch_zero_iff hp (by omega)).mpr ⟨hu, hst⟩
    have ho : (partitionRangeDatumBsearch key.partsupfunc info vals).1 = off := by rw [hs]
    rw [partitionRangeDatumBsearch, hz] at ho
    omega
  refine walk_upto hvalid hne hlen.le hlw hup (fun i hi hiu => ?_) (insideBounds_last info)
  exact insideBounds_of (by omega) (by omega)

theorem mem_equalOffsets (hne : vals ≠ []) (hlen : vals.length ≤ key.partnatts)
    (row : List.Vector D key.partnatts) (hc : compareKey key.partsupfunc row.toList vals = 0) :
    boundsUpto key info row.toList ∈ equalOffsets key info vals := by
  have hsl := rowSlot hvalid hne hlen row
  have hge := hsl.ge_below hc.ge
  have hle := hsl.le_upto hc.le
  unfold equalOffsets
  obtain ⟨heq, hs⟩ | ⟨hlt, off, hs, hlw, hup, -⟩ := bsearch_ends hvalid hne hlen
  · simp only [hs, false_eq_true, and_false, if_false, mem_bmsMakeSingleton]
    omega
  simp only [hs, and_true, Int.toNat_natCast]
  rw [if_pos (by omega)]
  by_cases hk : vals.length = key.partnatts
  · have ho := boundsUpto_le_succ hvalid hk
    have hw := hsl.whole hk hc.ge
    rw [if_pos hk, mem_bmsMakeSingleton]
    omega
  rw [if_neg hk]
  have hk' : vals.length < key.partnatts := by omega
  have hn := boundsUpto_le key info vals
  rw [walk_below hvalid hne hlen hlw hup (fun i hi _ => by simp; omega) (by simp),
    walk_upto hvalid hne hlen hlw hup (fun i _ hiu => by simp; omega) (by simp),
    mem_bmsAddRange]
  refine Or.inr ⟨?_, hle⟩
  split
  next hkn => exact slot_gt_of_minvalue hvalid hne hk' row hc hlt hkn
  · exact hge

end

/-! ## Skipping the ends -/

/-- The slot at an end of the range that is skipped if no partition covers it. -/
def CutOff (boundinfo : PartitionBoundInfo D) (nvalues first last slot : Nat) : Prop :=
  slot = first ∧ slot < boundinfo.ndatums ∧
      boundinfo.kind slot (nvalues - 1) = some .minvalue ∨
    slot = last ∧ 1 ≤ slot ∧ boundinfo.kind (slot - 1) (nvalues - 1) = some .maxvalue

theorem ite_succ_le_iff (c : Nat → Prop) [DecidablePred c] (first slot : Nat) :
    (if c first then first + 1 else first) ≤ slot ↔ first ≤ slot ∧ ¬ (slot = first ∧ c slot) := by
  by_cases heq : slot = first
  · subst heq
    by_cases h : c slot <;> simp [h]
  split <;> omega

theorem le_ite_pred_iff (c : Nat → Prop) [DecidablePred c] (last slot : Nat)
    (hp : c last → 1 ≤ last) :
    slot ≤ (if c last then last - 1 else last) ↔ slot ≤ last ∧ ¬ (slot = last ∧ c slot) := by
  by_cases heq : slot = last
  · subst heq
    by_cases h : c slot
    · have := hp h
      simp only [h, if_true, and_self, not_true, and_false, iff_false]
      omega
    simp [h]
  split <;> omega

theorem mem_trimOffsets {nva mn mx slot : Nat} :
    slot ∈ trimOffsets info nva mn mx ↔
      mn ≤ slot ∧ slot ≤ mx ∧ ¬ (info.index slot < 0 ∧ CutOff info nva mn mx slot) := by
  have hr (a b : Nat) : slot ∈ (if a ≤ b then bmsAddRange none a b else none) ↔
      a ≤ slot ∧ slot ≤ b := by
    split
    · simp
    simp only [not_mem_none, false_iff]
    omega
  have hm := ite_succ_le_iff (fun i => i < info.ndatums ∧ info.index i < 0 ∧
    info.kind i (nva - 1) = some .minvalue) mn slot
  have hmx := le_ite_pred_iff (fun i => 1 ≤ i ∧ info.index i < 0 ∧
    info.kind (i - 1) (nva - 1) = some .maxvalue) mx slot And.left
  unfold trimOffsets CutOff
  rw [hr, hm, hmx]
  constructor
  · rintro ⟨⟨hlo, hc1⟩, hhi, hc2⟩
    refine ⟨hlo, hhi, ?_⟩
    rintro ⟨hn, ⟨heq, hlt, hk⟩ | ⟨heq, ho, hk⟩⟩
    · exact hc1 ⟨heq, hlt, hn, hk⟩
    · exact hc2 ⟨heq, ho, hn, hk⟩
  · rintro ⟨hlo, hhi, hc⟩
    refine ⟨⟨hlo, ?_⟩, hhi, ?_⟩
    · rintro ⟨heq, hlt, hn, hk⟩
      exact hc ⟨hn, Or.inl ⟨heq, hlt, hk⟩⟩
    rintro ⟨heq, ho, hn, hk⟩
    exact hc ⟨hn, Or.inr ⟨heq, ho, hk⟩⟩

end Slots

/-! ## What a step keeps -/

section Keeps

variable {key : PartitionKey D} {info : PartitionBoundInfo D} {vals : List D}
variable {ops : StrategyNumber} {slot : Nat}

/-- The slots of the rows that satisfy an inequality on the whole key. -/
def stepSlots (key : PartitionKey D) (boundinfo : PartitionBoundInfo D) (values : List D) :
    StrategyNumber → Nat × Nat
  | .less => (0, boundsBelow key boundinfo values)
  | .lessEqual => (0, boundsUpto key boundinfo values)
  | _ => (boundsUpto key boundinfo values, boundinfo.ndatums)

/-- The step is `<=` on leading columns, the values equal the first two bounds and no
other, the search ends at the first, and the row lies in a partition right above
the second. -/
structure WalkStopsShort (key : PartitionKey D) (boundinfo : PartitionBoundInfo D)
    (values : List D) (opstrategy : StrategyNumber) (slot : Nat) : Prop where
  strategy : opstrategy = .lessEqual
  leading : values.length < key.partnatts
  below : boundsBelow key boundinfo values = 0
  upto : boundsUpto key boundinfo values = 2
  ndatums : StopsAtFirst boundinfo.ndatums
  above : slot = 2
  covered : 0 ≤ boundinfo.index slot

/-- The step is an inequality on the whole key, the row belongs to the default
partition, and so do no slots of the step but one at an end that is skipped. -/
structure DefaultCutOff (key : PartitionKey D) (boundinfo : PartitionBoundInfo D)
    (values : List D) (opstrategy : StrategyNumber) (slot : Nat) : Prop where
  strategy : opstrategy ≠ .equal
  whole : values.length = key.partnatts
  uncovered : boundinfo.index slot < 0
  cut : ∀ i, (stepSlots key boundinfo values opstrategy).1 ≤ i →
    i ≤ (stepSlots key boundinfo values opstrategy).2 → boundinfo.index i < 0 →
    CutOff boundinfo values.length (stepSlots key boundinfo values opstrategy).1
      (stepSlots key boundinfo values opstrategy).2 i

/-- The result of a step has a slot, or the default partition for it, exactly if the
step does not lose rows there. -/
structure KeepsSlot (key : PartitionKey D) (boundinfo : PartitionBoundInfo D) (values : List D)
    (opstrategy : StrategyNumber) (slot : Nat) (final : PruneStepResult) : Prop where
  scanNull : final.scanNull = false
  scanDefault : final.scanDefault = true → boundinfo.hasDefault = true
  covered : 0 ≤ boundinfo.index slot →
    (slot ∈ final.boundOffsets ↔ ¬ WalkStopsShort key boundinfo values opstrategy slot)
  uncovered : boundinfo.index slot < 0 → boundinfo.hasDefault = true →
    ((final.scanDefault = true ∨ ∃ i, i ∈ final.boundOffsets ∧ boundinfo.index i < 0) ↔
      ¬ DefaultCutOff key boundinfo values opstrategy slot)

theorem keepsSlot_of_scanDefault {offsets : Relids}
    (hc : 0 ≤ info.index slot → (slot ∈ offsets ↔ ¬ WalkStopsShort key info vals ops slot))
    (hno : ¬ DefaultCutOff key info vals ops slot) :
    KeepsSlot key info vals ops slot ⟨offsets, info.hasDefault, false⟩ where
  scanNull := rfl
  scanDefault h := h
  covered := hc
  uncovered _ hd := by simp [hd, hno]

theorem keepsSlot_trimmed {mn mx : Nat} (hst : ops ≠ .equal)
    (hlen : vals.length ≤ key.partnatts)
    (hw : vals.length = key.partnatts → stepSlots key info vals ops = (mn, mx))
    (hc : 0 ≤ info.index slot → (mn ≤ slot ∧ slot ≤ mx ↔ ¬ WalkStopsShort key info vals ops slot)) :
    KeepsSlot key info vals ops slot
      ⟨trimOffsets info vals.length mn mx,
        if vals.length < key.partnatts then info.hasDefault else false, false⟩ := by
  have hcv : 0 ≤ info.index slot →
      (slot ∈ trimOffsets info vals.length mn mx ↔
        ¬ WalkStopsShort key info vals ops slot) := by
    intro hge
    rw [mem_trimOffsets, ← hc hge]
    have hnt := not_lt.mpr hge
    simp [hnt]
  by_cases hk : vals.length < key.partnatts
  · rw [if_pos hk]
    exact keepsSlot_of_scanDefault hcv fun h => hk.ne h.whole
  rw [if_neg hk]
  refine ⟨rfl, by simp, hcv, fun hng _ => ?_⟩
  have hs := hw (by omega)
  simp only [false_eq_true, false_or, mem_trimOffsets]
  constructor
  · rintro ⟨i, ⟨hlo, hhi, hct⟩, hi⟩ ha
    have h := ha.cut i (by rw [hs]; exact hlo) (by rw [hs]; exact hhi) hi
    rw [hs] at h
    exact hct ⟨hi, h⟩
  · intro hnt
    by_contra hn
    push Not at hn
    refine hnt ⟨hst, by omega, hng, fun i hlo hhi hi => ?_⟩
    rw [hs] at hlo hhi ⊢
    by_contra hct
    exact absurd (hn i ⟨hlo, hhi, fun _ => hct⟩) (not_le.mpr hi)

theorem not_walkStopsShort_of_strategy (h : ops ≠ .lessEqual) :
    ¬ WalkStopsShort key info vals ops slot :=
  fun hs => h hs.strategy

theorem not_walkStopsShort_of_whole (h : vals.length = key.partnatts) :
    ¬ WalkStopsShort key info vals ops slot :=
  fun hs => hs.leading.ne h

theorem keepsSlot_noBounds (hva : ValidBounds key info) (hz : info.ndatums = 0)
    (row : List.Vector D key.partnatts) :
    KeepsSlot key info vals ops (boundsUpto key info row.toList)
      ⟨none, info.hasDefault, false⟩ := by
  have hn := boundsUpto_le key info row.toList
  have hf := hva.first
  have hs : boundsUpto key info row.toList = 0 := by omega
  refine keepsSlot_of_scanDefault (fun hge => ?_) fun hc => ?_
  · rw [hs] at hge
    omega
  have hv := boundsUpto_le key info vals
  have h0 : (stepSlots key info vals ops).1 = 0 := by cases ops <;> simp [stepSlots] <;> omega
  have h := hc.cut 0 h0.le (Nat.zero_le _) (by omega)
  unfold CutOff at h
  omega

theorem keepsSlot_noValues (hva : ValidBounds key info) (hk0 : vals.length = 0)
    (row : List.Vector D key.partnatts) :
    KeepsSlot key info vals ops (boundsUpto key info row.toList)
      ⟨bmsAddRange none 1 (info.ndatums - 1), info.hasDefault, false⟩ := by
  refine keepsSlot_of_scanDefault (fun hge => ?_) fun hc => ?_
  · obtain ⟨hp, hlt⟩ := slot_lt_of_index hva (boundsUpto_le key info row.toList) hge
    have ha : boundsBelow key info vals = info.ndatums := by
      have hn : vals = [] := length_eq_zero_iff.mp hk0
      rw [hn]
      simp [boundsBelow, partitionRboundDatumCmp, rboundDatumCmpFrom, PartitionBoundInfo.ndatums]
    have hno : ¬ WalkStopsShort key info vals ops
        (boundsUpto key info row.toList) := by
      intro h
      have hb := h.below
      omega
    rw [mem_bmsAddRange]
    simp only [not_mem_none, false_or, hno, not_false_eq_true, iff_true]
    omega
  have hw := hc.whole
  have hp := key.partnatts_pos
  omega

section Strategies

variable (hvalid : ValidBounds key info) (hne : vals ≠ [])
  (hlen : vals.length ≤ key.partnatts) (row : List.Vector D key.partnatts)

include hvalid hne hlen

theorem less_keeps (ha : compareKey key.partsupfunc row.toList vals < 0) :
    KeepsSlot key info vals .less (boundsUpto key info row.toList)
      ⟨trimOffsets info vals.length 0 (lessMaxoff key info vals false),
        if vals.length < key.partnatts then info.hasDefault else false, false⟩ := by
  rw [lessMaxoff_exclusive hvalid hne hlen]
  refine keepsSlot_trimmed (by simp) hlen (fun _ => rfl) fun _ => ?_
  have hle := (rowSlot hvalid hne hlen row).le_below ha
  exact iff_of_true ⟨Nat.zero_le _, hle⟩ (not_walkStopsShort_of_strategy (by simp))

theorem lessEqual_keeps (ha : compareKey key.partsupfunc row.toList vals ≤ 0) :
    KeepsSlot key info vals .lessEqual (boundsUpto key info row.toList)
      ⟨trimOffsets info vals.length 0 (lessMaxoff key info vals true),
        if vals.length < key.partnatts then info.hasDefault else false, false⟩ := by
  have hle := (rowSlot hvalid hne hlen row).le_upto ha
  refine keepsSlot_trimmed (by simp) hlen (fun hw => ?_) (fun hge => ?_)
  · rw [lessMaxoff_whole hvalid hw hne]
    rfl
  obtain ⟨hp, -⟩ := slot_lt_of_index hvalid (boundsUpto_le key info row.toList) hge
  obtain hw | hk := eq_or_lt_of_le hlen
  · rw [lessMaxoff_whole hvalid hw hne]
    exact iff_of_true ⟨Nat.zero_le _, hle⟩ (not_walkStopsShort_of_whole hw)
  obtain ⟨hb, hu, hst, hm⟩ | ⟨hno, hm⟩ := lessMaxoff_inclusive hvalid hne hk
  · -- the walk stops at the first bound: slot 1 is kept, slot 2 is not
    rw [hm]
    constructor
    · intro hin hs
      have h2 := hs.above
      omega
    · intro hn
      refine ⟨Nat.zero_le _, ?_⟩
      by_contra hgt
      exact hn ⟨rfl, hk, hb, hu, hst, by omega, hge⟩
  rw [hm]
  exact iff_of_true ⟨Nat.zero_le _, hle⟩ fun h => hno ⟨h.below, h.upto, h.ndatums⟩

theorem equal_keeps (ha : compareKey key.partsupfunc row.toList vals = 0) :
    KeepsSlot key info vals .equal (boundsUpto key info row.toList)
      ⟨equalOffsets key info vals,
        if vals.length < key.partnatts then info.hasDefault else false, false⟩ := by
  have hm := mem_equalOffsets hvalid hne hlen row ha
  refine ⟨rfl, ?_, fun _ => ?_, fun hn _ => ?_⟩
  · intro h
    by_cases hk : vals.length < key.partnatts
    · simpa [hk] using h
    · simp [hk] at h
  · exact iff_of_true hm (not_walkStopsShort_of_strategy (by simp))
  exact iff_of_true (Or.inr ⟨_, hm, hn⟩) fun h => h.strategy rfl

theorem greaterEqual_keeps (ha : 0 ≤ compareKey key.partsupfunc row.toList vals) :
    KeepsSlot key info vals .greaterEqual (boundsUpto key info row.toList)
      ⟨trimOffsets info vals.length (greaterMinoff key info vals true)
          info.ndatums,
        if vals.length < key.partnatts then info.hasDefault else false, false⟩ := by
  have hs := rowSlot hvalid hne hlen row
  refine keepsSlot_trimmed (by simp) hlen (fun hw => ?_) (fun _ => ?_)
  · rw [greaterMinoff_whole hvalid hw hne]
    rfl
  refine iff_of_true ⟨?_, boundsUpto_le key info row.toList⟩
    (not_walkStopsShort_of_strategy (by simp))
  obtain hw | hk := eq_or_lt_of_le hlen
  · rw [greaterMinoff_whole hvalid hw hne]
    exact hs.whole hw ha
  rw [greaterMinoff_inclusive hvalid hne hk]
  exact hs.ge_below ha

theorem greater_keeps (ha : 0 < compareKey key.partsupfunc row.toList vals) :
    KeepsSlot key info vals .greater (boundsUpto key info row.toList)
      ⟨trimOffsets info vals.length (greaterMinoff key info vals false)
          info.ndatums,
        if vals.length < key.partnatts then info.hasDefault else false, false⟩ := by
  have hge := (rowSlot hvalid hne hlen row).ge_upto ha
  refine keepsSlot_trimmed (by simp) hlen (fun hw => ?_) (fun _ => ?_)
  · rw [greaterMinoff_whole hvalid hw hne]
    rfl
  refine iff_of_true ⟨?_, boundsUpto_le key info row.toList⟩
    (not_walkStopsShort_of_strategy (by simp))
  obtain hw | hk := eq_or_lt_of_le hlen
  · rw [greaterMinoff_whole hvalid hw hne]
    exact hge
  exact (greaterMinoff_le hvalid hne hk).trans hge

end Strategies

/-- **One step.**  Every accepted row's slot is kept but in the two cases. -/
theorem getMatchingRangeBounds_keeps (hva : ValidBounds key info)
    (hlen : vals.length ≤ key.partnatts) (row : List.Vector D key.partnatts)
    (ha : ops.Accepts (compareKey key.partsupfunc row.toList vals)) :
    ∃ final, getMatchingRangeBounds key info vals ops none = .ok final ∧
      KeepsSlot key info vals ops (boundsUpto key info row.toList) final := by
  have hf := hva.first
  have hl := hva.last info.ndatums le_rfl
  unfold getMatchingRangeBounds
  by_cases hz : info.ndatums = 0
  · rw [if_pos (Or.inl hz)]
    exact ⟨_, rfl, keepsSlot_noBounds hva hz row⟩
  rw [if_neg (by simp [hz])]
  by_cases hk0 : vals.length = 0
  · rw [if_pos hk0, if_pos (by omega), if_pos (by omega)]
    exact ⟨_, rfl, keepsSlot_noValues hva hk0 row⟩
  rw [if_neg hk0]
  have hne : vals ≠ [] := by
    rintro rfl
    simp at hk0
  cases ops with
  | less => exact ⟨_, rfl, less_keeps hva hne hlen row ha⟩
  | lessEqual => exact ⟨_, rfl, lessEqual_keeps hva hne hlen row ha⟩
  | equal => exact ⟨_, rfl, equal_keeps hva hne hlen row ha⟩
  | greaterEqual => exact ⟨_, rfl, greaterEqual_keeps hva hne hlen row ha⟩
  | greater => exact ⟨_, rfl, greater_keeps hva hne hlen row ha⟩
  | other number => exact ha.elim

theorem gatherValues_done (rem kn : Nat) (vals : List D) (h : vals.length < kn)
    (exprs : List (Option D)) : gatherValues none rem kn vals exprs = some vals := by
  cases rem with
  | zero => rfl
  | succ rem => simp [gatherValues, h]

theorem gatherValues_eq (rest : List D) :
    ∀ (rem kn : Nat) (vals : List D), vals.length = kn → rest.length ≤ rem →
      gatherValues none rem kn vals (rest.map some) = some (vals ++ rest) := by
  induction rest with
  | nil =>
    intro rem kn vals hk _
    cases rem with
    | zero => simp [gatherValues]
    | succ rem =>
      simp only [gatherValues, not_mem_none, if_false, hk, lt_irrefl, map_nil, append_nil]
      exact gatherValues_done rem (kn + 1) vals (by omega) []
  | cons d rest ih =>
    intro rem kn vals hk hlen
    cases rem with
    | zero => simp at hlen
    | succ rem =>
      simp only [gatherValues, not_mem_none, if_false, hk, lt_irrefl, map_cons]
      rw [ih rem (kn + 1) (vals ++ [d]) (by simp [hk]) (by simpa using hlen)]
      simp

end Keeps

/-- **Range pruning.**  Whatever was routed before, the partition to which a row is
routed that satisfies an operator step is among those the step keeps, unless the
walk over equal bounds stops short or the default partition is cut off. -/
theorem range_pruning_keeps_iff (key : PartitionKey D)
    (specs : List (PartitionBoundSpec D key.partnatts)) (hvalid : ValidPartitions key specs)
    (earlier : List (TupleKey D key.partnatts)) (opstrategy : StrategyNumber) (values : List D)
    (hlen : values.length ≤ key.partnatts) (row : TupleKey D key.partnatts)
    (hnull : row.isnull.toList.any id = false)
    (haccepts : opstrategy.Accepts (compareKey key.partsupfunc row.values.toList values)) (p : Nat)
    (hroute : (getPartitionForTuple key (createRangeBounds key specs).1
      (routeTuples key (createRangeBounds key specs).1 earlier) row).1 = p) :
    ∃ result,
      getMatchingPartitions ⟨key, specs.length, (createRangeBounds key specs).1⟩
        [.op 0 ⟨opstrategy, values.map some, none⟩] = .ok result ∧
      (p ∈ result ↔
        ¬ WalkStopsShort key (createRangeBounds key specs).1 values opstrategy
            (boundsUpto key (createRangeBounds key specs).1 row.values.toList) ∧
        ¬ DefaultCutOff key (createRangeBounds key specs).1 values opstrategy
            (boundsUpto key (createRangeBounds key specs).1 row.values.toList)) := by
  have hb := createRangeBounds_valid hvalid
  generalize (createRangeBounds key specs).1 = boundinfo at hb hroute ⊢
  obtain ⟨final, hs, hk⟩ := getMatchingRangeBounds_keeps hb hlen row.values haccepts
  rw [getPartitionForTuple_eq hb (routeTuples_remembersHit hb earlier) row hnull] at hroute
  refine ⟨collectPartitions boundinfo final, ?_, ?_⟩
  · have hbs : performPruningBaseStep ⟨key, specs.length, boundinfo⟩
        ⟨opstrategy, values.map some, none⟩ = .ok final := by
      simp only [performPruningBaseStep, gatherValues_eq values key.partnatts 0 [] rfl hlen,
        nil_append, hs]
    simp [getMatchingPartitions, PruneContext.getMatchingPartitions, PruneContext.performSteps,
      PruneContext.performStep, PartitionPruneStep.stepId, hbs, bind, Except.bind]
  rw [mem_collectPartitions hb hk.scanNull hk.scanDefault hroute]
  by_cases hn : boundinfo.index (boundsUpto key boundinfo row.values.toList) < 0
  · have hd : boundinfo.hasDefault = true := by
      rw [partitionOfSlot, if_pos hn] at hroute
      have hne : boundinfo.defaultIndex ≠ -1 := by omega
      simp [PartitionBoundInfo.hasDefault, hne]
    have hno : ¬ WalkStopsShort key boundinfo values opstrategy
        (boundsUpto key boundinfo row.values.toList) := fun h => absurd h.covered (by omega)
    have hnn : ¬ 0 ≤ boundinfo.index (boundsUpto key boundinfo row.values.toList) := by omega
    simp only [hnn, false_and, false_or, hn, true_and, hk.uncovered hn hd, hno, not_false_eq_true]
  have hno : ¬ DefaultCutOff key boundinfo values opstrategy
      (boundsUpto key boundinfo row.values.toList) := fun h => hn h.uncovered
  simp only [not_lt.mp hn, true_and, hk.covered (not_lt.mp hn), hn, false_and, or_false,
    hno, not_false_eq_true, and_true]

/-! ## Rows that are lost -/

def twoIntKey : PartitionKey Int where
  partsupfunc := [fun a b => a - b, fun a b => a - b]
  comparators := by
    intro supfunc h
    have hsub : supfunc = fun a b => a - b := by simpa using h
    subst hsub
    exact .sub
  nonempty := by simp

/-- The bound `(a, b)`. -/
def intBound (a b : Int) : List.Vector (PartitionRangeDatum Int) twoIntKey.partnatts :=
  ⟨[.value a, .value b], rfl⟩

/-- The row `(a, b)`. -/
def intRow (a b : Int) : TupleKey Int twoIntKey.partnatts := ⟨⟨[a, b], rfl⟩, ⟨[false, false], rfl⟩⟩

/-- From `(1, 0)` over `(1, 10)`, `(2, 0)` and `(3, 0)` to `(4, 0)`. -/
def fourPartitions : List (PartitionBoundSpec Int twoIntKey.partnatts) :=
  [.range (intBound 1 0) (intBound 1 10), .range (intBound 1 10) (intBound 2 0),
    .range (intBound 2 0) (intBound 3 0), .range (intBound 3 0) (intBound 4 0)]

/-- From `(1, MINVALUE)` on, and a default partition. -/
def openPartitions : List (PartitionBoundSpec Int twoIntKey.partnatts) :=
  [.range ⟨[.value 1, .minvalue], rfl⟩ ⟨[.maxvalue, .maxvalue], rfl⟩, .default]

theorem fourPartitions_valid : ValidPartitions twoIntKey fourPartitions :=
  ⟨by decide +kernel, by decide +kernel⟩

theorem openPartitions_valid : ValidPartitions twoIntKey openPartitions :=
  ⟨by decide +kernel, by decide +kernel⟩

/-- `a <= 2` keeps the partition of `(1, 50)`. -/
theorem range_pruning_keeps_four :
    ∃ result,
      getMatchingPartitions ⟨twoIntKey, 4, (createRangeBounds twoIntKey fourPartitions).1⟩
        [.op 0 ⟨.lessEqual, [some 2], none⟩] = .ok result ∧
      (1 ∈ result ↔
        ¬ WalkStopsShort twoIntKey (createRangeBounds twoIntKey fourPartitions).1 [2] .lessEqual
            (boundsUpto twoIntKey (createRangeBounds twoIntKey fourPartitions).1 [1, 50]) ∧
        ¬ DefaultCutOff twoIntKey (createRangeBounds twoIntKey fourPartitions).1 [2] .lessEqual
            (boundsUpto twoIntKey (createRangeBounds twoIntKey fourPartitions).1 [1, 50])) :=
  range_pruning_keeps_iff twoIntKey fourPartitions fourPartitions_valid [] .lessEqual [2]
    (by decide) (intRow 1 50) (by decide) (by decide) 1 (by decide +kernel)

/-- `a <= 1` drops the partition of `(1, 50)`, and `(a, b) >= (0, 5)` the default
partition with `(0, 7)`. -/
theorem range_pruning_loses_rows :
    (ValidPartitions twoIntKey fourPartitions ∧
      StrategyNumber.lessEqual.Accepts (compareKey twoIntKey.partsupfunc [1, 50] [1]) ∧
      (getPartitionForTuple twoIntKey (createRangeBounds twoIntKey fourPartitions).1 .initial
        (intRow 1 50)).1 = 1 ∧
      (getMatchingPartitions ⟨twoIntKey, 4, (createRangeBounds twoIntKey fourPartitions).1⟩
        [.op 0 ⟨.lessEqual, [some 1], none⟩]).map bmsMembers = .ok [0]) ∧
    ValidPartitions twoIntKey openPartitions ∧
    StrategyNumber.greaterEqual.Accepts (compareKey twoIntKey.partsupfunc [0, 7] [0, 5]) ∧
    (getPartitionForTuple twoIntKey (createRangeBounds twoIntKey openPartitions).1 .initial
      (intRow 0 7)).1 = 1 ∧
    (getMatchingPartitions ⟨twoIntKey, 2, (createRangeBounds twoIntKey openPartitions).1⟩
      [.op 0 ⟨.greaterEqual, [some 0, some 5], none⟩]).map bmsMembers = .ok [0] :=
  ⟨⟨fourPartitions_valid, by decide, by decide +kernel, by rfl⟩,
    openPartitions_valid, by decide, by decide +kernel, by rfl⟩

end AthenaPG
