import AthenaPG.Partitioning.PartBounds

/-!
Tuple routing for range partitions (`get_partition_for_tuple` of
`src/backend/executor/execPartition.c`).

After `PARTITION_CACHED_FIND_THRESHOLD` hits in a row the last partition found is
tried before the search.

* `getPartitionForTuple_eq`: with or without the remembered lookup, a tuple goes to
  the partition whose slot it is in.
* `routeTuples_remembersHit`: what is remembered stays true over any sequence of
  tuples.
-/

namespace AthenaPG

open Bisection

variable {D : Type}

/-- The cache fields of a `PartitionDesc`. -/
structure LastFound where
  lastFoundDatumIndex : Int
  lastFoundPartIndex : Int
  lastFoundCount : Nat

def LastFound.initial : LastFound := ⟨-1, -1, 0⟩

def partitionCachedFindThreshold : Nat := 16

structure TupleKey (D : Type) (partnatts : Nat) where
  values : List.Vector D partnatts
  isnull : List.Vector Bool partnatts

variable (key : PartitionKey D)

variable (boundinfo : PartitionBoundInfo D)

/-- Check whether the values still belong to the partition found last. -/
def cachedLookup (last : LastFound)
    (values : List D) : Option Int :=
  if partitionCachedFindThreshold ≤ last.lastFoundCount then
    let lastDatumOffset := last.lastFoundDatumIndex.toNat
    let cmpval := partitionRboundDatumCmp key.partsupfunc (boundinfo.datum lastDatumOffset) values
    if cmpval = 0 then some (boundinfo.index (lastDatumOffset + 1))
    else if cmpval < 0 ∧ lastDatumOffset + 1 < boundinfo.ndatums then
      let cmpval :=
        partitionRboundDatumCmp key.partsupfunc (boundinfo.datum (lastDatumOffset + 1)) values
      if 0 < cmpval then some (boundinfo.index (lastDatumOffset + 1)) else none
    else none
  else none

/-- `get_partition_for_tuple` under `PARTITION_STRATEGY_RANGE`. -/
def getPartitionForTuple
    (last : LastFound) (tuple : TupleKey D key.partnatts) : Int × LastFound :=
  if tuple.isnull.toList.any id then (boundinfo.defaultIndex, last)
  else
    match cachedLookup key boundinfo last tuple.values.toList with
    | some partIndex => (partIndex, last)
    | none =>
      let boundOffset :=
        (partitionRangeDatumBsearch key.partsupfunc boundinfo tuple.values.toList).1
      let partIndex := boundinfo.index (boundOffset + 1).toNat
      if partIndex < 0 then (boundinfo.defaultIndex, last)
      else if boundOffset = last.lastFoundDatumIndex then
        (partIndex, { last with lastFoundCount := last.lastFoundCount + 1 })
      else (partIndex, ⟨boundOffset, partIndex, 1⟩)

def routeTuples
    (tuples : List (TupleKey D key.partnatts)) : LastFound :=
  tuples.foldl (fun last tuple => (getPartitionForTuple key boundinfo last tuple).2) .initial

/-- The partition of a slot, which lies between two neighbouring bounds. -/
def partitionOfSlot (slot : Nat) : Int :=
  if boundinfo.index slot < 0 then boundinfo.defaultIndex else boundinfo.index slot

/-- If a lookup is remembered, its offset is the lower bound of a partition. -/
def RemembersHit (last : LastFound) : Prop :=
  last.lastFoundCount = 0 ∨
    ∃ off : Nat, last.lastFoundDatumIndex = off ∧ 0 ≤ boundinfo.index (off + 1)

section Routing

variable {key : PartitionKey D} {info : PartitionBoundInfo D}

theorem slot_lt_of_index (hv : ValidBounds key info) {slot : Nat}
    (hle : slot ≤ info.ndatums) (h : 0 ≤ info.index slot) : 0 < slot ∧ slot < info.ndatums := by
  have h0 := hv.first
  have hn := hv.last slot
  refine ⟨Nat.pos_of_ne_zero ?_, lt_of_le_of_ne hle ?_⟩
  · rintro rfl
    omega
  intro heq
  omega

theorem values_ne_nil (values : List.Vector D key.partnatts) : values.toList ≠ [] := by
  intro h
  have hl := values.toList_length
  have hp := key.partnatts_pos
  rw [h] at hl
  simp at hl
  omega

theorem partitionRangeDatumBsearch_slot (hv : ValidBounds key info)
    (values : List.Vector D key.partnatts) :
    (partitionRangeDatumBsearch key.partsupfunc info values.toList).1 =
      (boundsUpto key info values.toList : Int) - 1 := by
  have hl := values.toList_length
  have hp := datumProfile hv (values_ne_nil values) hl.le
  have hon := boundsUpto_le_succ hv hl
  obtain heq | hlt := Nat.eq_or_lt_of_le hp.below_le
  · unfold partitionRangeDatumBsearch
    rw [bsearch_missed hp heq, heq]
  obtain ⟨off, ho, hlw, hup, -⟩ := bsearch_found hp hlt
  unfold partitionRangeDatumBsearch
  rw [ho]
  omega

section

variable {last : LastFound} (hv : ValidBounds key info) (hls : RemembersHit info last)
include hv hls

theorem cachedLookup_eq (values : List.Vector D key.partnatts) {partIndex : Int}
    (h : cachedLookup key info last values.toList = some partIndex) :
    partIndex = info.index (boundsUpto key info values.toList) ∧ 0 ≤ partIndex := by
  have hl := values.toList_length
  have hpr := datumProfile hv (values_ne_nil values) hl.le
  have hon := boundsUpto_le_succ hv hl
  have hb := hpr.below_le
  unfold cachedLookup at h
  by_cases hc : partitionCachedFindThreshold ≤ last.lastFoundCount
  · obtain hzr | ⟨off, ho, hi⟩ := hls
    · rw [hzr] at hc
      simp [partitionCachedFindThreshold] at hc
    have ho1 : off + 1 < info.ndatums := by
      by_contra hge
      -- past the last bound there is no partition
      have hn := hv.last (off + 1) (not_lt.mp hge)
      omega
    have h0 := hpr.eq_zero_iff (show off < info.ndatums by omega)
    have hng := hpr.neg off (by omega)
    have hnx := hpr.nonpos (off + 1) ho1
    have hsl (hs : boundsUpto key info values.toList = off + 1)
        (hp : info.index (off + 1) = partIndex) :
        partIndex = info.index (boundsUpto key info values.toList) ∧ 0 ≤ partIndex := by
      rw [hs]
      exact ⟨hp.symm, hp ▸ hi⟩
    rw [if_pos hc, ho] at h
    simp only [Int.toNat_natCast] at h
    split at h
    next hz => exact hsl (by omega) (Option.some.inj h)
    split at h
    · split at h
      · exact hsl (by omega) (Option.some.inj h)
      · simp at h
    · simp at h
  rw [if_neg hc] at h
  simp at h

/-- **Routing.**  A tuple without nulls goes to the partition of its slot, whatever
lookup is remembered, and what is remembered stays a hit. -/
theorem getPartitionForTuple_eq (tuple : TupleKey D key.partnatts)
    (hn : tuple.isnull.toList.any id = false) :
    (getPartitionForTuple key info last tuple).1 =
      partitionOfSlot info (boundsUpto key info tuple.values.toList) := by
  unfold getPartitionForTuple
  rw [hn, if_neg (by simp)]
  cases hc : cachedLookup key info last tuple.values.toList with
  | some partIndex =>
    obtain ⟨heq, hge⟩ := cachedLookup_eq hv hls tuple.values hc
    show partIndex = _
    unfold partitionOfSlot
    rw [← heq, if_neg (by omega)]
  | none =>
    simp only [partitionRangeDatumBsearch_slot hv, partitionOfSlot, sub_add_cancel,
      Int.toNat_natCast]
    split
    · rfl
    · split <;> rfl

theorem getPartitionForTuple_remembersHit (tp : TupleKey D key.partnatts) :
    RemembersHit info (getPartitionForTuple key info last tp).2 := by
  unfold getPartitionForTuple
  split
  · exact hls
  cases hc : cachedLookup key info last tp.values.toList with
  | some partIndex => exact hls
  | none =>
    simp only [partitionRangeDatumBsearch_slot hv, sub_add_cancel, Int.toNat_natCast]
    split
    · exact hls
    rename_i hge
    obtain ⟨hp, -⟩ := slot_lt_of_index hv (boundsUpto_le key info _) (not_lt.mp hge)
    have hh : ∃ off : Nat,
        (boundsUpto key info tp.values.toList : Int) - 1 = off ∧
        0 ≤ info.index (off + 1) :=
      ⟨boundsUpto key info tp.values.toList - 1, by omega, by
        rw [Nat.sub_add_cancel hp]
        exact not_lt.mp hge⟩
    split
    next hs =>
      obtain ⟨off, ho, hi⟩ := hh
      exact Or.inr ⟨off, by rw [← hs, ho], hi⟩
    · exact Or.inr hh

end

/-- **Over a run.** -/
theorem routeTuples_remembersHit (hv : ValidBounds key info)
    (tuples : List (TupleKey D key.partnatts)) :
    RemembersHit info (routeTuples key info tuples) := by
  induction tuples using List.reverseRecOn with
  | nil => exact Or.inl rfl
  | append_singleton tuples tuple ih =>
    unfold routeTuples
    rw [List.foldl_append]
    exact getPartitionForTuple_remembersHit hv ih tuple

end Routing

end AthenaPG
