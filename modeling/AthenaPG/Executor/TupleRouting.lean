import AthenaPG.Executor.ExecPartition
import AthenaPG.Partitioning.HashBounds
import AthenaPG.Partitioning.ListBounds
import AthenaPG.Partitioning.RangeSlots

/-!
Tuple routing under every partitioning strategy (`get_partition_for_tuple` of
`src/backend/executor/execPartition.c`).

* `hashRouting_right`, `listRouting_right`, `rangeRouting_right`: one lookup, from any
  cache state a run can reach.
* `routing_exact`: over any sequence of tuples, each goes to the one partition that
  accepts it, to the default partition if none does, and nowhere without one.
-/

namespace AthenaPG

open Bisection Comparator Numbering

variable {D : Type}

/-! ## Lookups -/

/-- The key columns of a tuple, `none` for a null. -/
def TupleKey.columns {n : Nat} (tuple : TupleKey D n) : List (Option D) :=
  List.zipWith (fun value isnull => if isnull then none else some value) tuple.values.toList
    tuple.isnull.toList

/-- `get_partition_for_tuple` under `PARTITION_STRATEGY_HASH`, which caches nothing. -/
def getHashPartitionForTuple (key : HashPartitionKey D) (boundinfo : PartitionBoundInfo Nat)
    (last : LastFound) (tuple : TupleKey D key.partnatts) : Int × LastFound :=
  let rowHash := computePartitionHashValue key tuple.columns
  (boundinfo.index (rowHash % boundinfo.indexes.length), last)

variable (key : ListPartitionKey D)

def listCachedLookup (boundinfo : PartitionBoundInfo D)
    (last : LastFound) (value : D) : Option Int :=
  if partitionCachedFindThreshold ≤ last.lastFoundCount then
    let lastDatumOffset := last.lastFoundDatumIndex.toNat
    if listDatumCmp key.partsupfunc (boundinfo.datum lastDatumOffset) value = 0 then
      some (boundinfo.index lastDatumOffset)
    else none
  else none

/-- `get_partition_for_tuple` under `PARTITION_STRATEGY_LIST`. -/
def getListPartitionForTuple (boundinfo : PartitionBoundInfo D)
    (last : LastFound) (tuple : TupleKey D 1) : Int × LastFound :=
  if tuple.isnull.head then
    if boundinfo.acceptsNulls then (boundinfo.nullIndex, last) else (boundinfo.defaultIndex, last)
  else
    match listCachedLookup key boundinfo last tuple.values.head with
    | some partIndex => (partIndex, last)
    | none =>
      let (boundOffset, equal) := partitionListBsearch key.partsupfunc boundinfo tuple.values.head
      let partIndex := if 0 ≤ boundOffset ∧ equal then boundinfo.index boundOffset.toNat else -1
      if partIndex < 0 then (boundinfo.defaultIndex, last)
      else if boundOffset = last.lastFoundDatumIndex then
        (partIndex, { last with lastFoundCount := last.lastFoundCount + 1 })
      else (partIndex, ⟨boundOffset, partIndex, 1⟩)

/-! ## Partitioned tables -/

/-- A partitioned table: its key and the bound specs of its partitions. -/
inductive PartitionedTable (D : Type)
  | hash (key : HashPartitionKey D) (specs : List HashBoundSpec)
  | list (key : ListPartitionKey D) (specs : List (ListBoundSpec D))
  | range (key : PartitionKey D) (specs : List (PartitionBoundSpec D key.partnatts))

/-- The value of a list key, `none` for a null. -/
def TupleKey.listValue (tuple : TupleKey D 1) : Option D :=
  if tuple.isnull.head then none else some tuple.values.head

def ListAccepts (spec : ListBoundSpec D) : Option D → Prop
  | none => spec.Lists none
  | some value => ∃ datum, spec.Lists (some datum) ∧ key.partsupfunc datum value = 0

namespace PartitionedTable

def partnatts : PartitionedTable D → Nat
  | .hash key _ => key.partnatts
  | .list _ _ => 1
  | .range key _ => key.partnatts

def nparts : PartitionedTable D → Nat
  | .hash _ specs => specs.length
  | .list _ specs => specs.length
  | .range _ specs => specs.length

def Valid : PartitionedTable D → Prop
  | .hash _ specs => ValidHashPartitions specs
  | .list key specs => ValidListPartitions key specs
  | .range key specs => ValidPartitions key specs

/-- Partition `i` has a spec that accepts the key of the tuple. -/
def Accepts : (table : PartitionedTable D) → Nat → TupleKey D table.partnatts → Prop
  | .hash key specs, i, tuple => ∃ spec, specs[i]? = some spec ∧
    spec.Accepts (computePartitionHashValue key tuple.columns)
  | .list key specs, i, tuple => ∃ spec, specs[i]? = some spec ∧
    ListAccepts key spec (TupleKey.listValue tuple)
  | .range key specs, i, tuple => ∃ spec, specs[i]? = some spec ∧
    tuple.isnull.toList.any id = false ∧ RangeAccepts key tuple.values.toList spec

/-- Partition `i` is the default partition. -/
def IsDefault : PartitionedTable D → Nat → Prop
  | .hash _ _, _ => False
  | .list _ specs, i => specs[i]? = some .default
  | .range _ specs, i => specs[i]? = some .default

/-- The bounds built for a table, as its lookup function and the mapping to
canonical indexes. -/
def partitionDispatch : (table : PartitionedTable D) → Except ListBoundsError
    ((Nat → Int) × (LastFound → TupleKey D table.partnatts → Int × LastFound))
  | .hash key specs =>
    let (boundinfo, mapping) := createHashBounds specs
    .ok (mapping, getHashPartitionForTuple key boundinfo)
  | .list key specs => do
    let (boundinfo, mapping) ← createListBounds key specs
    .ok (mapping, getListPartitionForTuple key boundinfo)
  | .range key specs =>
    let (boundinfo, mapping) := createRangeBounds key specs
    .ok (mapping, getPartitionForTuple key boundinfo)

end PartitionedTable

def routeResults {T : Type} (route : LastFound → T → Int × LastFound) :
    LastFound → List T → List Int
  | _, [] => []
  | last, tuple :: tuples =>
    (route last tuple).1 :: routeResults route (route last tuple).2 tuples

/-- The result of a lookup is the canonical index of the one partition that accepts
the tuple, else that of the default partition, else `-1`. -/
structure RoutedRight (table : PartitionedTable D) (mapping : Nat → Int)
    (tuple : TupleKey D table.partnatts) (result : Int) : Prop where
  unique : ∀ i j, table.Accepts i tuple → table.Accepts j tuple → i = j
  accepted : ∀ i, table.Accepts i tuple → result = mapping i
  unaccepted : (∀ i, ¬ table.Accepts i tuple) → SpecialIndex table.IsDefault mapping result

structure CanonicalIndexes (nparts : Nat) (mapping : Nat → Int) : Prop where
  numbered : ∀ i < nparts, 0 ≤ mapping i ∧ mapping i < nparts
  inj : ∀ i < nparts, ∀ j < nparts, mapping i = mapping j → i = j

def cacheAfter {T : Type} (route : LastFound → T → Int × LastFound) (last : LastFound)
    (tuples : List T) : LastFound :=
  tuples.foldl (fun last tuple => (route last tuple).2) last

variable {table : PartitionedTable D} {last : LastFound}

theorem PartitionedTable.Accepts.lt_nparts {i : Nat} {tp : TupleKey D table.partnatts}
    (h : table.Accepts i tp) : i < table.nparts := by
  cases table with
  | hash key ss | list key ss | range key ss =>
    obtain ⟨spec, hi, -⟩ := h
    exact (List.getElem?_eq_some_iff.mp hi).1

theorem PartitionedTable.IsDefault.lt_nparts {i : Nat} (h : table.IsDefault i) :
    i < table.nparts := by
  cases table with
  | hash key ss => exact h.elim
  | list key ss | range key ss => exact (List.getElem?_eq_some_iff.mp h).1

theorem RoutedRight.lt_nparts {mp : Nat → Int} {tp : TupleKey D table.partnatts}
    {result : Int} (h : RoutedRight table mp tp result)
    (hm : CanonicalIndexes table.nparts mp) : result < table.nparts := by
  by_cases hs : ∃ i, table.Accepts i tp
  · obtain ⟨i, hi⟩ := hs
    rw [h.accepted i hi]
    exact (hm.numbered i hi.lt_nparts).2
  obtain ⟨hdf, hn⟩ := h.unaccepted fun i hi => hs ⟨i, hi⟩
  by_cases hd : ∃ i, table.IsDefault i
  · obtain ⟨i, hi⟩ := hd
    rw [hdf i hi]
    exact (hm.numbered i hi.lt_nparts).2
  rw [hn fun i hi => hd ⟨i, hi⟩]
  omega

/-! ## One lookup -/

theorem hashRouting_right (key : HashPartitionKey D) {ss : List HashBoundSpec}
    (hva : ValidHashPartitions ss) (last : LastFound) (tp : TupleKey D key.partnatts) :
    RoutedRight (.hash key ss) (createHashBounds ss).2 tp
      (getHashPartitionForTuple key (createHashBounds ss).1 last tp).1 := by
  have hb := createHashBounds_spec hva
  refine ⟨?_, ?_, ?_⟩
  · rintro i j ⟨spec1, hi, h1⟩ ⟨spec2, hj, h2⟩
    exact place_unique hva.disjoint hi hj (fun h => h.2 _ ⟨h1, h2⟩) fun h => h.2 _ ⟨h2, h1⟩
  · rintro i ⟨spec, hi, ha⟩
    exact hb.cell _ i spec hi ha
  intro hno
  refine ⟨fun i hi => hi.elim, fun _ => hb.empty _ fun spec hs ha => ?_⟩
  obtain ⟨i, hi⟩ := List.mem_iff_getElem?.mp hs
  exact hno i ⟨spec, hi, ha⟩

section List

variable {key : ListPartitionKey D} {ss : List (ListBoundSpec D)}
variable {info : PartitionBoundInfo D} {mp : Nat → Int}
variable {vals : List (PartitionListValue D)}

def RemembersDatum (boundinfo : PartitionBoundInfo D) (last : LastFound) : Prop :=
  last.lastFoundCount = 0 ∨ ∃ off : Nat, last.lastFoundDatumIndex = off ∧ off < boundinfo.ndatums

theorem listAccepts_unique (hva : ValidListPartitions key ss) {i j : Nat}
    {spe spc : ListBoundSpec D} {value : Option D} (hi : ss[i]? = some spe)
    (hj : ss[j]? = some spc) (h1 : ListAccepts key spe value)
    (h2 : ListAccepts key spc value) : i = j := by
  have hc := key.comparator
  have hno (s1 s2 : ListBoundSpec D) (h1 : ListAccepts key s1 value)
      (h2 : ListAccepts key s2 value) : ¬ ListNonOverlapping key s1 s2 := by
    intro h
    cases value with
    | none =>
      cases s1 with
      | default => exact h1
      | list datums1 =>
        cases s2 with
        | default => exact h2
        | list datums2 => exact h.2 ⟨h1, h2⟩
    | some v =>
      obtain ⟨d1, hd1, heq1⟩ := h1
      obtain ⟨d2, hd2, heq2⟩ := h2
      cases s1 with
      | default => exact hd1
      | list datums1 =>
        cases s2 with
        | default => exact hd2
        | list datums2 => exact h.1 _ hd1 _ hd2 d1 d2 rfl rfl (hc.eq_trans heq1 (hc.eq_symm heq2))
  exact place_unique hva.disjoint hi hj (hno _ _ h1 h2) (hno _ _ h2 h1)

theorem index_of_equal (hva : ValidListPartitions key ss)
    (h : ListBoundsOf key ss info mp vals) {off : Nat} (ho : off < vals.length)
    {value : D} (heq : key.partsupfunc vals[off].value value = 0) :
    (∃ (i : Nat) (spec : ListBoundSpec D), ss[i]? = some spec ∧ ListAccepts key spec (some value)) ∧
    ∀ (i : Nat) spec, ss[i]? = some spec → ListAccepts key spec (some value) →
      info.index off = mp i := by
  obtain ⟨spec, hs, hl⟩ := (h.listed vals[off]).mp (List.getElem_mem ho)
  have ha : ListAccepts key spec (some value) := ⟨_, hl, heq⟩
  refine ⟨⟨_, spec, hs, ha⟩, fun i spec' hi ha' => ?_⟩
  rw [h.index_eq ho, listAccepts_unique hva hs hi ha ha']

def ListResult (key : ListPartitionKey D) (specs : List (ListBoundSpec D)) (mapping : Nat → Int)
    (value : Option D) (result : Int) : Prop :=
  (∀ (i : Nat) spec, specs[i]? = some spec → ListAccepts key spec value → result = mapping i) ∧
  ((∀ (i : Nat) spec, specs[i]? = some spec → ¬ ListAccepts key spec value) →
    SpecialIndex (fun i => specs[i]? = some ListBoundSpec.default) mapping result)

theorem listResult_of_equal (hva : ValidListPartitions key ss)
    (h : ListBoundsOf key ss info mp vals) {off : Nat} (ho : off < vals.length)
    {value : D} (heq : key.partsupfunc vals[off].value value = 0) :
    ListResult key ss mp (some value) (info.index off) ∧ 0 ≤ info.index off := by
  obtain ⟨⟨i, spec, hi, ha⟩, hin⟩ := index_of_equal hva h ho heq
  refine ⟨⟨hin, fun hno => absurd ha (hno i spec hi)⟩, ?_⟩
  rw [hin i spec hi ha]
  exact (h.numbered i (List.getElem?_eq_some_iff.mp hi).1).1

section

variable (h : ListBoundsOf key ss info mp vals)
include h

theorem listResult_default {value : Option D}
    (hno : ∀ (i : Nat) spec, ss[i]? = some spec → ¬ ListAccepts key spec value) :
    ListResult key ss mp value info.defaultIndex :=
  ⟨fun i spec hi ha => absurd ha (hno i spec hi), fun _ => h.default⟩

theorem listCachedLookup_eq
    {last : LastFound} (hla : RemembersDatum info last) {value : D} {partIndex : Int}
    (hc : listCachedLookup key info last value = some partIndex) :
    ∃ (off : Nat) (ho : off < vals.length), key.partsupfunc vals[off].value value = 0 ∧
      partIndex = info.index off := by
  unfold listCachedLookup at hc
  split at hc
  next hcn =>
    obtain hz | ⟨off, ho, hlt⟩ := hla
    · rw [hz] at hcn
      simp [partitionCachedFindThreshold] at hcn
    rw [h.ndatums_eq] at hlt
    rw [ho] at hc
    simp only [Int.toNat_natCast, h.datum_cmp hlt] at hc
    split at hc
    next heq => exact ⟨off, hlt, heq, (Option.some.inj hc).symm⟩
    · simp at hc
  · simp at hc

end

section

variable {last : LastFound} (hvalid : ValidListPartitions key ss)
  (h : ListBoundsOf key ss info mp vals) (hlast : RemembersDatum info last)
  (tuple : TupleKey D 1)
include hvalid h hlast tuple

theorem getListPartitionForTuple_spec :
    ListResult key ss mp tuple.listValue (getListPartitionForTuple key info last tuple).1 ∧
    RemembersDatum info (getListPartitionForTuple key info last tuple).2 := by
  unfold getListPartitionForTuple TupleKey.listValue
  cases hnl : tuple.isnull.head with
  | true =>
    by_cases hs : ∃ i, Listed ss i none
    · obtain ⟨i, spec, hi, hls⟩ := hs
      have hn := h.null.1 i ⟨spec, hi, hls⟩
      have hge := (h.numbered i (List.getElem?_eq_some_iff.mp hi).1).1
      have ha : info.acceptsNulls = true := by
        simp only [PartitionBoundInfo.acceptsNulls, bne_iff_ne, ne_eq]
        omega
      rw [if_pos ha]
      refine ⟨⟨fun j spec' hj hl => ?_, fun hno => absurd hls (hno i spec hi)⟩, hlast⟩
      exact h.null.1 j ⟨spec', hj, hl⟩
    have hn := h.null.2 fun i hi => hs ⟨i, hi⟩
    have ha : ¬ info.acceptsNulls = true := by simp [PartitionBoundInfo.acceptsNulls, hn]
    rw [if_neg ha]
    exact ⟨listResult_default h fun i spec hi hl => hs ⟨i, spec, hi, hl⟩, hlast⟩
  | false =>
    simp only [Bool.false_eq_true, if_false]
    cases hc : listCachedLookup key info last tuple.values.head with
    | some partIndex =>
      obtain ⟨off, ho, heq, rfl⟩ := listCachedLookup_eq h hlast hc
      exact ⟨(listResult_of_equal hvalid h ho heq).1, hlast⟩
    | none =>
      by_cases hs : ∃ v ∈ vals, key.partsupfunc v.value tuple.values.head = 0
      · obtain ⟨v, hv, he⟩ := hs
        obtain ⟨off, ho, hsr, heq⟩ := h.bsearch_eq_of_listed hv he
        obtain ⟨hr, hge⟩ := listResult_of_equal hvalid h ho heq
        have hrm : ∃ o : Nat, (off : Int) = o ∧ o < info.ndatums :=
          ⟨off, rfl, by rwa [h.ndatums_eq]⟩
        simp only [hsr, Int.natCast_nonneg, and_self, if_true, Int.toNat_natCast]
        rw [if_neg (not_lt.mpr hge)]
        split
        next hsm => exact ⟨hr, Or.inr (hsm ▸ hrm)⟩
        · exact ⟨hr, Or.inr hrm⟩
      simp only [h.bsearch_eq_of_not_listed fun v hv heq => hs ⟨v, hv, heq⟩,
        Bool.false_eq_true, and_false, if_false, Int.reduceNeg, Int.reduceLT, if_true]
      refine ⟨listResult_default h fun i spec hi ha => ?_, hlast⟩
      obtain ⟨d, hd, heq⟩ := ha
      exact hs ⟨⟨i, d⟩, (h.listed _).mpr ⟨spec, hi, hd⟩, heq⟩

theorem listRouting_right :
    RoutedRight (.list key ss) mp tuple (getListPartitionForTuple key info last tuple).1 := by
  obtain ⟨⟨ha, hno⟩, -⟩ := getListPartitionForTuple_spec hvalid h hlast tuple
  refine ⟨?_, ?_, ?_⟩
  · rintro i j ⟨spec1, hi, h1⟩ ⟨spec2, hj, h2⟩
    exact listAccepts_unique hvalid hi hj h1 h2
  · rintro i ⟨spec, hi, h1⟩
    exact ha i spec hi h1
  intro hn
  exact hno fun i spec hi h1 => hn i ⟨spec, hi, h1⟩

end

end List

theorem rangeRouting_right {key : PartitionKey D}
    {ss : List (PartitionBoundSpec D key.partnatts)} (hva : ValidPartitions key ss)
    (hla : RemembersHit (createRangeBounds key ss).1 last) (tp : TupleKey D key.partnatts) :
    RoutedRight (.range key ss) (createRangeBounds key ss).2 tp
      (getPartitionForTuple key (createRangeBounds key ss).1 last tp).1 := by
  have hb := createRangeBounds_spec hva
  refine ⟨?_, ?_, ?_⟩
  · rintro i j ⟨spec1, hi, -, h1⟩ ⟨spec2, hj, -, h2⟩
    refine hb.inj i (List.getElem?_eq_some_iff.mp hi).1 j
      (List.getElem?_eq_some_iff.mp hj).1 ?_
    rw [← hb.slot tp.values i spec1 hi h1, hb.slot tp.values j spec2 hj h2]
  · rintro i ⟨spec, hi, hn, ha⟩
    have hge := (hb.numbered i (List.getElem?_eq_some_iff.mp hi).1).1
    rw [getPartitionForTuple_eq (createRangeBounds_valid hva) hla tp hn,
      partitionOfSlot, hb.slot tp.values i spec hi ha, if_neg (by omega)]
  intro hno
  cases hn : tp.isnull.toList.any id with
  | true =>
    rw [getPartitionForTuple, if_pos hn]
    exact hb.default
  | false =>
    rw [getPartitionForTuple_eq (createRangeBounds_valid hva) hla tp hn,
      partitionOfSlot, hb.gap tp.values ?_, if_pos (by omega)]
    · exact hb.default
    intro spec hm ha
    obtain ⟨i, hi⟩ := List.mem_iff_getElem?.mp hm
    exact hno i ⟨spec, hi, hn, ha⟩

/-! ## Runs -/

theorem routeResults_forall {T : Type} {route : LastFound → T → Int × LastFound}
    (Inv : LastFound → Prop) {Right : T → Int → Prop}
    (hs : ∀ last tuple, Inv last → Right tuple (route last tuple).1 ∧ Inv (route last tuple).2)
    (hla : Inv last) (tuples : List T) :
    List.Forall₂ Right tuples (routeResults route last tuples) := by
  induction tuples generalizing last with
  | nil => exact .nil
  | cons tuple tuples ih =>
    obtain ⟨hr, hi⟩ := hs last tuple hla
    exact .cons hr (ih hi)

theorem cacheAfter_keeps {T : Type} {route : LastFound → T → Int × LastFound}
    (Inv : LastFound → Prop) (hs : ∀ last tuple, Inv last → Inv (route last tuple).2)
    (hla : Inv last) (tuples : List T) : Inv (cacheAfter route last tuples) := by
  induction tuples generalizing last with
  | nil => exact hla
  | cons tuple tuples ih => exact ih (hs last tuple hla)

/-- **Tuple routing is exact and cache-transparent.** -/
theorem routing_exact (table : PartitionedTable D) (hvalid : table.Valid)
    (tuples : List (TupleKey D table.partnatts)) :
    ∃ mapping route, table.partitionDispatch = .ok (mapping, route) ∧
      CanonicalIndexes table.nparts mapping ∧
      List.Forall₂ (RoutedRight table mapping) tuples (routeResults route .initial tuples) := by
  cases table with
  | hash key specs =>
    have hb := createHashBounds_spec hvalid
    exact ⟨_, _, rfl, { hb with },
      routeResults_forall (fun _ => True)
        (fun last tuple _ => ⟨hashRouting_right key hvalid last tuple, trivial⟩) trivial tuples⟩
  | list key specs =>
    obtain ⟨boundinfo, mapping, vals, hc, hb⟩ := createListBounds_spec hvalid
    refine ⟨mapping, getListPartitionForTuple key boundinfo, ?_, { hb with }, ?_⟩
    · simp only [PartitionedTable.partitionDispatch, hc]
      rfl
    refine routeResults_forall (RemembersDatum boundinfo) (fun last tuple hlast => ⟨?_, ?_⟩)
      (Or.inl rfl) tuples
    · exact listRouting_right hvalid hb hlast tuple
    · exact (getListPartitionForTuple_spec hvalid hb hlast tuple).2
  | range key specs =>
    have hb := createRangeBounds_spec hvalid
    refine ⟨_, _, rfl, { hb with }, ?_⟩
    refine routeResults_forall (RemembersHit (createRangeBounds key specs).1)
      (fun last tuple hlast => ⟨?_, ?_⟩)
      (Or.inl rfl) tuples
    · exact rangeRouting_right hvalid hlast tuple
    · exact getPartitionForTuple_remembersHit (createRangeBounds_valid hvalid) hlast tuple

def intListKey : ListPartitionKey Int where
  partsupfunc := fun a b => a - b
  comparator := .sub

/-- The lists `(1, 3)` and `(2, NULL)`, and a default partition. -/
def threeLists : PartitionedTable Int :=
  .list intListKey [.list [some 1, some 3], .list [some 2, none], .default]

theorem threeLists_valid : threeLists.Valid := by
  refine ⟨?_, ?_, ?_⟩
  · simp
  · simp
  · simp [ListNonOverlapping, intListKey]

/-- The key of one column, `none` for a null. -/
def intListRow (value : Option Int) : TupleKey Int threeLists.partnatts :=
  ⟨⟨[value.getD 0], rfl⟩, ⟨[value.isNone], rfl⟩⟩

def intHashKey : HashPartitionKey Int where
  columns := [⟨fun value seed => BitVec.ofInt 64 value + seed, (· == ·), fun a b h seed => by
    rw [eq_of_beq h]⟩]
  nonempty := by simp

/-- The even hash values, and those that leave one or three modulo four. -/
def threeHashes : PartitionedTable Int := .hash intHashKey [⟨2, 0⟩, ⟨4, 1⟩, ⟨4, 3⟩]

theorem threeHashes_valid : threeHashes.Valid := by
  refine ⟨by simp, by simp, ?_⟩
  simp only [List.pairwise_cons, List.forall_mem_cons, HashNonOverlapping, HashBoundSpec.Accepts]
  refine ⟨⟨⟨by decide, fun x => by omega⟩, ⟨by decide, fun x => by omega⟩, by simp⟩,
    ⟨⟨by decide, fun x => by omega⟩, by simp⟩, by simp, by simp⟩

/-- The rows `3`, `NULL` and `9`. -/
theorem routing_exact_three :
    (threeLists.Valid ∧ ∃ mapping route, threeLists.partitionDispatch = .ok (mapping, route) ∧
      CanonicalIndexes 3 mapping ∧
      List.Forall₂ (RoutedRight threeLists mapping)
        [intListRow (some 3), intListRow none, intListRow (some 9)]
        (routeResults route .initial [intListRow (some 3), intListRow none, intListRow (some 9)])) ∧
    threeHashes.Valid ∧ ∃ mapping route, threeHashes.partitionDispatch = .ok (mapping, route) ∧
      CanonicalIndexes 3 mapping ∧
      List.Forall₂ (RoutedRight threeHashes mapping)
        [intListRow (some 3), intListRow none, intListRow (some 9)]
        (routeResults route .initial [intListRow (some 3), intListRow none, intListRow (some 9)]) :=
  ⟨⟨threeLists_valid, routing_exact threeLists threeLists_valid _⟩,
    threeHashes_valid, routing_exact threeHashes threeHashes_valid _⟩

end AthenaPG
