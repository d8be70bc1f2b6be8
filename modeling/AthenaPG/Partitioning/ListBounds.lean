import AthenaPG.Partitioning.PartBounds
import AthenaPG.Library.Numbering

/-!
List partition bounds (`create_list_bounds` and `partition_list_bsearch` of
`src/backend/partitioning/partbounds.c`).

The values of all partitions are sorted into one array.  Values of one partition
may compare equal, as `1.0` and `1.00` do, values of two partitions may not.

* `createListBounds_spec`: what the bounds of a table say about its partitions.
* `ListBoundsOf.bsearch_eq_of_listed`, `ListBoundsOf.bsearch_eq_of_not_listed`: what a
  search finds.
-/

namespace AthenaPG
open List

open Bisection Comparator Numbering PartitionBoundInfo

/-! ## The bounds of a partitioned table -/

structure ListPartitionKey (D : Type) where
  partsupfunc : D → D → Int
  comparator : IsComparator partsupfunc

/-- A `PartitionBoundSpec` of a list partition; a null constant is `none`. -/
inductive ListBoundSpec (D : Type)
  | default
  | list (listdatums : List (Option D))

structure PartitionListValue (D : Type) where
  index : Nat
  value : D

inductive ListBoundsError
  | foundNullMoreThanOnce
  deriving DecidableEq, Repr

/-- What the first loop of `create_list_bounds` collects. -/
structure ListScan (D : Type) where
  allValues : List (PartitionListValue D)
  nullIndex : Option Nat
  defaultIndex : Option Nat

section Create

variable {D : Type}

/-- The body of the loop over the datums of partition `i`. -/
def scanDatum (i : Nat) (scan : ListScan D) : Option D → Except ListBoundsError (ListScan D)
  | some value => .ok { scan with allValues := scan.allValues ++ [⟨i, value⟩] }
  | none =>
    -- never put a null into the values array
    match scan.nullIndex with
    | some _ => .error .foundNullMoreThanOnce
    | none => .ok { scan with nullIndex := some i }

/-- The first loop of `create_list_bounds`, from partition `i` on. -/
def scanSpecs : Nat → List (ListBoundSpec D) → ListScan D → Except ListBoundsError (ListScan D)
  | _, [], scan => .ok scan
  | i, .default :: specs, scan => scanSpecs (i + 1) specs { scan with defaultIndex := some i }
  | i, .list listdatums :: specs, scan => do
    let scan ← listdatums.foldlM (scanDatum i) scan
    scanSpecs (i + 1) specs scan

def assignIndex (state : (Nat → Int) × Int) (origIndex : Nat) : (Nat → Int) × Int :=
  if state.1 origIndex = -1 then
    (Function.update state.1 origIndex state.2, state.2 + 1)
  else state

/-- The second loop: the `indexes` array, the mapping and the next index. -/
def assignListIndexes : (Nat → Int) × Int → List (PartitionListValue D) →
    List Int × (Nat → Int) × Int
  | state, [] => ([], state)
  | state, v :: rest =>
    let state := assignIndex state v.index
    let (indexes, result) := assignListIndexes state rest
    (state.1 v.index :: indexes, result)

/-- The canonical index of the partition that stores nulls or of the default
partition, if there is one. -/
def assignSpecial (state : (Nat → Int) × Int) : Option Nat → ((Nat → Int) × Int) × Int
  | none => (state, -1)
  | some i =>
    let state := assignIndex state i
    (state, state.1 i)

variable (key : ListPartitionKey D)

def qsortPartitionListValueCmp (v1 v2 : PartitionListValue D) : Int :=
  key.partsupfunc v1.value v2.value

variable (specs : List (ListBoundSpec D))

/-- `create_list_bounds`, with the mapping to canonical indexes. -/
def createListBounds :
    Except ListBoundsError (PartitionBoundInfo D × (Nat → Int)) := do
  let scan ← scanSpecs 0 specs ⟨[], none, none⟩
  let allValues := scan.allValues.insertionSort fun v1 v2 =>
    qsortPartitionListValueCmp key v1 v2 ≤ 0
  let (indexes, state) := assignListIndexes (fun _ => -1, 0) allValues
  let (state, nullIndex) := assignSpecial state scan.nullIndex
  let (state, defaultIndex) := assignSpecial state scan.defaultIndex
  return ({ datums := allValues.map fun v => [.value v.value]
            indexes := indexes
            nullIndex := nullIndex
            defaultIndex := defaultIndex }, state.1)

/-- Two partitions that `check_new_partition_bound` allows together. -/
def ListNonOverlapping : ListBoundSpec D → ListBoundSpec D → Prop
  | .list datums1, .list datums2 =>
    (∀ a ∈ datums1, ∀ b ∈ datums2, ∀ d1 d2, a = some d1 → b = some d2 →
      key.partsupfunc d1 d2 ≠ 0) ∧ ¬ (none ∈ datums1 ∧ none ∈ datums2)
  | .default, .default => False
  | _, _ => True

/-- The partitions of a table.  Each lists something, and null at most once. -/
structure ValidListPartitions (key : ListPartitionKey D) (specs : List (ListBoundSpec D)) :
    Prop where
  nonempty : ∀ listdatums, .list listdatums ∈ specs → listdatums ≠ []
  nullOnce : ∀ listdatums, .list listdatums ∈ specs → listdatums.countP Option.isNone ≤ 1
  disjoint : specs.Pairwise (ListNonOverlapping key)

def ListBoundSpec.Lists : ListBoundSpec D → Option D → Prop
  | .default, _ => False
  | .list listdatums, datum => datum ∈ listdatums

/-! ## Collecting the values -/

theorem scanDatums_spec (i : Nat) (lists : List (Option D)) (scan : ListScan D)
    (ho : lists.countP Option.isNone ≤ 1) (hf : none ∈ lists → scan.nullIndex = none) :
    ∃ scan', lists.foldlM (scanDatum i) scan = .ok scan' ∧
      (∀ v, v ∈ scan'.allValues ↔ v ∈ scan.allValues ∨ v.index = i ∧ some v.value ∈ lists) ∧
      (∀ m, scan'.nullIndex = some m ↔ scan.nullIndex = some m ∨ m = i ∧ none ∈ lists) ∧
      scan'.defaultIndex = scan.defaultIndex := by
  induction lists generalizing scan with
  | nil => exact ⟨scan, rfl, by simp, by simp, rfl⟩
  | cons datum rest ih =>
    cases datum with
    | some d =>
      obtain ⟨scan', hok, hv, hn, hd⟩ :=
        ih { scan with allValues := scan.allValues ++ [⟨i, d⟩] } (by simpa using ho)
          (fun h => hf (mem_cons_of_mem _ h))
      refine ⟨scan', hok, fun v => ?_, fun m => ?_, hd⟩
      · rw [hv v]
        obtain ⟨vi, vd⟩ := v
        simp only [mem_append, PartitionListValue.mk.injEq, mem_cons, Option.some.injEq]
        tauto
      rw [hn m]
      simp
    | none =>
      have he := hf mem_cons_self
      rw [countP_cons_of_pos rfl] at ho
      have hno : none ∉ rest := by
        intro h
        have hp := countP_pos_iff.mpr ⟨none, h, Option.isNone_none⟩
        omega
      obtain ⟨scan', hok, hv, hn, hd⟩ :=
        ih { scan with nullIndex := some i } (by omega) (fun h => absurd h hno)
      refine ⟨scan', ?_, fun v => ?_, fun m => ?_, hd⟩
      · rw [foldlM_cons]
        simp only [scanDatum, he]
        exact hok
      · rw [hv v]
        simp
      rw [hn m]
      simp [hno, he, eq_comm]

/-- What is listed from partition `i` on. -/
def ListedFrom (i : Nat) (specs : List (ListBoundSpec D)) (m : Nat) (datum : Option D) : Prop :=
  ∃ j spec, specs[j]? = some spec ∧ m = i + j ∧ spec.Lists datum

theorem listedFrom_cons (i : Nat) (spec : ListBoundSpec D) (ss : List (ListBoundSpec D))
    (m : Nat) (datum : Option D) :
    ListedFrom i (spec :: ss) m datum ↔
      m = i ∧ spec.Lists datum ∨ ListedFrom (i + 1) ss m datum := by
  unfold ListedFrom
  rw [← Nat.or_exists_add_one]
  simp [Nat.add_assoc, Nat.add_comm 1]

theorem scanSpecs_spec :
    ∀ (i : Nat) (scan : ListScan D), ValidListPartitions key specs →
      (∀ spec ∈ specs, spec.Lists none → scan.nullIndex = none) →
      (.default ∈ specs → scan.defaultIndex = none) →
      ∃ scan', scanSpecs i specs scan = .ok scan' ∧
        (∀ v, v ∈ scan'.allValues ↔
          v ∈ scan.allValues ∨ ListedFrom i specs v.index (some v.value)) ∧
        (∀ m, scan'.nullIndex = some m ↔ scan.nullIndex = some m ∨ ListedFrom i specs m none) ∧
        (∀ m, scan'.defaultIndex = some m ↔
          scan.defaultIndex = some m ∨ ∃ j, specs[j]? = some .default ∧ m = i + j) := by
  induction specs with
  | nil =>
    intro i scan _ _ _
    exact ⟨scan, rfl, by simp [ListedFrom], by simp [ListedFrom], by simp⟩
  | cons spec specs ih =>
    intro i scan hvl hnl hdf
    obtain ⟨hh, ht⟩ := pairwise_cons.mp hvl.disjoint
    have hvl' : ValidListPartitions key specs :=
      ⟨fun l hl => hvl.nonempty l (mem_cons_of_mem _ hl),
        fun l hl => hvl.nullOnce l (mem_cons_of_mem _ hl), ht⟩
    cases spec with
    | default =>
      have hnn : .default ∉ specs := fun h => hh _ h
      obtain ⟨scan', hok, h1, h2, h3⟩ := ih (i + 1) { scan with defaultIndex := some i } hvl'
        (fun spec hs => hnl spec (mem_cons_of_mem _ hs)) (fun h => absurd h hnn)
      have he := hdf mem_cons_self
      refine ⟨scan', hok, fun v => ?_, fun m => ?_, fun m => ?_⟩
      · rw [h1 v, listedFrom_cons]
        simp [ListBoundSpec.Lists]
      · rw [h2 m, listedFrom_cons]
        simp [ListBoundSpec.Lists]
      have hnj : ∀ j, specs[j]? ≠ some ListBoundSpec.default := fun j hj => hnn (mem_of_getElem? hj)
      rw [h3 m, he]
      refine Iff.trans ?_ (or_congr_right Nat.or_exists_add_one)
      simp [hnj, eq_comm]
    | list ld =>
      obtain ⟨scan1, hok1, hv1, hn1, hd1⟩ := scanDatums_spec i ld scan
        (hvl.nullOnce ld mem_cons_self)
        (fun h => hnl _ mem_cons_self h)
      have hnl1 : ∀ spec ∈ specs, spec.Lists none → scan1.nullIndex = none := by
        intro spec hs hl
        have hol := hnl spec (mem_cons_of_mem _ hs) hl
        have hnt : none ∉ ld := by
          intro h
          have ho := hh spec hs
          cases spec with
          | default => exact hl
          | list other => exact ho.2 ⟨h, hl⟩
        cases hs1 : scan1.nullIndex with
        | none => rfl
        | some m =>
          have h := (hn1 m).mp hs1
          simp [hol, hnt] at h
      obtain ⟨scan', hok, h1, h2, h3⟩ := ih (i + 1) scan1 hvl' hnl1
        (fun h => by rw [hd1]; exact hdf (mem_cons_of_mem _ h))
      refine ⟨scan', ?_, fun v => ?_, fun m => ?_, fun m => ?_⟩
      · rw [scanSpecs, hok1]
        exact hok
      · rw [h1 v, hv1 v, listedFrom_cons, or_assoc]
        rfl
      · rw [h2 m, hn1 m, listedFrom_cons, or_assoc]
        rfl
      rw [h3 m, hd1]
      refine or_congr_right (Iff.trans ?_ Nat.or_exists_add_one)
      simp [Nat.add_assoc, Nat.add_comm 1]

/-! ## Canonical indexes -/

variable {n : Nat} {st : (Nat → Int) × Int} {i : Nat}

theorem assignIndex_numbers (h : Numbers n st.1 st.2) (hi : i < n) :
    Numbers n (assignIndex st i).1 (assignIndex st i).2 := by
  unfold assignIndex
  split
  next hf => exact h.assign hi hf
  · exact h

theorem assignIndex_ne (h : Numbers n st.1 st.2) (i j : Nat) :
    (assignIndex st i).1 j ≠ -1 ↔ st.1 j ≠ -1 ∨ i = j := by
  have hn := h.next_nonneg
  unfold assignIndex
  by_cases hij : j = i
  · subst hij
    split
    · simp only [Function.update_self, or_true, iff_true]
      omega
    next hne => simp [hne]
  have hji : ¬ i = j := fun h => hij h.symm
  split
  · simp [Function.update_of_ne hij, hji]
  · simp [hji]

theorem assignIndex_keeps (st : (Nat → Int) × Int) {j : Nat} (hj : st.1 j ≠ -1) :
    (assignIndex st i).1 j = st.1 j := by
  unfold assignIndex
  split
  next hf =>
    have hij : j ≠ i := by
      rintro rfl
      exact hj hf
    exact Function.update_of_ne hij _ _
  · rfl

structure AssignedList (n : Nat) (state : (Nat → Int) × Int) (vals : List (PartitionListValue D))
    (indexes : List Int) (state' : (Nat → Int) × Int) : Prop where
  numbers : Numbers n state'.1 state'.2
  indexes_eq : indexes = vals.map fun v => state'.1 v.index
  keeps : ∀ i, state.1 i ≠ -1 → state'.1 i = state.1 i
  ne_iff : ∀ i, state'.1 i ≠ -1 ↔ state.1 i ≠ -1 ∨ ∃ v ∈ vals, v.index = i

variable (vals : List (PartitionListValue D))

theorem assignListIndexes_spec :
    ∀ st : (Nat → Int) × Int, Numbers n st.1 st.2 → (∀ v ∈ vals, v.index < n) →
      AssignedList n st vals (assignListIndexes st vals).1
        (assignListIndexes st vals).2 := by
  induction vals with
  | nil =>
    intro st h _
    exact ⟨h, rfl, fun _ _ => rfl, by simp [assignListIndexes]⟩
  | cons v rest ih =>
    intro st h hlt
    have h1 := assignIndex_numbers h (hlt v mem_cons_self)
    have hne := assignIndex_ne h v.index
    have hr := ih (assignIndex st v.index) h1 fun w hw => hlt w (mem_cons_of_mem _ hw)
    have hv := (hne _).mpr (Or.inr rfl)
    refine ⟨hr.numbers, ?_, fun i hi => ?_, fun i => ?_⟩
    · exact congrArg₂ List.cons (hr.keeps _ hv).symm hr.indexes_eq
    · show (assignListIndexes _ rest).2.1 i = _
      rw [hr.keeps i ((hne i).mpr (Or.inl hi)), assignIndex_keeps st hi]
    show (assignListIndexes _ rest).2.1 i ≠ -1 ↔ _
    rw [hr.ne_iff i, hne i, or_assoc]
    simp

/-! ## What `create_list_bounds` builds -/

/-- Partition `i` lists a value. -/
def Listed (i : Nat) (datum : Option D) : Prop := ∃ spec, specs[i]? = some spec ∧ spec.Lists datum

theorem listedFrom_zero (i : Nat) (datum : Option D) :
    ListedFrom 0 specs i datum ↔ Listed specs i datum := by
  constructor
  · rintro ⟨j, spec, hj, hm, hl⟩
    obtain rfl : i = j := by omega
    exact ⟨spec, hj, hl⟩
  · rintro ⟨spec, hj, hl⟩
    exact ⟨i, spec, hj, by omega, hl⟩

structure ListBoundsOf (key : ListPartitionKey D) (specs : List (ListBoundSpec D))
    (boundinfo : PartitionBoundInfo D) (mapping : Nat → Int)
    (vals : List (PartitionListValue D)) : Prop where
  datums : boundinfo.datums = vals.map fun v => [.value v.value]
  indexes : boundinfo.indexes = vals.map fun v => mapping v.index
  sorted : vals.Pairwise fun v1 v2 => key.partsupfunc v1.value v2.value ≤ 0
  listed : ∀ v, v ∈ vals ↔ Listed specs v.index (some v.value)
  null : SpecialIndex (fun i => Listed specs i none) mapping boundinfo.nullIndex
  default : SpecialIndex (fun i => specs[i]? = some .default) mapping boundinfo.defaultIndex
  numbered : ∀ i < specs.length, 0 ≤ mapping i ∧ mapping i < specs.length
  inj : ∀ i < specs.length, ∀ j < specs.length, mapping i = mapping j → i = j

theorem lt_of_listed {ss : List (ListBoundSpec D)} {datum : Option D}
    (h : Listed ss i datum) : i < ss.length := by
  obtain ⟨spec, hi, -⟩ := h
  exact (List.getElem?_eq_some_iff.mp hi).1

theorem sortedValues_pairwise :
    (vals.insertionSort fun v1 v2 => qsortPartitionListValueCmp key v1 v2 ≤ 0).Pairwise
      fun v1 v2 => key.partsupfunc v1.value v2.value ≤ 0 := by
  have ht : Std.Total fun v1 v2 : PartitionListValue D =>
      qsortPartitionListValueCmp key v1 v2 ≤ 0 := ⟨fun v1 v2 => by
    have hs := key.comparator.swap v1.value v2.value
    unfold qsortPartitionListValueCmp
    omega⟩
  have htr : IsTrans _ fun v1 v2 : PartitionListValue D =>
      qsortPartitionListValueCmp key v1 v2 ≤ 0 := ⟨fun v1 v2 v3 => key.comparator.trans _ _ _⟩
  exact pairwise_insertionSort (fun v1 v2 => qsortPartitionListValueCmp key v1 v2 ≤ 0) vals

theorem assignSpecial_spec (h : Numbers n st.1 st.2) (special : Option Nat)
    (hlt : ∀ i, special = some i → i < n) :
    Numbers n (assignSpecial st special).1.1 (assignSpecial st special).1.2 ∧
      (∀ i, st.1 i ≠ -1 → (assignSpecial st special).1.1 i = st.1 i) ∧
      (∀ i, (assignSpecial st special).1.1 i ≠ -1 ↔ st.1 i ≠ -1 ∨ special = some i) ∧
      SpecialIndex (fun i => special = some i) (assignSpecial st special).1.1
        (assignSpecial st special).2 := by
  cases special with
  | none => exact ⟨h, fun _ _ => rfl, by simp [assignSpecial], by simp [SpecialIndex, assignSpecial]⟩
  | some m =>
    refine ⟨assignIndex_numbers h (hlt m rfl), fun i hi => assignIndex_keeps st hi, fun i => ?_,
      fun i hi => ?_, fun hn => absurd rfl (hn m)⟩
    · rw [Option.some.injEq]
      exact assignIndex_ne h m i
    obtain rfl := Option.some.inj hi
    rfl

/-- **The bounds of a table.** -/
theorem createListBounds_spec {key : ListPartitionKey D} {ss : List (ListBoundSpec D)}
    (hva : ValidListPartitions key ss) :
    ∃ boundinfo mp vals, createListBounds key ss = .ok (boundinfo, mp) ∧
      ListBoundsOf key ss boundinfo mp vals := by
  obtain ⟨scan, hsc, hvl, hnl, hdf⟩ := scanSpecs_spec key ss 0 ⟨[], none, none⟩
    hva (fun _ _ _ => rfl) fun _ => rfl
  simp only [not_mem_nil, false_or, reduceCtorEq, listedFrom_zero] at hvl hnl hdf
  obtain ⟨vals, hval⟩ : ∃ vals, vals = scan.allValues.insertionSort fun v1 v2 =>
    qsortPartitionListValueCmp key v1 v2 ≤ 0 := ⟨_, rfl⟩
  have hmm (v : PartitionListValue D) : v ∈ vals ↔ Listed ss v.index (some v.value) := by
    rw [hval, mem_insertionSort, hvl]
  have hd (i : Nat) : scan.defaultIndex = some i ↔ ss[i]? = some .default := by
    rw [hdf i]
    constructor
    · rintro ⟨j, hj, hm⟩
      obtain rfl : i = j := by omega
      exact hj
    · intro h
      exact ⟨i, h, by omega⟩
  have ha := assignListIndexes_spec (n := ss.length) vals (fun _ => -1, 0)
    (numbers_start _) fun v hv => lt_of_listed ((hmm v).mp hv)
  obtain ⟨indexes, state1, hs1⟩ : ∃ indexes state1,
      assignListIndexes (fun _ => -1, 0) vals = (indexes, state1) := ⟨_, _, rfl⟩
  rw [hs1] at ha
  have hl (i : Nat) : state1.1 i ≠ -1 ↔ ∃ v ∈ vals, v.index = i := by simpa using ha.ne_iff i
  obtain ⟨hn2, hk2, hne2, hsp2⟩ := assignSpecial_spec ha.numbers scan.nullIndex
    fun i hi => lt_of_listed ((hnl i).mp hi)
  obtain ⟨hn3, hk3, hne3, hsp3⟩ := assignSpecial_spec hn2 scan.defaultIndex
    fun i hi => (List.getElem?_eq_some_iff.mp ((hd i).mp hi)).1
  obtain ⟨state2, nullIndex, hs2⟩ : ∃ state2 nullIndex,
      assignSpecial state1 scan.nullIndex = (state2, nullIndex) := ⟨_, _, rfl⟩
  rw [hs2] at hn2 hk2 hne2 hsp2 hn3 hk3 hne3 hsp3
  obtain ⟨state3, defaultIndex, hs3⟩ : ∃ state3 defaultIndex,
      assignSpecial state2 scan.defaultIndex = (state3, defaultIndex) := ⟨_, _, rfl⟩
  rw [hs3] at hn3 hk3 hne3 hsp3
  -- every partition has a number: it lists a value, or null, or is the default
  have hal (i : Nat) (hi : i < ss.length) : state3.1 i ≠ -1 := by
    rw [hne3 i, hne2 i, hl i, hnl i, hd i]
    cases hsp : ss[i] with
    | default => exact Or.inr (List.getElem?_eq_some_iff.mpr ⟨hi, hsp⟩)
    | list ld =>
      have hg := List.getElem?_eq_some_iff.mpr ⟨hi, hsp⟩
      obtain ⟨datum, hdt⟩ := exists_mem_of_ne_nil _
        (hva.nonempty ld (mem_of_getElem? hg))
      cases datum with
      | none => exact Or.inl (Or.inr ⟨_, hg, hdt⟩)
      | some d => exact Or.inl (Or.inl ⟨⟨i, d⟩, (hmm _).mpr ⟨_, hg, hdt⟩, rfl⟩)
  have hk1 (i : Nat) (h : state1.1 i ≠ -1) : state3.1 i = state1.1 i := by
    have h2 := hk2 i h
    rw [hk3 i (by rwa [h2]), h2]
  refine ⟨⟨vals.map fun v => [.value v.value], indexes, nullIndex, defaultIndex⟩, state3.1, vals,
    ?_, rfl, ?_, ?_, hmm, ?_, ?_, ?_, ?_⟩
  · unfold createListBounds
    rw [hsc]
    simp only [bind, Except.bind, ← hval, hs1, hs2, hs3]
    rfl
  · have hin : indexes = vals.map fun v => state1.1 v.index := ha.indexes_eq
    rw [hin]
    exact map_congr_left fun v hv => (hk1 v.index ((hl _).mpr ⟨v, hv, rfl⟩)).symm
  · rw [hval]
    exact sortedValues_pairwise key scan.allValues
  · exact hsp2.congr (fun i => (hnl i).symm) fun i hi => hk3 i ((hne2 i).mpr (Or.inr hi))
  · exact hsp3.congr (fun i => (hd i).symm) fun i _ => rfl
  · exact fun i hi => hn3.lt (hal i hi)
  exact fun i hi j _ heq => hn3.inj i j heq (hal i hi)

end Create

/-! ## Looking up a value -/

section Lookup

variable {D : Type} {key : ListPartitionKey D} {specs : List (ListBoundSpec D)}
variable {info : PartitionBoundInfo D} {mp : Nat → Int}
variable {vals : List (PartitionListValue D)}

/-- The comparison of a bound with a value; a list bound is one datum. -/
def listDatumCmp (partsupfunc : D → D → Int) : List (PartitionRangeDatum D) → D → Int
  | .value datum :: _, value => partsupfunc datum value
  | _, _ => 0

/-- `partition_list_bsearch`: the offset found, and `is_equal`. -/
def partitionListBsearch (partsupfunc : D → D → Int) (boundinfo : PartitionBoundInfo D)
    (value : D) : Int × Bool :=
  bsearch boundinfo.ndatums fun mid => listDatumCmp partsupfunc (boundinfo.datum mid) value

def listBelow (key : ListPartitionKey D) (vals : List (PartitionListValue D)) (value : D) : Nat :=
  vals.countP fun v => key.partsupfunc v.value value < 0

def listUpto (key : ListPartitionKey D) (vals : List (PartitionListValue D)) (value : D) : Nat :=
  vals.countP fun v => key.partsupfunc v.value value ≤ 0

namespace ListBoundsOf

section

variable (h : ListBoundsOf key specs info mp vals)
include h

theorem ndatums_eq : info.ndatums = vals.length := by rw [ndatums, h.datums, length_map]

theorem index_eq {i : Nat} (hi : i < vals.length) : info.index i = mp vals[i].index := by
  unfold index
  rw [h.indexes, getD_eq_getElem _ _ (by simpa using hi), getElem_map]

theorem datum_cmp {i : Nat} (hi : i < vals.length) (value : D) :
    listDatumCmp key.partsupfunc (info.datum i) value = key.partsupfunc vals[i].value value := by
  unfold datum
  rw [h.datums, getD_eq_getElem _ _ (by simpa using hi), getElem_map]
  rfl

theorem profile (value : D) :
    SignProfile info.ndatums
      (fun i => listDatumCmp key.partsupfunc (info.datum i) value)
      (listBelow key vals value) (listUpto key vals value) := by
  have hcmp := key.comparator
  have hpr : info.datums.Pairwise fun a b =>
      (listDatumCmp key.partsupfunc b value ≤ 0 → listDatumCmp key.partsupfunc a value ≤ 0) ∧
      (listDatumCmp key.partsupfunc b value < 0 → listDatumCmp key.partsupfunc a value < 0) := by
    rw [h.datums, pairwise_map]
    exact h.sorted.imp fun hab =>
      ⟨fun hb => hcmp.trans _ _ _ hab hb, fun hb => hcmp.lt_of_le_of_lt hab hb⟩
  have hp := signProfile_of_pairwise
    (c := fun datums => listDatumCmp key.partsupfunc datums value) [] hpr
  have hc : listBelow key vals value =
      info.datums.countP fun a => listDatumCmp key.partsupfunc a value < 0 := by
    rw [h.datums, countP_map]
    rfl
  have hc' : listUpto key vals value =
      info.datums.countP fun a => listDatumCmp key.partsupfunc a value ≤ 0 := by
    rw [h.datums, countP_map]
    rfl
  rw [hc, hc']
  exact hp

theorem bsearch_eq_of_listed {value : D} {v : PartitionListValue D} (hv : v ∈ vals)
    (heq : key.partsupfunc v.value value = 0) :
    ∃ (off : Nat) (ho : off < vals.length),
      partitionListBsearch key.partsupfunc info value = ((off : Int), true) ∧
      key.partsupfunc vals[off].value value = 0 := by
  have hp := h.profile value
  obtain ⟨i, hi, rfl⟩ := getElem_of_mem hv
  have hz := hp.eq_zero_iff (by rwa [h.ndatums_eq])
  rw [h.datum_cmp hi] at hz
  obtain ⟨off, ho, hl', hup', -⟩ := bsearch_found hp (by omega)
  have hlt : off < vals.length := by
    have hle := hp.upto_le
    rw [h.ndatums_eq] at hle
    omega
  have hz' := (hp.eq_zero_iff (by rwa [h.ndatums_eq])).mpr ⟨hl', hup'⟩
  rw [h.datum_cmp hlt] at hz'
  exact ⟨off, hlt, ho, hz'⟩

theorem bsearch_eq_of_not_listed {value : D} (hno : ∀ v ∈ vals, key.partsupfunc v.value value ≠ 0) :
    partitionListBsearch key.partsupfunc info value =
      ((listBelow key vals value : Int) - 1, false) := by
  have hp := h.profile value
  refine bsearch_missed hp ?_
  by_contra hne
  have hlt := lt_of_le_of_ne hp.below_le hne
  have hle := hp.upto_le
  have hi : listBelow key vals value < vals.length := by
    rw [h.ndatums_eq] at hle
    omega
  have hz := (hp.eq_zero_iff (by rwa [h.ndatums_eq])).mpr ⟨le_rfl, hlt⟩
  rw [h.datum_cmp hi] at hz
  exact hno _ (getElem_mem hi) hz

end

end ListBoundsOf

end Lookup

end AthenaPG
