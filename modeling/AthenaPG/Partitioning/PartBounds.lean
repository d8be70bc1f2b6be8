import AthenaPG.Library.Bisection
import AthenaPG.Library.Comparator

/-!
Range partition bounds (`src/backend/partitioning/partbounds.c`).

A bound is compared column by column, and `MINVALUE` or `MAXVALUE` ends the
comparison.  All functions agree with one order, `PartitionKey.boundCmp`.

* `partitionRboundCmp_orders`, `partitionRboundDatumCmp_eq`: they do.
* `createRangeBounds_valid`: the bounds of a partitioned table are strictly
  sorted, and each partition has an index of its own, stored with its upper bound.
* `datumProfile`: how sorted bounds compare with a lookup key.
-/

namespace AthenaPG
open List

open Comparator Bisection

/-! ## Keys and bounds -/

inductive PartitionRangeDatumKind
  | minvalue
  | value
  | maxvalue
  deriving DecidableEq, Repr

/-- The enumerators compare the way the values they stand for do. -/
def PartitionRangeDatumKind.toInt : PartitionRangeDatumKind → Int
  | .minvalue => -1
  | .value => 0
  | .maxvalue => 1

/-- One column of a range bound: its kind, with a datum if the kind is a value. -/
inductive PartitionRangeDatum (D : Type)
  | minvalue
  | value (datum : D)
  | maxvalue
  deriving DecidableEq, Repr

open PartitionRangeDatum

namespace PartitionRangeDatum

variable {D : Type}

def kind : PartitionRangeDatum D → PartitionRangeDatumKind
  | minvalue => .minvalue
  | value _ => .value
  | maxvalue => .maxvalue

/-- The order of a column.  Values are compared by the support function. -/
def cmp (supfunc : D → D → Int) : PartitionRangeDatum D → PartitionRangeDatum D → Int
  | minvalue, minvalue => 0
  | minvalue, _ => -1
  | value _, minvalue => 1
  | value a, value b => supfunc a b
  | value _, maxvalue => -1
  | maxvalue, maxvalue => 0
  | maxvalue, _ => 1

/-- Columns after an infinite one are not considered. -/
def infinite : PartitionRangeDatum D → Bool
  | value _ => false
  | _ => true

theorem isComparator_cmp {sup : D → D → Int} (h : IsComparator sup) : IsComparator (cmp sup) where
  swap a b := by cases a <;> cases b <;> simp [cmp, h.swap]
  trans a b c hab hbc := by
    cases a <;> cases b <;> cases c <;> simp [cmp] at hab hbc ⊢
    exact h.trans _ _ _ hab hbc

theorem infinite_eq_of_cmp {sup : D → D → Int} (a b : PartitionRangeDatum D)
    (h : cmp sup a b = 0) : a.infinite = b.infinite := by
  cases a <;> cases b <;> simp [cmp, infinite] at h ⊢

end PartitionRangeDatum

/-- The key of a range-partitioned table: a btree support function for each column. -/
structure PartitionKey (D : Type) where
  partsupfunc : List (D → D → Int)
  comparators : ∀ supfunc ∈ partsupfunc, IsComparator supfunc
  nonempty : partsupfunc ≠ []

namespace PartitionKey

variable {D : Type} (key : PartitionKey D)

def partnatts : Nat := key.partsupfunc.length

theorem partnatts_pos : 0 < key.partnatts := length_pos_iff.mpr key.nonempty

def columns : List (PartitionRangeDatum D → PartitionRangeDatum D → Int) :=
  key.partsupfunc.map PartitionRangeDatum.cmp

@[simp] theorem length_columns : key.columns.length = key.partnatts := by simp [columns, partnatts]

theorem orderedColumns : OrderedColumns infinite key.columns := by
  intro c hc
  obtain ⟨supfunc, hm, rfl⟩ := mem_map.mp hc
  exact ⟨isComparator_cmp (key.comparators supfunc hm), infinite_eq_of_cmp⟩

/-- The order of bounds by the first `k` columns. -/
def leadingCmp (k : Nat) : List (PartitionRangeDatum D) → List (PartitionRangeDatum D) → Int :=
  lexCmp infinite (key.columns.take k)

def boundCmp : List (PartitionRangeDatum D) → List (PartitionRangeDatum D) → Int :=
  lexCmp infinite key.columns

theorem isComparator_leadingCmp (k : Nat) : IsComparator (key.leadingCmp k) :=
  isComparator_lexCmp (key.orderedColumns.take k)

theorem isComparator_boundCmp : IsComparator key.boundCmp := isComparator_lexCmp key.orderedColumns

theorem leadingCmp_partnatts : key.leadingCmp key.partnatts = key.boundCmp := by
  unfold leadingCmp boundCmp
  rw [take_of_length_le (by simp)]

theorem boundCmp_of_leadingCmp {k : Nat} {a b : List (PartitionRangeDatum D)}
    (h : key.leadingCmp k a b ≠ 0) : key.boundCmp a b = key.leadingCmp k a b :=
  lexCmp_of_take k a b h

theorem leadingCmp_nonpos {a b : List (PartitionRangeDatum D)} (k : Nat)
    (h : key.boundCmp a b ≤ 0) : key.leadingCmp k a b ≤ 0 := by
  by_contra hp
  rw [key.boundCmp_of_leadingCmp (k := k) (by omega)] at h
  exact hp h

end PartitionKey

/-! ## Comparison functions -/

section Cmp

variable {D : Type}

variable (lower1 lower2 : Bool)

/-- The end of `partition_rbound_cmp`: of two equal bounds the exclusive one, which
is the upper one, is smaller. -/
def rboundResult (colnum cmpval : Int) : Int :=
  let cmpval := if cmpval = 0 ∧ lower1 ≠ lower2 then if lower1 then 1 else -1 else cmpval
  if cmpval = 0 then 0 else if cmpval < 0 then -colnum else colnum

/-- The loop of `partition_rbound_cmp`; `colnum` columns have been compared. -/
def rboundCmpFrom (lower1 lower2 : Bool) : Int → List (D → D → Int) →
    List (PartitionRangeDatum D) → List (PartitionRangeDatum D) → Int
  | colnum, supfunc :: supfuncs, a :: as, b :: bs =>
    if a.kind.toInt < b.kind.toInt then -(colnum + 1)
    else if b.kind.toInt < a.kind.toInt then colnum + 1
    else
      match a, b with
      | .value d1, .value d2 =>
        if supfunc d1 d2 ≠ 0 then rboundResult lower1 lower2 (colnum + 1) (supfunc d1 d2)
        else rboundCmpFrom lower1 lower2 (colnum + 1) supfuncs as bs
      -- both MINVALUE or both MAXVALUE
      | _, _ => rboundResult lower1 lower2 (colnum + 1) 0
  | colnum, _, _, _ => rboundResult lower1 lower2 colnum 0

def partitionRboundCmp (partsupfunc : List (D → D → Int)) (datums1 : List (PartitionRangeDatum D))
    (lower1 : Bool) (datums2 : List (PartitionRangeDatum D)) (lower2 : Bool) : Int :=
  rboundCmpFrom lower1 lower2 0 partsupfunc datums1 datums2

/-- The loop of `partition_rbound_datum_cmp`. -/
def rboundDatumCmpFrom : Int → List (D → D → Int) → List (PartitionRangeDatum D) → List D → Int
  | _, supfunc :: supfuncs, b :: bs, v :: vs =>
    match b with
    | .minvalue => -1
    | .maxvalue => 1
    | .value d =>
      if supfunc d v ≠ 0 then supfunc d v
      else rboundDatumCmpFrom (supfunc d v) supfuncs bs vs
  | cmpval, _, _, _ => cmpval

/-- `partition_rbound_datum_cmp`, over as many columns as there are tuple datums. -/
def partitionRboundDatumCmp (partsupfunc : List (D → D → Int))
    (rbDatums : List (PartitionRangeDatum D)) (tupleDatums : List D) : Int :=
  rboundDatumCmpFrom (-1) partsupfunc rbDatums tupleDatums

/-- The inner loop of `create_range_bounds`, from a column on. -/
def distinctFrom : List (D → D → Int) → List (PartitionRangeDatum D) →
    List (PartitionRangeDatum D) → Bool
  | supfunc :: supfuncs, cur :: curs, prev :: prevs =>
    if cur.kind ≠ prev.kind then true
    else
      match cur, prev with
      | .value d1, .value d2 => if supfunc d1 d2 ≠ 0 then true else distinctFrom supfuncs curs prevs
      | _, _ => false
  | _, _, _ => false

/-- `result` orders two bounds that compare by `cmpval`, with their flags. -/
def OrdersBounds (cmpval result : Int) : Prop :=
  (result < 0 ↔ cmpval < 0 ∨ cmpval = 0 ∧ lower1 = false ∧ lower2 = true) ∧
  (0 < result ↔ 0 < cmpval ∨ cmpval = 0 ∧ lower1 = true ∧ lower2 = false)

theorem rboundResult_orders {col : Int} (hc : 0 < col)
    (cmpv : Int) : OrdersBounds lower1 lower2 cmpv (rboundResult lower1 lower2 col cmpv) := by
  unfold OrdersBounds
  by_cases h0 : cmpv = 0
  · subst h0
    cases lower1 <;> cases lower2 <;> simp [rboundResult] <;> omega
  by_cases hn : cmpv < 0
  · simp [rboundResult, h0, hn, hc]
    omega
  simp [rboundResult, h0, hn, hc]
  omega

theorem rboundCmpFrom_orders {l1 l2 : Bool} (fs : List (D → D → Int))
    (as bs : List (PartitionRangeDatum D)) (col : Int) (hc : 0 ≤ col) (hp : fs = [] → 0 < col)
    (ha : as.length = fs.length) (hb : bs.length = fs.length) :
    OrdersBounds l1 l2
      (lexCmp infinite (fs.map PartitionRangeDatum.cmp) as bs)
      (rboundCmpFrom l1 l2 col fs as bs) := by
  induction fs generalizing as bs col with
  | nil =>
    exact rboundResult_orders l1 l2 (hp rfl) 0
  | cons supfunc fs ih =>
    obtain ⟨a, as, rfl⟩ := exists_cons_of_length_eq_add_one ha
    obtain ⟨b, bs, rfl⟩ := exists_cons_of_length_eq_add_one hb
    have hc1 : 0 < col + 1 := by omega
    have hr := ih as bs (col + 1) (by omega) (fun _ => hc1) (by simpa using ha) (by simpa using hb)
    have he := rboundResult_orders l1 l2 hc1 0
    cases a <;> cases b <;>
      simp only [rboundCmpFrom, map_cons, lexCmp, kind,
        PartitionRangeDatumKind.toInt, PartitionRangeDatum.cmp, infinite]
    case value.value d1 d2 =>
      by_cases h0 : supfunc d1 d2 = 0
      · simpa [h0] using hr
      · simpa [h0] using rboundResult_orders l1 l2 hc1 (supfunc d1 d2)
    -- the kinds are equal, or they decide
    case minvalue.minvalue | maxvalue.maxvalue => exact he
    all_goals
      simp [OrdersBounds]
      omega

/-- **`partition_rbound_cmp`** orders bounds, and of equal ones the upper first. -/
theorem partitionRboundCmp_orders (key : PartitionKey D) (l1 l2 : Bool)
    {d1 d2 : List (PartitionRangeDatum D)} (h1 : d1.length = key.partnatts)
    (h2 : d2.length = key.partnatts) :
    OrdersBounds l1 l2 (key.boundCmp d1 d2) (partitionRboundCmp key.partsupfunc d1 l1 d2 l2) :=
  rboundCmpFrom_orders key.partsupfunc d1 d2 0 le_rfl
    (fun h => absurd h key.nonempty) h1 h2

def tupleBound (values : List D) : List (PartitionRangeDatum D) := values.map .value

theorem rboundDatumCmpFrom_eq (fs : List (D → D → Int)) (bs : List (PartitionRangeDatum D))
    (vs : List D) (cmpv : Int) (hvs : vs = [] → cmpv = 0)
    (hl : vs.length ≤ fs.length) (hb : bs.length = fs.length) :
    rboundDatumCmpFrom cmpv fs bs vs =
      lexCmp infinite ((fs.map PartitionRangeDatum.cmp).take vs.length) bs (tupleBound vs) := by
  induction vs generalizing fs bs cmpv with
  | nil => simp [rboundDatumCmpFrom, lexCmp, hvs]
  | cons v vs ih =>
    cases fs with
    | nil => simp at hl
    | cons supfunc fs =>
      obtain ⟨b, bs, rfl⟩ := exists_cons_of_length_eq_add_one hb
      simp only [length_cons, map_cons, take_succ_cons, tupleBound]
      cases b with
      | minvalue | maxvalue => simp [rboundDatumCmpFrom, lexCmp, PartitionRangeDatum.cmp]
      | value d =>
        simp only [rboundDatumCmpFrom, lexCmp, PartitionRangeDatum.cmp, infinite]
        by_cases h0 : supfunc d v = 0
        · simp only [h0, ne_eq, not_true_eq_false, if_false, Bool.false_eq_true]
          exact ih fs bs 0 (fun _ => rfl) (by simpa using hl) (by simpa using hb)
        simp only [ne_eq, h0, not_false_eq_true, if_true]

/-- **`partition_rbound_datum_cmp`** compares by the columns of the lookup key. -/
theorem partitionRboundDatumCmp_eq (key : PartitionKey D) {datums : List (PartitionRangeDatum D)}
    {values : List D} (hne : values ≠ []) (hv : values.length ≤ key.partnatts)
    (hd : datums.length = key.partnatts) :
    partitionRboundDatumCmp key.partsupfunc datums values =
      key.leadingCmp values.length datums (tupleBound values) :=
  rboundDatumCmpFrom_eq key.partsupfunc datums values (-1) (fun h => absurd h hne) hv hd

theorem distinctFrom_iff (fs : List (D → D → Int)) (as bs : List (PartitionRangeDatum D))
    (ha : as.length = fs.length) (hb : bs.length = fs.length) :
    distinctFrom fs as bs = true ↔ lexCmp infinite (fs.map PartitionRangeDatum.cmp) as bs ≠ 0 := by
  induction fs generalizing as bs with
  | nil => simp [distinctFrom, lexCmp]
  | cons supfunc fs ih =>
    obtain ⟨a, as, rfl⟩ := exists_cons_of_length_eq_add_one ha
    obtain ⟨b, bs, rfl⟩ := exists_cons_of_length_eq_add_one hb
    have hr := ih as bs (by simpa using ha) (by simpa using hb)
    cases a <;> cases b <;>
      simp only [distinctFrom, map_cons, lexCmp, kind, PartitionRangeDatum.cmp, infinite]
    case value.value d1 d2 =>
      by_cases h0 : supfunc d1 d2 = 0
      · simpa [h0] using hr
      · simp [h0]
    all_goals simp

end Cmp

/-! ## The bounds of a partitioned table -/

/-- A `PartitionBoundSpec` of a range partition. -/
inductive PartitionBoundSpec (D : Type) (partnatts : Nat)
  | default
  | range (lowerdatums upperdatums : List.Vector (PartitionRangeDatum D) partnatts)

structure PartitionRangeBound (D : Type) (partnatts : Nat) where
  index : Nat
  datums : List.Vector (PartitionRangeDatum D) partnatts
  lower : Bool

/-- A `PartitionBoundInfoData`; `datums` has the kinds too. -/
structure PartitionBoundInfo (D : Type) where
  datums : List (List (PartitionRangeDatum D))
  indexes : List Int
  nullIndex : Int
  defaultIndex : Int

open PartitionBoundInfo

namespace PartitionBoundInfo

variable {D : Type} (boundinfo : PartitionBoundInfo D)

def ndatums : Nat := boundinfo.datums.length

def datum (i : Nat) : List (PartitionRangeDatum D) := boundinfo.datums.getD i []

def kind (i j : Nat) : Option PartitionRangeDatumKind :=
  (boundinfo.datum i)[j]?.map PartitionRangeDatum.kind

def index (i : Nat) : Int := boundinfo.indexes.getD i (-1)

/-- `partition_bound_accepts_nulls`. -/
def acceptsNulls : Bool := boundinfo.nullIndex != -1

/-- `partition_bound_has_default`. -/
def hasDefault : Bool := boundinfo.defaultIndex != -1

end PartitionBoundInfo

section Create

variable {D : Type} {n : Nat}

/-- The first loop of `create_range_bounds`. -/
def allBoundsFrom : Nat → List (PartitionBoundSpec D n) → List (PartitionRangeBound D n)
  | _, [] => []
  | i, .default :: specs => allBoundsFrom (i + 1) specs
  | i, .range lower upper :: specs =>
    ⟨i, lower, true⟩ :: ⟨i, upper, false⟩ :: allBoundsFrom (i + 1) specs

/-- `default_index` after that loop. -/
def defaultSpecFrom : Nat → List (PartitionBoundSpec D n) → Option Nat
  | _, [] => none
  | i, .default :: specs => (defaultSpecFrom (i + 1) specs).or (some i)
  | i, .range _ _ :: specs => defaultSpecFrom (i + 1) specs

def qsortPartitionRboundCmp (key : PartitionKey D)
    (b1 b2 : PartitionRangeBound D key.partnatts) : Int :=
  partitionRboundCmp key.partsupfunc b1.datums.toList b1.lower b2.datums.toList b2.lower

def isDistinct (key : PartitionKey D) :
    Option (PartitionRangeBound D key.partnatts) → PartitionRangeBound D key.partnatts → Bool
  | none, _ => true
  | some prev, cur => distinctFrom key.partsupfunc cur.datums.toList prev.datums.toList

/-- Save distinct bounds; each is compared with the one before it in `all_bounds`. -/
def saveDistinct (key : PartitionKey D) : Option (PartitionRangeBound D key.partnatts) →
    List (PartitionRangeBound D key.partnatts) → List (PartitionRangeBound D key.partnatts)
  | _, [] => []
  | prev, cur :: rest =>
    if isDistinct key prev cur then cur :: saveDistinct key (some cur) rest
    else saveDistinct key (some cur) rest

/-- The last loop: the `indexes` array, the mapping and the next index. -/
def assignIndexes : (Nat → Int) → Int → List (PartitionRangeBound D n) →
    List Int × (Nat → Int) × Int
  | mapping, nextIndex, [] => ([], mapping, nextIndex)
  | mapping, nextIndex, bound :: rest =>
    if bound.lower then
      let (indexes, result) := assignIndexes mapping nextIndex rest
      (-1 :: indexes, result)
    else
      -- if the old index has no mapping, assign one
      let (mapping, nextIndex) :=
        if mapping bound.index = -1 then
          (Function.update mapping bound.index nextIndex, nextIndex + 1)
        else (mapping, nextIndex)
      let (indexes, result) := assignIndexes mapping nextIndex rest
      (mapping bound.index :: indexes, result)

/-- The distinct bounds in order; for partitions that do not overlap, the order
leaves `qsort_arg` no choice. -/
def rangeBounds (key : PartitionKey D) (specs : List (PartitionBoundSpec D key.partnatts)) :
    List (PartitionRangeBound D key.partnatts) :=
  saveDistinct key none
    ((allBoundsFrom 0 specs).insertionSort fun b1 b2 => qsortPartitionRboundCmp key b1 b2 ≤ 0)

/-- `create_range_bounds`, with the mapping to canonical indexes. -/
def createRangeBounds (key : PartitionKey D) (specs : List (PartitionBoundSpec D key.partnatts)) :
    PartitionBoundInfo D × (Nat → Int) :=
  let rbounds := rangeBounds key specs
  let (indexes, mapping, nextIndex) := assignIndexes (fun _ => -1) 0 rbounds
  let (mapping, defaultIndex) : (Nat → Int) × Int := match defaultSpecFrom 0 specs with
    | none => (mapping, -1)
    | some i => (Function.update mapping i nextIndex, nextIndex)
  -- the extra -1 element
  ({ datums := rbounds.map fun bound => bound.datums.toList
     indexes := indexes ++ [-1]
     nullIndex := -1
     defaultIndex := defaultIndex }, mapping)

/-- Two partitions that `check_new_partition_bound` allows together. -/
def NonOverlapping (key : PartitionKey D) :
    PartitionBoundSpec D key.partnatts → PartitionBoundSpec D key.partnatts → Prop
  | .range lower1 upper1, .range lower2 upper2 =>
    partitionRboundCmp key.partsupfunc upper1.toList false lower2.toList true < 0 ∨
      partitionRboundCmp key.partsupfunc upper2.toList false lower1.toList true < 0
  | .default, .default => False
  | _, _ => True

instance (key : PartitionKey D) (spec1 spec2 : PartitionBoundSpec D key.partnatts) :
    Decidable (NonOverlapping key spec1 spec2) :=
  match spec1, spec2 with
  | .range _ _, .range _ _ => inferInstanceAs (Decidable (_ ∨ _))
  | .default, .default => inferInstanceAs (Decidable False)
  | .range _ _, .default => inferInstanceAs (Decidable True)
  | .default, .range _ _ => inferInstanceAs (Decidable True)

/-- The range that `check_new_partition_bound` rejects as empty. -/
def EmptyRange (key : PartitionKey D) : PartitionBoundSpec D key.partnatts → Prop
  | .range lower upper =>
    0 < partitionRboundCmp key.partsupfunc lower.toList true upper.toList false
  | .default => False

instance (key : PartitionKey D) (spec : PartitionBoundSpec D key.partnatts) :
    Decidable (EmptyRange key spec) :=
  match spec with
  | .range _ _ => inferInstanceAs (Decidable (_ < _))
  | .default => inferInstanceAs (Decidable False)

/-- The partitions of a table: no range is empty and no two overlap. -/
structure ValidPartitions (key : PartitionKey D)
    (specs : List (PartitionBoundSpec D key.partnatts)) : Prop where
  nonempty : ∀ spec ∈ specs, ¬ EmptyRange key spec
  disjoint : specs.Pairwise (NonOverlapping key)

/-- What the lookups rely on. -/
structure ValidBounds (key : PartitionKey D) (boundinfo : PartitionBoundInfo D) : Prop where
  columns : ∀ datums ∈ boundinfo.datums, datums.length = key.partnatts
  sorted : boundinfo.datums.Pairwise fun a b => key.boundCmp a b < 0
  first : boundinfo.index 0 = -1
  last : ∀ i, boundinfo.ndatums ≤ i → boundinfo.index i = -1
  index_ge : ∀ i, -1 ≤ boundinfo.index i
  distinct : ∀ i j, boundinfo.index i = boundinfo.index j → boundinfo.index i ≠ -1 → i = j
  default_ge : -1 ≤ boundinfo.defaultIndex
  default_fresh : ∀ i, boundinfo.index i = boundinfo.defaultIndex → boundinfo.index i = -1

/-! ## Sorting and removing duplicates -/

variable (key : PartitionKey D) (bounds : List (PartitionRangeBound D n))

variable (b1 b2 : PartitionRangeBound D key.partnatts)

theorem qsortPartitionRboundCmp_nonpos_iff :
    qsortPartitionRboundCmp key b1 b2 ≤ 0 ↔
      key.boundCmp b1.datums.toList b2.datums.toList < 0 ∨
      key.boundCmp b1.datums.toList b2.datums.toList = 0 ∧ (b1.lower = true → b2.lower = true) := by
  have h := (partitionRboundCmp_orders key b1.lower b2.lower b1.datums.toList_length
    b2.datums.toList_length).2
  unfold qsortPartitionRboundCmp
  rw [← not_lt, h]
  cases b1.lower <;> cases b2.lower <;> simp <;> omega

theorem qsortPartitionRboundCmp_total :
    qsortPartitionRboundCmp key b1 b2 ≤ 0 ∨ qsortPartitionRboundCmp key b2 b1 ≤ 0 := by
  have h1 := key.isComparator_boundCmp.swap b1.datums.toList b2.datums.toList
  have h2 := key.isComparator_boundCmp.swap b2.datums.toList b1.datums.toList
  rw [qsortPartitionRboundCmp_nonpos_iff, qsortPartitionRboundCmp_nonpos_iff]
  cases b1.lower <;> cases b2.lower <;> simp <;> omega

theorem qsortPartitionRboundCmp_trans (b1 b2 b3 : PartitionRangeBound D key.partnatts)
    (h12 : qsortPartitionRboundCmp key b1 b2 ≤ 0) (h23 : qsortPartitionRboundCmp key b2 b3 ≤ 0) :
    qsortPartitionRboundCmp key b1 b3 ≤ 0 := by
  rw [qsortPartitionRboundCmp_nonpos_iff] at h12 h23 ⊢
  have hc := key.isComparator_boundCmp
  obtain h12 | ⟨h12, hl12⟩ := h12
  · obtain h23 | ⟨h23, -⟩ := h23
    · exact Or.inl (hc.lt_of_lt_of_le h12 h23.le)
    · exact Or.inl (hc.lt_of_lt_of_le h12 h23.le)
  obtain h23 | ⟨h23, hl23⟩ := h23
  · exact Or.inl (hc.lt_of_le_of_lt h12.le h23)
  · exact Or.inr ⟨hc.eq_trans h12 h23, fun h => hl23 (hl12 h)⟩

variable (specs : List (PartitionBoundSpec D key.partnatts))

/-- All the bounds after `qsort_arg`. -/
def sortedBounds : List (PartitionRangeBound D key.partnatts) :=
  (allBoundsFrom 0 specs).insertionSort fun b1 b2 => qsortPartitionRboundCmp key b1 b2 ≤ 0

theorem sortedBounds_pairwise :
    (sortedBounds key specs).Pairwise fun b1 b2 => qsortPartitionRboundCmp key b1 b2 ≤ 0 := by
  have ht : Std.Total fun b1 b2 : PartitionRangeBound D key.partnatts =>
      qsortPartitionRboundCmp key b1 b2 ≤ 0 := ⟨qsortPartitionRboundCmp_total key⟩
  have htr : IsTrans _ fun b1 b2 : PartitionRangeBound D key.partnatts =>
      qsortPartitionRboundCmp key b1 b2 ≤ 0 := ⟨qsortPartitionRboundCmp_trans key⟩
  exact pairwise_insertionSort _ _

theorem saveDistinct_sorted :
    ∀ (prev : PartitionRangeBound D key.partnatts) (bounds : List _),
      (prev :: bounds).Pairwise (fun b1 b2 => qsortPartitionRboundCmp key b1 b2 ≤ 0) →
      (prev :: saveDistinct key (some prev) bounds).Pairwise fun b1 b2 =>
        key.boundCmp b1.datums.toList b2.datums.toList < 0 := by
  intro prev bounds
  have hc := key.isComparator_boundCmp
  induction bounds generalizing prev with
  | nil => simp [saveDistinct]
  | cons cur rest ih =>
    intro h
    obtain ⟨hp, hr⟩ := pairwise_cons.mp h
    have hs := ih cur hr
    obtain ⟨hcr, hsv⟩ := pairwise_cons.mp hs
    have hle := (qsortPartitionRboundCmp_nonpos_iff key prev cur).mp (hp cur mem_cons_self)
    have hds := distinctFrom_iff key.partsupfunc cur.datums.toList prev.datums.toList
      cur.datums.toList_length prev.datums.toList_length
    simp only [saveDistinct]
    split
    next hd =>
      have hne := hds.mp hd
      have hlt : key.boundCmp prev.datums.toList cur.datums.toList < 0 := by
        obtain hlt | ⟨heq, -⟩ := hle
        · exact hlt
        · exact absurd (hc.eq_symm heq) hne
      refine pairwise_cons.mpr ⟨?_, hs⟩
      intro b hb
      obtain rfl | hb := mem_cons.mp hb
      · exact hlt
      · exact hc.lt_of_lt_of_le hlt (hcr b hb).le
    · -- `cur` equals `prev`, and what is saved after it is greater
      refine pairwise_cons.mpr ⟨?_, hsv⟩
      intro b hb
      have hn : key.boundCmp prev.datums.toList cur.datums.toList ≤ 0 := by
        obtain hlt | ⟨heq, -⟩ := hle
        · exact hlt.le
        · exact heq.le
      exact hc.lt_of_le_of_lt hn (hcr b hb)

theorem saveDistinct_sublist (prev : Option _) (bounds : List _) :
    (saveDistinct key prev bounds).Sublist bounds := by
  induction bounds generalizing prev with
  | nil => simp [saveDistinct]
  | cons cur rest ih =>
    simp only [saveDistinct]
    split
    · exact (ih (some cur)).cons_cons cur
    · exact (ih (some cur)).cons cur

theorem rangeBounds_eq :
    rangeBounds key specs = saveDistinct key none (sortedBounds key specs) := rfl

theorem rangeBounds_sorted :
    (rangeBounds key specs).Pairwise fun b1 b2 =>
      key.boundCmp b1.datums.toList b2.datums.toList < 0 := by
  have hs := sortedBounds_pairwise key specs
  rw [rangeBounds_eq]
  cases h : sortedBounds key specs with
  | nil => simp [saveDistinct]
  | cons first rest =>
    rw [h] at hs
    simpa [saveDistinct, isDistinct] using saveDistinct_sorted key first rest hs

theorem exists_lower_of_mem {i : Nat} {ss : List (PartitionBoundSpec D n)}
    {bound : PartitionRangeBound D n} (h : bound ∈ allBoundsFrom i ss) :
    ∃ lower upper, .range lower upper ∈ ss ∧
      (bound.lower = false → bound.datums = upper) ∧
      ⟨bound.index, lower, true⟩ ∈ allBoundsFrom i ss := by
  induction ss generalizing i with
  | nil => simp [allBoundsFrom] at h
  | cons spec ss ih =>
    cases spec with
    | default =>
      obtain ⟨lower, upper, hm, hu, hl⟩ := ih h
      exact ⟨lower, upper, mem_cons_of_mem _ hm, hu, hl⟩
    | range lower upper =>
      obtain rfl | h := mem_cons.mp h
      · exact ⟨lower, upper, mem_cons_self, by simp, mem_cons_self⟩
      obtain rfl | h := mem_cons.mp h
      · exact ⟨lower, upper, mem_cons_self, by simp, mem_cons_self⟩
      obtain ⟨lower', upper', hm, hu, hl⟩ := ih h
      exact ⟨lower', upper', mem_cons_of_mem _ hm, hu, mem_cons_of_mem _ (mem_cons_of_mem _ hl)⟩

theorem rangeBounds_head_lower {key : PartitionKey D}
    {ss : List (PartitionBoundSpec D key.partnatts)} (hvl : ValidPartitions key ss)
    {first : PartitionRangeBound D key.partnatts} {rest : List _}
    (h : rangeBounds key ss = first :: rest) : first.lower = true := by
  have hsr := sortedBounds_pairwise key ss
  rw [rangeBounds_eq] at h
  cases hs : sortedBounds key ss with
  | nil => simp [hs, saveDistinct] at h
  | cons b bounds =>
    rw [hs] at h hsr
    obtain rfl : b = first := by simpa [saveDistinct, isDistinct] using (List.cons.inj h).1
    obtain ⟨hmn, -⟩ := pairwise_cons.mp hsr
    have hm (x : PartitionRangeBound D key.partnatts) :
        x ∈ sortedBounds key ss ↔ x ∈ allBoundsFrom 0 ss := mem_insertionSort _
    have hb := (hm b).mp (by rw [hs]; exact mem_cons_self)
    obtain ⟨lower, upper, hsp, hu, hlw⟩ := exists_lower_of_mem hb
    by_contra hl
    have hl' : b.lower = false := by simpa using hl
    have hin := (hm _).mpr hlw
    rw [hs] at hin
    -- its lower bound would be smaller
    have hlt : key.boundCmp lower.toList upper.toList < 0 := by
      have h1 := hvl.nonempty _ hsp
      have h2 := (partitionRboundCmp_orders key true false lower.toList_length
        upper.toList_length).2
      rw [EmptyRange, h2] at h1
      simp only [and_self, and_true, not_or] at h1
      omega
    have hsw := key.isComparator_boundCmp.swap upper.toList lower.toList
    obtain heq | hin := mem_cons.mp hin
    · rw [← heq] at hl'
      simp at hl'
    have h3 := (qsortPartitionRboundCmp_nonpos_iff key _ _).mp (hmn _ hin)
    rw [hu hl'] at h3
    dsimp only at h3
    omega

/-! ## Canonical indexes -/

/-- The upper bounds numbered from `next` on. -/
def numberUppers : Int → List (PartitionRangeBound D n) → List Int
  | _, [] => []
  | next, bound :: rest =>
    if bound.lower then -1 :: numberUppers next rest else next :: numberUppers (next + 1) rest

/-- No two upper bounds belong to one partition. -/
def UppersDistinct (bounds : List (PartitionRangeBound D n)) : Prop :=
  bounds.Pairwise fun b1 b2 => b1.lower = false → b2.lower = false → b1.index ≠ b2.index

theorem assignIndexes_eq :
    ∀ (map : Nat → Int) (next : Int), UppersDistinct bounds →
      (∀ b ∈ bounds, b.lower = false → map b.index = -1) →
      (assignIndexes map next bounds).1 = numberUppers next bounds ∧
      (assignIndexes map next bounds).2.2 = next + bounds.countP (fun b => b.lower = false) := by
  induction bounds with
  | nil => simp [assignIndexes, numberUppers]
  | cons bound rest ih =>
    intro map next hd hf
    obtain ⟨hh, hr⟩ := pairwise_cons.mp hd
    cases hl : bound.lower with
    | true =>
      obtain ⟨h1, h2⟩ := ih map next hr fun b hb => hf b (mem_cons_of_mem _ hb)
      simp [assignIndexes, numberUppers, hl, h1, h2]
    | false =>
      obtain ⟨h1, h2⟩ := ih (Function.update map bound.index next) (next + 1) hr (by
        intro b hb hb'
        rw [Function.update_of_ne (hh b hb hl hb').symm]
        exact hf b (mem_cons_of_mem _ hb) hb')
      have hn := hf bound mem_cons_self hl
      simp only [assignIndexes, numberUppers, hl, hn, Bool.false_eq_true, if_false, if_true,
        Function.update_self, h1, h2, countP_cons, decide_true, true_and]
      omega

theorem numberUppers_getD (next : Int) (i : Nat) :
    (numberUppers next bounds).getD i (-1) = -1 ∨
      next ≤ (numberUppers next bounds).getD i (-1) ∧
      (numberUppers next bounds).getD i (-1) < next + bounds.countP (fun b => b.lower = false) := by
  induction bounds generalizing next i with
  | nil => simp [numberUppers]
  | cons bound rest ih =>
    cases hl : bound.lower with
    | true =>
      cases i with
      | zero => simp [numberUppers, hl]
      | succ i => simpa [numberUppers, hl] using ih next i
    | false =>
      cases i with
      | zero =>
        right
        simp [numberUppers, hl]
      | succ i =>
        have hr := ih (next + 1) i
        simp only [numberUppers, hl, Bool.false_eq_true, if_false, getD_cons_succ,
          countP_cons, decide_true, if_true]
        omega

theorem numberUppers_lt (next : Int) (hn : 0 ≤ next) {i j : Nat} (hij : i < j)
    (hi : (numberUppers next bounds).getD i (-1) ≠ -1)
    (hj : (numberUppers next bounds).getD j (-1) ≠ -1) :
    (numberUppers next bounds).getD i (-1) < (numberUppers next bounds).getD j (-1) := by
  induction bounds generalizing next i j with
  | nil => simp [numberUppers] at hi
  | cons bound rest ih =>
    cases j with
    | zero => omega
    | succ j =>
      cases hl : bound.lower with
      | true =>
        simp only [numberUppers, hl, if_true] at hi hj ⊢
        cases i with
        | zero => simp at hi
        | succ i => exact ih next hn (by omega) hi hj
      | false =>
        simp only [numberUppers, hl, Bool.false_eq_true, if_false] at hi hj ⊢
        cases i with
        | zero =>
          have hge := numberUppers_getD rest (next + 1) j
          simp only [getD_cons_succ, getD_cons_zero] at hj ⊢
          omega
        | succ i => exact ih (next + 1) (by omega) (by omega) hi hj

theorem index_ge_of_mem {i : Nat} {ss : List (PartitionBoundSpec D n)}
    {bound : PartitionRangeBound D n} (h : bound ∈ allBoundsFrom i ss) : i ≤ bound.index := by
  induction ss generalizing i with
  | nil => simp [allBoundsFrom] at h
  | cons spec ss ih =>
    cases spec with
    | default => exact (Nat.le_succ i).trans (ih h)
    | range lower upper =>
      obtain rfl | h := mem_cons.mp h
      · exact le_rfl
      obtain rfl | h := mem_cons.mp h
      · exact le_rfl
      · exact (Nat.le_succ i).trans (ih h)

theorem allBoundsFrom_uppersDistinct (i : Nat) (ss : List (PartitionBoundSpec D n)) :
    UppersDistinct (allBoundsFrom i ss) := by
  induction ss generalizing i with
  | nil => exact List.Pairwise.nil
  | cons spec ss ih =>
    cases spec with
    | default => exact ih (i + 1)
    | range lower upper =>
      refine pairwise_cons.mpr ⟨by simp, pairwise_cons.mpr ⟨?_, ih (i + 1)⟩⟩
      intro b hb _ _
      have hge := index_ge_of_mem hb
      show i ≠ b.index
      omega

theorem rangeBounds_uppersDistinct : UppersDistinct (rangeBounds key specs) := by
  have hsy : Std.Symm fun b1 b2 : PartitionRangeBound D key.partnatts =>
      b1.lower = false → b2.lower = false → b1.index ≠ b2.index :=
    ⟨fun _ _ h h1 h2 => (h h2 h1).symm⟩
  have hp : (sortedBounds key specs).Perm (allBoundsFrom 0 specs) := perm_insertionSort _ _
  have hs := (hp.pairwise_iff fun h => hsy.symm _ _ h).mpr (allBoundsFrom_uppersDistinct 0 specs)
  exact hs.sublist (saveDistinct_sublist key none _)

/-! ## What `create_range_bounds` builds -/

theorem createRangeBounds_datums :
    (createRangeBounds key specs).1.datums =
      (rangeBounds key specs).map fun bound => bound.datums.toList := by
  cases defaultSpecFrom 0 specs <;> rfl

theorem createRangeBounds_index (i : Nat) :
    (createRangeBounds key specs).1.index i =
      (numberUppers 0 (rangeBounds key specs)).getD i (-1) := by
  obtain ⟨h, -⟩ := assignIndexes_eq (rangeBounds key specs) (fun _ => -1) 0
    (rangeBounds_uppersDistinct key specs) fun _ _ _ => rfl
  have hin : (createRangeBounds key specs).1.indexes =
      numberUppers 0 (rangeBounds key specs) ++ [-1] := by
    rw [← h]
    cases defaultSpecFrom 0 specs <;> rfl
  unfold index
  rw [hin]
  -- what is appended is also the value outside
  by_cases hi : i < (numberUppers 0 (rangeBounds key specs)).length
  · rw [getD_append _ _ _ _ hi]
  rw [getD_append_right _ _ _ _ (by omega),
    getD_eq_default (numberUppers 0 (rangeBounds key specs)) _ (by omega)]
  cases i - (numberUppers 0 (rangeBounds key specs)).length <;> simp

theorem createRangeBounds_default :
    (createRangeBounds key specs).1.defaultIndex = -1 ∨
      (createRangeBounds key specs).1.defaultIndex =
        (rangeBounds key specs).countP fun b => b.lower = false := by
  obtain ⟨-, h⟩ := assignIndexes_eq (rangeBounds key specs) (fun _ => -1) 0
    (rangeBounds_uppersDistinct key specs) fun _ _ _ => rfl
  unfold createRangeBounds
  cases defaultSpecFrom 0 specs with
  | none => exact Or.inl rfl
  | some i =>
    right
    show (assignIndexes (fun _ => -1) 0 (rangeBounds key specs)).2.2 = _
    rw [h]
    omega

theorem length_numberUppers (next : Int) : (numberUppers next bounds).length = bounds.length := by
  induction bounds generalizing next with
  | nil => rfl
  | cons bound rest ih =>
    simp only [numberUppers]
    split <;> simp [ih]

/-- **The bounds of a table** are as the lookups need them. -/
theorem createRangeBounds_valid {key : PartitionKey D}
    {ss : List (PartitionBoundSpec D key.partnatts)} (hvl : ValidPartitions key ss) :
    ValidBounds key (createRangeBounds key ss).1 where
  columns datums hd := by
    obtain ⟨bound, -, rfl⟩ := mem_map.mp hd
    exact bound.datums.toList_length
  sorted := by
    rw [createRangeBounds_datums]
    exact pairwise_map.mpr (rangeBounds_sorted key ss)
  first := by
    rw [createRangeBounds_index]
    cases h : rangeBounds key ss with
    | nil => rfl
    | cons first rest => simp [numberUppers, rangeBounds_head_lower hvl h]
  last i hi := by
    rw [ndatums, createRangeBounds_datums, length_map] at hi
    rw [createRangeBounds_index]
    exact getD_eq_default _ _ (by rwa [length_numberUppers])
  index_ge i := by
    rw [createRangeBounds_index]
    have h := numberUppers_getD (rangeBounds key ss) 0 i
    omega
  distinct i j := by
    rw [createRangeBounds_index, createRangeBounds_index]
    intro heq hne
    obtain hlt | heq' | hlt := Nat.lt_trichotomy i j
    · have h := numberUppers_lt _ 0 le_rfl hlt hne (heq ▸ hne)
      omega
    · exact heq'
    have h := numberUppers_lt _ 0 le_rfl hlt (heq ▸ hne) hne
    omega
  default_ge := by
    have h := createRangeBounds_default key ss
    omega
  default_fresh i := by
    rw [createRangeBounds_index]
    have h1 := numberUppers_getD (rangeBounds key ss) 0 i
    have h2 := createRangeBounds_default key ss
    omega

end Create

/-! ## Looking up a key -/

section Lookup

variable {D : Type} {key : PartitionKey D} {boundinfo : PartitionBoundInfo D}

/-- `partition_range_datum_bsearch`: the offset found, and `is_equal`. -/
def partitionRangeDatumBsearch (partsupfunc : List (D → D → Int))
    (boundinfo : PartitionBoundInfo D) (values : List D) : Int × Bool :=
  bsearch boundinfo.ndatums fun mid =>
    partitionRboundDatumCmp partsupfunc (boundinfo.datum mid) values

variable (key)

variable (boundinfo)

variable (values : List D)

def boundsBelow : Nat :=
  boundinfo.datums.countP fun datums => partitionRboundDatumCmp key.partsupfunc datums values < 0

def boundsUpto : Nat :=
  boundinfo.datums.countP fun datums => partitionRboundDatumCmp key.partsupfunc datums values ≤ 0

theorem boundsUpto_le : boundsUpto key boundinfo values ≤ boundinfo.ndatums := countP_le_length

variable {boundinfo}

variable {key}

section

variable (hvl : ValidBounds key boundinfo)
include hvl

theorem ValidBounds.datum_length {i : Nat} (hi : i < boundinfo.ndatums) :
    (boundinfo.datum i).length = key.partnatts := by
  unfold datum
  rw [getD_eq_getElem _ _ hi]
  exact hvl.columns _ (getElem_mem hi)

theorem ValidBounds.datum_lt {i j : Nat} (hij : i < j) (hj : j < boundinfo.ndatums) :
    key.boundCmp (boundinfo.datum i) (boundinfo.datum j) < 0 := by
  have hi := hij.trans hj
  unfold datum
  rw [getD_eq_getElem _ _ hi, getD_eq_getElem _ _ hj]
  exact pairwise_iff_getElem.mp hvl.sorted i j hi hj hij

/-- Sorted bounds come in three runs: below the key, equal to it, above it. -/
theorem datumProfile {values : List D} (hne : values ≠ []) (hl : values.length ≤ key.partnatts) :
    SignProfile boundinfo.ndatums
      (fun i => partitionRboundDatumCmp key.partsupfunc (boundinfo.datum i) values)
      (boundsBelow key boundinfo values) (boundsUpto key boundinfo values) := by
  refine signProfile_of_pairwise
    (c := fun datums => partitionRboundDatumCmp key.partsupfunc datums values) [] ?_
  have hc := key.isComparator_leadingCmp values.length
  refine hvl.sorted.imp_of_mem ?_
  intro a b ha hb hab
  rw [partitionRboundDatumCmp_eq key hne hl (hvl.columns a ha),
    partitionRboundDatumCmp_eq key hne hl (hvl.columns b hb)]
  have hle := key.leadingCmp_nonpos values.length hab.le
  exact ⟨fun h => hc.trans _ _ _ hle h, fun h => hc.lt_of_le_of_lt hle h⟩

theorem boundsUpto_le_succ {values : List D} (hl : values.length = key.partnatts) :
    boundsUpto key boundinfo values ≤ boundsBelow key boundinfo values + 1 := by
  have hne : values ≠ [] := by
    intro h
    have hps := key.partnatts_pos
    simp [h] at hl
    omega
  have hp := datumProfile hvl hne hl.le
  have hle := hp.upto_le
  by_contra hgt
  -- two neighbours would be equal
  obtain ⟨i, hi⟩ : ∃ i, i = boundsBelow key boundinfo values := ⟨_, rfl⟩
  have hi1 : i + 1 < boundinfo.ndatums := by omega
  have h0 := (hp.eq_zero_iff (show i < boundinfo.ndatums by omega)).mpr (by omega)
  have h1 := (hp.eq_zero_iff hi1).mpr (by omega)
  rw [partitionRboundDatumCmp_eq key hne hl.le (hvl.datum_length (by omega)), hl,
    key.leadingCmp_partnatts] at h0
  rw [partitionRboundDatumCmp_eq key hne hl.le (hvl.datum_length hi1), hl,
    key.leadingCmp_partnatts] at h1
  have hc := key.isComparator_boundCmp
  have heq := hc.eq_trans h0 (hc.eq_symm h1)
  have hlt := hvl.datum_lt (Nat.lt_add_one i) hi1
  omega

end

end Lookup

end AthenaPG
