import AthenaPG.Partitioning.PartBounds
import AthenaPG.Library.Numbering

/-!
Hash partition bounds (`create_hash_bounds` and `compute_partition_hash_value` of
`src/backend/partitioning/partbounds.c`).

The `indexes` array has a cell for each remainder of the greatest modulus, and a
partition fills the cells that its own modulus and remainder stand for.

* `createHashBounds_spec`: which partition a cell holds.
-/

namespace AthenaPG
open List Nat

open Numbering

/-! ## Hash values -/

/-- `hash_combine64` of `src/include/common/hashfn.h`. -/
def hashCombine64 (a b : BitVec 64) : BitVec 64 :=
  a ^^^ (b + 0x49a0f4dd15e5a8e3#64 + (a <<< 54) + (a >>> 7))

def hashPartitionSeed : BitVec 64 := 0x7A5B22367996DCFD#64

/-- A key column: its extended hash function and the equality operator it goes with. -/
structure HashColumn (D : Type) where
  hash : D → BitVec 64 → BitVec 64
  equal : D → D → Bool
  compatible : ∀ a b, equal a b = true → ∀ seed, hash a seed = hash b seed

structure HashPartitionKey (D : Type) where
  columns : List (HashColumn D)
  nonempty : columns ≠ []

def HashPartitionKey.partnatts {D : Type} (key : HashPartitionKey D) : Nat := key.columns.length

/-- The loop of `compute_partition_hash_value`; a null is `none` and ignored. -/
def partitionHashFrom {D : Type} : List (HashColumn D) → List (Option D) → BitVec 64 → BitVec 64
  | column :: columns, some value :: row, rowHash =>
    partitionHashFrom columns row (hashCombine64 rowHash (column.hash value hashPartitionSeed))
  | _ :: columns, none :: row, rowHash => partitionHashFrom columns row rowHash
  | _, _, rowHash => rowHash

def computePartitionHashValue {D : Type} (key : HashPartitionKey D) (row : List (Option D)) : Nat :=
  (partitionHashFrom key.columns row 0#64).toNat

/-! ## The bounds of a partitioned table -/

/-- A `PartitionBoundSpec` of a hash partition. -/
structure HashBoundSpec where
  modulus : Nat
  remainder : Nat
  deriving DecidableEq, Repr

structure PartitionHashBound where
  modulus : Nat
  remainder : Nat
  index : Nat
  deriving DecidableEq, Repr

def partitionHboundCmp (modulus1 remainder1 modulus2 remainder2 : Nat) : Int :=
  if modulus1 < modulus2 then -1
  else if modulus2 < modulus1 then 1
  else if remainder1 ≠ remainder2 then (if remainder2 < remainder1 then 1 else -1)
  else 0

def qsortPartitionHboundCmp (h1 h2 : PartitionHashBound) : Int :=
  partitionHboundCmp h1.modulus h1.remainder h2.modulus h2.remainder

/-- The `while` loop of `create_hash_bounds`; it ends after as many rounds as there
are cells. -/
def fillRemainders (modulus : Nat) (i : Int) : Nat → Nat → List Int → List Int
  | 0, _, indexes => indexes
  | fuel + 1, remainder, indexes =>
    if remainder < indexes.length then
      fillRemainders modulus i fuel (remainder + modulus) (indexes.set remainder i)
    else indexes

/-- The loop over the sorted bounds, from bound `i` on. -/
def fillBounds : Nat → List PartitionHashBound → List Int → (Nat → Int) → List Int × (Nat → Int)
  | _, [], indexes, mapping => (indexes, mapping)
  | i, b :: rest, indexes, mapping =>
    fillBounds (i + 1) rest (fillRemainders b.modulus i indexes.length b.remainder indexes)
      (Function.update mapping b.index i)

def hashBounds (specs : List HashBoundSpec) : List PartitionHashBound :=
  (specs.zipIdx.map fun s => ⟨s.1.modulus, s.1.remainder, s.2⟩).insertionSort fun h1 h2 =>
    qsortPartitionHboundCmp h1 h2 ≤ 0

/-- `create_hash_bounds`, with the mapping to canonical indexes. -/
def createHashBounds (specs : List HashBoundSpec) : PartitionBoundInfo Nat × (Nat → Int) :=
  let hbounds := hashBounds specs
  -- after sorting, moduli are in ascending order
  let greatestModulus := (hbounds.getLast?.map PartitionHashBound.modulus).getD 0
  let (indexes, mapping) := fillBounds 0 hbounds (List.replicate greatestModulus (-1)) fun _ => -1
  ({ datums := hbounds.map fun b => [.value b.modulus, .value b.remainder]
     indexes := indexes
     nullIndex := -1
     defaultIndex := -1 }, mapping)

def HashBoundSpec.Accepts (spec : HashBoundSpec) (rowHash : Nat) : Prop :=
  rowHash % spec.modulus = spec.remainder

/-- Two partitions that `check_new_partition_bound` allows together: the smaller
modulus is a factor of the greater, and no hash value belongs to both. -/
def HashNonOverlapping (spec1 spec2 : HashBoundSpec) : Prop :=
  (spec1.modulus ∣ spec2.modulus ∨ spec2.modulus ∣ spec1.modulus) ∧
    ∀ rowHash, ¬ (spec1.Accepts rowHash ∧ spec2.Accepts rowHash)

structure ValidHashPartitions (specs : List HashBoundSpec) : Prop where
  nonempty : specs ≠ []
  remainder_lt : ∀ spec ∈ specs, spec.remainder < spec.modulus
  disjoint : specs.Pairwise HashNonOverlapping

/-! ## Filling the cells -/

theorem length_fillRemainders (md : Nat) (i : Int) (fuel rm : Nat) (ix : List Int) :
    (fillRemainders md i fuel rm ix).length = ix.length := by
  induction fuel generalizing rm ix with
  | zero => rfl
  | succ fuel ih =>
    simp only [fillRemainders]
    split
    · rw [ih, length_set]
    · rfl

theorem getD_fillRemainders {md : Nat} (hp : 0 < md) (i : Int) (fuel : Nat) :
    ∀ (rm : Nat) (ix : List Int), ix.length ≤ fuel + rm →
      ∀ x < ix.length, (fillRemainders md i fuel rm ix).getD x (-1) =
        if rm ≤ x ∧ (x - rm) % md = 0 then i else ix.getD x (-1) := by
  induction fuel with
  | zero =>
    intro rm ix hl x hx
    rw [fillRemainders, if_neg (by omega)]
  | succ fuel ih =>
    intro rm ix hl x hx
    simp only [fillRemainders]
    split
    next hlt =>
      rw [ih (rm + md) _ (by rw [length_set]; omega) x (by rwa [length_set])]
      by_cases hxr : x = rm
      · subst hxr
        rw [if_neg (by omega), if_pos ⟨le_rfl, by simp⟩]
        simp [getD_eq_getElem?_getD, hx]
      have hs : (ix.set rm i).getD x (-1) = ix.getD x (-1) := by
        simp [getD_eq_getElem?_getD, getElem?_set_ne (Ne.symm hxr)]
      rw [hs]
      refine if_congr ?_ rfl rfl
      constructor
      · rintro ⟨hle, hm⟩
        refine ⟨by omega, ?_⟩
        rw [show x - rm = x - (rm + md) + md by omega, add_mod_right, hm]
      · rintro ⟨hle, hm⟩
        have hge := le_of_dvd (by omega) (dvd_of_mod_eq_zero hm)
        refine ⟨by omega, ?_⟩
        rwa [show x - rm = x - (rm + md) + md by omega, add_mod_right] at hm
    next hge => rw [if_neg (by omega)]

def PartitionHashBound.Covers (b : PartitionHashBound) (x : Nat) : Prop :=
  x % b.modulus = b.remainder

theorem covers_iff {b : PartitionHashBound} (hlt : b.remainder < b.modulus) (x : Nat) :
    b.remainder ≤ x ∧ (x - b.remainder) % b.modulus = 0 ↔ b.Covers x := by
  unfold PartitionHashBound.Covers
  constructor
  · rintro ⟨hle, hm⟩
    obtain ⟨q, hq⟩ := dvd_of_mod_eq_zero hm
    rw [show x = b.remainder + b.modulus * q by omega, add_mul_mod_self_left, mod_eq_of_lt hlt]
  · intro h
    have hd := div_add_mod x b.modulus
    refine ⟨by omega, ?_⟩
    rw [show x - b.remainder = b.modulus * (x / b.modulus) by omega, mul_mod_right]

theorem fillBounds_cells (bounds : List PartitionHashBound) :
    ∀ (i : Nat) (ix : List Int) (map : Nat → Int),
      (∀ b ∈ bounds, b.remainder < b.modulus) →
      bounds.Pairwise (fun b1 b2 => ∀ x, ¬ (b1.Covers x ∧ b2.Covers x)) →
      (fillBounds i bounds ix map).1.length = ix.length ∧
      ∀ x < ix.length,
        (∀ (j : Nat) (hj : j < bounds.length), bounds[j].Covers x →
          (fillBounds i bounds ix map).1.getD x (-1) = i + j) ∧
        ((∀ b ∈ bounds, ¬ b.Covers x) →
          (fillBounds i bounds ix map).1.getD x (-1) = ix.getD x (-1)) := by
  induction bounds with
  | nil => intro i ix map _ _; simp [fillBounds]
  | cons b rest ih =>
    intro i ix map hlt hd
    obtain ⟨hb, hr⟩ := pairwise_cons.mp hd
    have hbr := hlt b mem_cons_self
    have hl := length_fillRemainders b.modulus i ix.length b.remainder ix
    obtain ⟨h1, h2⟩ := ih (i + 1) (fillRemainders b.modulus i ix.length b.remainder ix)
      (Function.update map b.index i) (fun c hc => hlt c (mem_cons_of_mem _ hc)) hr
    rw [hl] at h1 h2
    refine ⟨h1, fun x hx => ?_⟩
    obtain ⟨hcv, hn⟩ := h2 x hx
    have hcl := getD_fillRemainders (by omega : 0 < b.modulus) i ix.length b.remainder
      ix (by omega) x hx
    constructor
    · intro j hj hc
      cases j with
      | zero =>
        rw [fillBounds, hn fun c hmem hcx => hb c hmem x ⟨hc, hcx⟩, hcl,
          if_pos ((covers_iff hbr x).mpr hc)]
        simp
      | succ j =>
        rw [fillBounds, hcv j (by simpa using hj) (by simpa using hc)]
        push_cast
        ring
    · intro hno
      rw [fillBounds, hn fun c hmem => hno c (mem_cons_of_mem _ hmem), hcl,
        if_neg fun h => hno b mem_cons_self ((covers_iff hbr x).mp h)]

theorem fillBounds_mapping {n : Nat} (bounds : List PartitionHashBound) :
    ∀ (i : Nat) (ix : List Int) (map : Nat → Int), Numbers n map i →
      (∀ b ∈ bounds, b.index < n ∧ map b.index = -1) →
      bounds.Pairwise (fun b1 b2 => b1.index ≠ b2.index) →
      (∃ next, Numbers n (fillBounds i bounds ix map).2 next) ∧
      (∀ m, (∀ b ∈ bounds, b.index ≠ m) → (fillBounds i bounds ix map).2 m = map m) ∧
      ∀ (j : Nat) (hj : j < bounds.length),
        (fillBounds i bounds ix map).2 bounds[j].index = i + j := by
  induction bounds with
  | nil =>
    intro i ix map h _ _
    exact ⟨⟨i, h⟩, fun _ _ => rfl, by simp⟩
  | cons b rest ih =>
    intro i ix map h hf hd
    obtain ⟨hb, hr⟩ := pairwise_cons.mp hd
    obtain ⟨hlt, hn⟩ := hf b mem_cons_self
    have hnm : Numbers n (Function.update map b.index (i : Int)) ((i + 1 : Nat) : Int) := by
      exact h.assign hlt hn
    obtain ⟨h1, h2, h3⟩ := ih (i + 1)
      (fillRemainders b.modulus i ix.length b.remainder ix) _ hnm (by
        intro c hc
        obtain ⟨hcl, hcn⟩ := hf c (mem_cons_of_mem _ hc)
        exact ⟨hcl, by rw [Function.update_of_ne (hb c hc).symm, hcn]⟩) hr
    refine ⟨h1, fun m hm => ?_, fun j hj => ?_⟩
    · rw [fillBounds, h2 m fun c hc => hm c (mem_cons_of_mem _ hc),
        Function.update_of_ne (hm b mem_cons_self).symm]
    cases j with
    | zero =>
      rw [fillBounds, getElem_cons_zero, h2 b.index fun c hc => (hb c hc).symm,
        Function.update_self]
      simp
    | succ j =>
      rw [fillBounds, getElem_cons_succ, h3 j (by simpa using hj)]
      push_cast
      ring

/-! ## What `create_hash_bounds` builds -/

variable {specs : List HashBoundSpec}

theorem mem_hashBounds (b : PartitionHashBound) :
    b ∈ hashBounds specs ↔ specs[b.index]? = some ⟨b.modulus, b.remainder⟩ := by
  obtain ⟨md, rm, index⟩ := b
  unfold hashBounds
  rw [mem_insertionSort, mem_map]
  constructor
  · rintro ⟨⟨spec, i⟩, hm, heq⟩
    obtain ⟨rfl, rfl, rfl⟩ := heq
    exact mem_zipIdx_iff_getElem?.mp hm
  · intro h
    exact ⟨(⟨md, rm⟩, index), mem_zipIdx_iff_getElem?.mpr h, rfl⟩

/-- What two bounds of one table have to do with each other. -/
def BoundsApart (b1 b2 : PartitionHashBound) : Prop :=
  b1.index ≠ b2.index ∧ (b1.modulus ∣ b2.modulus ∨ b2.modulus ∣ b1.modulus) ∧
    ∀ x, ¬ (b1.Covers x ∧ b2.Covers x)

theorem hashBounds_apart (hv : ValidHashPartitions specs) :
    (hashBounds specs).Pairwise BoundsApart := by
  have hs : ∀ b1 b2, BoundsApart b1 b2 → BoundsApart b2 b1 := fun b1 b2 h =>
    ⟨h.1.symm, h.2.1.symm, fun x hx => h.2.2 x hx.symm⟩
  refine ((perm_insertionSort _ _).pairwise_iff fun {b1 b2} h => hs b1 b2 h).mpr ?_
  rw [pairwise_map, pairwise_iff_getElem]
  intro i j hi hj hij
  rw [getElem_zipIdx, getElem_zipIdx]
  rw [length_zipIdx] at hi hj
  have hp := pairwise_iff_getElem.mp hv.disjoint i j hi hj hij
  refine ⟨?_, hp.1, hp.2⟩
  show 0 + i ≠ 0 + j
  omega

theorem hashBounds_sorted (ss : List HashBoundSpec) :
    (hashBounds ss).Pairwise fun b1 b2 => b1.modulus ≤ b2.modulus := by
  have hc (b1 b2 : PartitionHashBound) : qsortPartitionHboundCmp b1 b2 ≤ 0 ↔
      b1.modulus < b2.modulus ∨ b1.modulus = b2.modulus ∧ b1.remainder ≤ b2.remainder := by
    unfold qsortPartitionHboundCmp partitionHboundCmp
    split_ifs <;> simp <;> omega
  have ht : Std.Total fun b1 b2 : PartitionHashBound => qsortPartitionHboundCmp b1 b2 ≤ 0 :=
    ⟨fun b1 b2 => by rw [hc, hc]; omega⟩
  have htr : IsTrans _ fun b1 b2 : PartitionHashBound => qsortPartitionHboundCmp b1 b2 ≤ 0 :=
    ⟨fun b1 b2 b3 => by rw [hc, hc, hc]; omega⟩
  have hs := pairwise_insertionSort
    (fun b1 b2 : PartitionHashBound => qsortPartitionHboundCmp b1 b2 ≤ 0)
    (ss.zipIdx.map fun s => ⟨s.1.modulus, s.1.remainder, s.2⟩)
  refine hs.imp fun {b1 b2} h => ?_
  have h' := (hc b1 b2).mp h
  omega

structure HashBoundsOf (specs : List HashBoundSpec) (boundinfo : PartitionBoundInfo Nat)
    (mapping : Nat → Int) : Prop where
  positive : 0 < boundinfo.indexes.length
  cell : ∀ (rowHash i : Nat) (spec : HashBoundSpec), specs[i]? = some spec →
    spec.Accepts rowHash → boundinfo.index (rowHash % boundinfo.indexes.length) = mapping i
  empty : ∀ rowHash : Nat, (∀ spec ∈ specs, ¬ spec.Accepts rowHash) →
    boundinfo.index (rowHash % boundinfo.indexes.length) = -1
  noNull : boundinfo.nullIndex = -1
  noDefault : boundinfo.defaultIndex = -1
  numbered : ∀ i < specs.length, 0 ≤ mapping i ∧ mapping i < specs.length
  inj : ∀ i < specs.length, ∀ j < specs.length, mapping i = mapping j → i = j

/-- **The bounds of a table.** -/
theorem createHashBounds_spec (hv : ValidHashPartitions specs) :
    HashBoundsOf specs (createHashBounds specs).1 (createHashBounds specs).2 := by
  obtain ⟨bounds, hbn⟩ : ∃ bounds, bounds = hashBounds specs := ⟨_, rfl⟩
  have hmm (b : PartitionHashBound) :
      b ∈ bounds ↔ specs[b.index]? = some ⟨b.modulus, b.remainder⟩ := hbn ▸ mem_hashBounds b
  have hap := hbn ▸ hashBounds_apart hv
  have hs := hbn ▸ hashBounds_sorted specs
  have hlt (b : PartitionHashBound) (hb : b ∈ bounds) : b.remainder < b.modulus :=
    hv.remainder_lt _ (mem_of_getElem? ((hmm b).mp hb))
  have hne : bounds ≠ [] := by
    obtain ⟨spec, hsp⟩ := exists_mem_of_ne_nil _ hv.nonempty
    obtain ⟨i, hi⟩ := mem_iff_getElem?.mp hsp
    exact ne_nil_of_mem ((hmm ⟨spec.modulus, spec.remainder, i⟩).mpr hi)
  obtain ⟨g, hg⟩ : ∃ g, g = ((hashBounds specs).getLast?.map PartitionHashBound.modulus).getD 0 :=
    ⟨_, rfl⟩
  have hgl : g = (bounds.getLast hne).modulus := by
    rw [hg, ← hbn, getLast?_eq_some_getLast hne]
    rfl
  have hls := getLast_mem hne
  have hgp : 0 < g := by
    have h := hlt _ hls
    omega
  -- every modulus is a factor of the greatest
  have hdv (b : PartitionHashBound) (hb : b ∈ bounds) : b.modulus ∣ g := by
    rw [hgl]
    obtain ⟨i, hi, rfl⟩ := getElem_of_mem hb
    rw [getLast_eq_getElem]
    obtain hil | hil := Nat.lt_or_ge i (bounds.length - 1)
    · have hle := pairwise_iff_getElem.mp hs i (bounds.length - 1) hi (by omega) hil
      have hps := hlt _ hb
      rcases (pairwise_iff_getElem.mp hap i (bounds.length - 1) hi (by omega) hil).2.1
        with h | h
      · exact h
      have hge := le_of_dvd (by omega) h
      rw [le_antisymm hge hle]
    have hiq : i = bounds.length - 1 := by omega
    subst hiq
    exact dvd_rfl
  obtain ⟨hl, hc⟩ := fillBounds_cells bounds 0 (List.replicate g (-1)) (fun _ => -1) hlt
    (hap.imp fun h => h.2.2)
  obtain ⟨⟨next, hn⟩, -, hps⟩ := fillBounds_mapping (n := specs.length) bounds 0
    (List.replicate g (-1)) (fun _ => -1) (numbers_start _)
    (fun b hb => ⟨(List.getElem?_eq_some_iff.mp ((hmm b).mp hb)).1, rfl⟩)
    (hap.imp fun h => h.1)
  have hin : (createHashBounds specs).1.indexes =
      (fillBounds 0 bounds (List.replicate g (-1)) fun _ => -1).1 := by
    rw [hbn, hg]
    rfl
  have hm : (createHashBounds specs).2 =
      (fillBounds 0 bounds (List.replicate g (-1)) fun _ => -1).2 := by
    rw [hbn, hg]
    rfl
  rw [length_replicate] at hl hc
  have hl' : (createHashBounds specs).1.indexes.length = g := by rw [hin, hl]
  -- a spec has its place among the sorted bounds
  have hp (i : Nat) (spec : HashBoundSpec) (hi : specs[i]? = some spec) :
      ∃ (j : Nat) (hj : j < bounds.length), bounds[j] = ⟨spec.modulus, spec.remainder, i⟩ := by
    obtain ⟨j, hj, h⟩ := getElem_of_mem ((hmm ⟨spec.modulus, spec.remainder, i⟩).mpr hi)
    exact ⟨j, hj, h⟩
  have ha (i : Nat) (hi : i < specs.length) : (createHashBounds specs).2 i ≠ -1 := by
    obtain ⟨j, hj, h⟩ := hp i specs[i] (getElem?_eq_getElem hi)
    have hvl := hps j hj
    rw [h] at hvl
    rw [hm, hvl]
    omega
  refine ⟨by omega, ?_, ?_, rfl, rfl, ?_, ?_⟩
  · intro rowHash i spec hi hac
    obtain ⟨j, hj, h⟩ := hp i spec hi
    have hvl := hps j hj
    have hcv : bounds[j].Covers (rowHash % g) := by
      have hd := hdv _ (getElem_mem hj)
      rw [h] at hd ⊢
      unfold PartitionHashBound.Covers
      rw [mod_mod_of_dvd _ hd]
      exact hac
    unfold PartitionBoundInfo.index
    rw [hl', hin, hm, (hc _ (mod_lt _ hgp)).1 j hj hcv, ← hvl, h]
  · intro rowHash hnn
    unfold PartitionBoundInfo.index
    rw [hl', hin, (hc _ (mod_lt _ hgp)).2]
    · simp [getD_eq_getElem?_getD, mod_lt _ hgp]
    intro b hb hcv
    unfold PartitionHashBound.Covers at hcv
    rw [mod_mod_of_dvd _ (hdv b hb)] at hcv
    exact hnn _ (mem_of_getElem? ((hmm b).mp hb)) hcv
  · intro i hi
    rw [hm]
    exact hn.lt (hm ▸ ha i hi)
  intro i hi j _ heq
  rw [hm] at heq
  exact hn.inj i j heq (hm ▸ ha i hi)

end AthenaPG
