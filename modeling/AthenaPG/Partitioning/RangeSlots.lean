import AthenaPG.Partitioning.PartBounds
import AthenaPG.Library.Numbering

/-!
Range partitions and the slots between their bounds.

* `mem_rangeBounds_of_upper`: the upper bound of every partition is stored.
* `createRangeBounds_spec`: the slot of a key holds the partition whose range the
  key lies in, and no partition if there is none.
-/

namespace AthenaPG
open List Function

open Bisection Numbering PartitionBoundSpec PartitionBoundInfo
open Or (inl inr)

variable {D : Type} {key : PartitionKey D} {ss : List (PartitionBoundSpec D key.partnatts)}

/-- The keys without nulls that a partition accepts, the lower bound included. -/
def RangeAccepts (key : PartitionKey D) (values : List D) :
    PartitionBoundSpec D key.partnatts → Prop
  | .default => False
  | .range lower upper =>
    key.boundCmp lower.toList (tupleBound values) ≤ 0 ∧
      0 < key.boundCmp upper.toList (tupleBound values)

/-! ## Valid partitions -/

variable {lo upper : List.Vector (PartitionRangeDatum D) key.partnatts} {i n : Nat}
  {b : PartitionRangeBound D key.partnatts}

theorem lower_lt_upper (hv : ValidPartitions key ss) (hs : .range lo upper ∈ ss) :
    key.boundCmp lo.toList upper.toList < 0 := by
  have h1 := hv.nonempty _ hs
  have h2 := (partitionRboundCmp_orders key true false lo.toList_length upper.toList_length).2
  rw [EmptyRange, h2] at h1
  simp only [and_self, and_true, not_or] at h1
  omega

theorem apart_of_ne (hv : ValidPartitions key ss) {j : Nat} (hij : i ≠ j)
    {l1 u1 l2 u2 : List.Vector (PartitionRangeDatum D) key.partnatts}
    (hi : ss[i]? = some (.range l1 u1)) (hj : ss[j]? = some (.range l2 u2)) :
    key.boundCmp u1.toList l2.toList ≤ 0 ∨ key.boundCmp u2.toList l1.toList ≤ 0 := by
  have hif (u l : List.Vector (PartitionRangeDatum D) key.partnatts) :
      partitionRboundCmp key.partsupfunc u.toList false l.toList true < 0 →
        key.boundCmp u.toList l.toList ≤ 0 := by
    intro h
    have h1 := (partitionRboundCmp_orders key false true u.toList_length l.toList_length).1.mp h
    omega
  obtain ⟨hil, hi'⟩ := List.getElem?_eq_some_iff.mp hi
  obtain ⟨hjl, hj'⟩ := List.getElem?_eq_some_iff.mp hj
  obtain hlt | hlt := Nat.lt_or_gt_of_ne hij
  · have h := pairwise_iff_getElem.mp hv.disjoint i j hil hjl hlt
    rw [hi', hj'] at h
    exact h.imp (hif _ _) (hif _ _)
  have h := pairwise_iff_getElem.mp hv.disjoint j i hjl hil hlt
  rw [hi', hj'] at h
  exact (h.imp (hif _ _) (hif _ _)).symm

theorem mem_allBoundsFrom (ss : List (PartitionBoundSpec D n)) (i : Nat)
    (b : PartitionRangeBound D n) :
    b ∈ allBoundsFrom i ss ↔ ∃ j lo upper, ss[j]? = some (.range lo upper) ∧
      b.index = i + j ∧ b.datums = if b.lower then lo else upper := by
  induction ss generalizing i with
  | nil => simp [allBoundsFrom]
  | cons spec ss ih =>
    cases spec with
    | default =>
      rw [allBoundsFrom, ih (i + 1)]
      refine Iff.trans ?_ Nat.or_exists_add_one
      simp [Nat.add_assoc, Nat.add_comm 1]
    | range low up =>
      rw [allBoundsFrom, mem_cons, mem_cons, ih (i + 1)]
      refine Iff.trans ?_ Nat.or_exists_add_one
      rw [← or_assoc]
      obtain ⟨index, datums, isLower⟩ := b
      refine or_congr ?_ (by simp [Nat.add_assoc, Nat.add_comm 1])
      cases isLower with
      | true => simp
      | false => simp [and_comm, @eq_comm _ up]

theorem mem_sortedBounds (b : PartitionRangeBound D key.partnatts) :
    b ∈ sortedBounds key ss ↔ ∃ lo upper, ss[b.index]? = some (.range lo upper) ∧
      b.datums = if b.lower then lo else upper := by
  unfold sortedBounds
  rw [mem_insertionSort, mem_allBoundsFrom]
  constructor
  · rintro ⟨j, lo, upper, hj, hi, hd⟩
    obtain rfl : b.index = j := by omega
    exact ⟨lo, upper, hj, hd⟩
  · rintro ⟨lo, upper, hj, hd⟩
    exact ⟨b.index, lo, upper, hj, by omega, hd⟩

/-! ## What is stored of equal bounds -/

theorem exists_saved (bounds : List (PartitionRangeBound D key.partnatts)) :
    ∀ prev : PartitionRangeBound D key.partnatts,
      (prev :: bounds).Pairwise (fun b1 b2 => qsortPartitionRboundCmp key b1 b2 ≤ 0) →
      ∀ b ∈ bounds, key.boundCmp prev.datums.toList b.datums.toList = 0 ∨
        ∃ saved ∈ saveDistinct key (some prev) bounds,
          key.boundCmp saved.datums.toList b.datums.toList = 0 ∧
          qsortPartitionRboundCmp key saved b ≤ 0 := by
  have hcmp := key.isComparator_boundCmp
  induction bounds with
  | nil => simp
  | cons cur rest ih =>
    intro prev hsr b hb
    obtain ⟨-, hr⟩ := pairwise_cons.mp hsr
    obtain ⟨hcr, -⟩ := pairwise_cons.mp hr
    have hds := distinctFrom_iff key.partsupfunc cur.datums.toList prev.datums.toList
      cur.datums.toList_length prev.datums.toList_length
    have hsl := (qsortPartitionRboundCmp_nonpos_iff key cur cur).mpr
        (inr ⟨hcmp.refl _, fun h => h⟩)
    -- `b` is `cur`, or equal to it, or something saved later stands for it
    have hc : (key.boundCmp cur.datums.toList b.datums.toList = 0 ∧
        qsortPartitionRboundCmp key cur b ≤ 0) ∨
        ∃ saved ∈ saveDistinct key (some cur) rest,
          key.boundCmp saved.datums.toList b.datums.toList = 0 ∧
          qsortPartitionRboundCmp key saved b ≤ 0 := by
      obtain rfl | hb := mem_cons.mp hb
      · exact inl ⟨hcmp.refl _, hsl⟩
      · exact (ih cur hr b hb).imp (fun h => ⟨h, hcr b hb⟩) id
    simp only [saveDistinct]
    split
    · obtain ⟨heq, hle⟩ | ⟨saved, hs, h⟩ := hc
      · exact inr ⟨cur, mem_cons_self, heq, hle⟩
      · exact inr ⟨saved, mem_cons_of_mem _ hs, h⟩
    rename_i hd
    have heq : key.boundCmp prev.datums.toList cur.datums.toList = 0 := by
      refine hcmp.eq_symm ?_
      by_contra hne
      exact hd (hds.mpr hne)
    obtain ⟨h, -⟩ | h := hc
    · exact inl (hcmp.eq_trans heq h)
    · exact inr h

theorem exists_rangeBound (hb : b ∈ sortedBounds key ss) :
    ∃ saved ∈ rangeBounds key ss, key.boundCmp saved.datums.toList b.datums.toList = 0 ∧
      qsortPartitionRboundCmp key saved b ≤ 0 := by
  have hc := key.isComparator_boundCmp
  have hsr := sortedBounds_pairwise key ss
  rw [rangeBounds_eq]
  cases hs : sortedBounds key ss with
  | nil => simp [hs] at hb
  | cons first rest =>
    rw [hs] at hb hsr
    have hsa : saveDistinct key none (first :: rest) =
        first :: saveDistinct key (some first) rest := rfl
    rw [hsa]
    obtain ⟨hf, -⟩ := pairwise_cons.mp hsr
    obtain rfl | hb := mem_cons.mp hb
    · exact ⟨b, mem_cons_self, hc.refl _,
        (qsortPartitionRboundCmp_nonpos_iff key b b).mpr (inr ⟨hc.refl _, fun h => h⟩)⟩
    obtain h | ⟨saved, hsv, h⟩ := exists_saved rest first hsr b hb
    · exact ⟨first, mem_cons_self, h, hf b hb⟩
    · exact ⟨saved, mem_cons_of_mem _ hsv, h⟩

theorem mem_sortedBounds_of_rangeBounds (hb : b ∈ rangeBounds key ss) : b ∈ sortedBounds key ss :=
  (saveDistinct_sublist key none _).subset hb

/-- **The upper bound of every partition is stored.** -/
theorem mem_rangeBounds_of_upper (hv : ValidPartitions key ss)
    (hi : ss[i]? = some (.range lo upper)) : ⟨i, upper, false⟩ ∈ rangeBounds key ss := by
  have hc := key.isComparator_boundCmp
  have hb : (⟨i, upper, false⟩ : PartitionRangeBound D key.partnatts) ∈ sortedBounds key ss :=
    (mem_sortedBounds _).mpr ⟨lo, upper, hi, rfl⟩
  obtain ⟨saved, hs, heq, hle⟩ := exists_rangeBound hb
  have hle' := (qsortPartitionRboundCmp_nonpos_iff key saved _).mp hle
  have hl : saved.lower = false := by
    obtain h | ⟨-, h⟩ := hle'
    · change key.boundCmp saved.datums.toList upper.toList < 0 at h
      change key.boundCmp saved.datums.toList upper.toList = 0 at heq
      omega
    by_contra hne
    exact absurd (h (by simpa using hne)) (by simp)
  obtain ⟨lower', upper', hj, hd⟩ := (mem_sortedBounds saved).mp
    (mem_sortedBounds_of_rangeBounds hs)
  obtain ⟨j, datums, isLower⟩ := saved
  obtain rfl : isLower = false := hl
  obtain rfl : datums = upper' := hd
  by_cases hij : j = i
  · subst hij
    rw [hi] at hj
    obtain ⟨-, rfl⟩ := range.inj (Option.some.inj hj)
    exact hs
  -- two partitions that end together overlap
  have hlt1 := lower_lt_upper hv (mem_of_getElem? hi)
  have hlt2 := lower_lt_upper hv (mem_of_getElem? hj)
  change key.boundCmp datums.toList upper.toList = 0 at heq
  obtain h | h := apart_of_ne hv hij hj hi
  · have h1 := hc.lt_of_le_of_lt h hlt1
    omega
  have h1 := hc.lt_of_le_of_lt h hlt2
  have h2 := hc.eq_symm heq
  omega

/-! ## Canonical indexes -/

/-- What the last loop of `create_range_bounds` does. -/
structure AssignedBounds {n : Nat} (nparts : Nat) (mapping : Nat → Int)
    (bounds : List (PartitionRangeBound D n)) (indexes : List Int)
    (mapping' : Nat → Int) (next' : Int) : Prop where
  numbers : Numbers nparts mapping' next'
  indexes_eq : indexes = bounds.map fun b => if b.lower then -1 else mapping' b.index
  keeps : ∀ i, mapping i ≠ -1 → mapping' i = mapping i
  ne_iff : ∀ i, mapping' i ≠ -1 ↔ mapping i ≠ -1 ∨ ∃ b ∈ bounds, b.lower = false ∧ b.index = i

theorem assignIndexes_spec {nparts : Nat} (bounds : List (PartitionRangeBound D n)) :
    ∀ (mp : Nat → Int) (next : Int), Numbers nparts mp next →
      (∀ b ∈ bounds, b.index < nparts) →
      AssignedBounds nparts mp bounds (assignIndexes mp next bounds).1
        (assignIndexes mp next bounds).2.1 (assignIndexes mp next bounds).2.2 := by
  induction bounds with
  | nil =>
    intro mp next h _
    exact ⟨h, rfl, fun _ _ => rfl, by simp [assignIndexes]⟩
  | cons bound rest ih =>
    intro mp next h hlt
    have hr := fun b hb => hlt b (mem_cons_of_mem bound hb)
    have hn := h.next_nonneg
    cases hl : bound.lower with
    | true =>
      have hih := ih mp next h hr
      simp only [assignIndexes, hl, if_true]
      refine ⟨hih.numbers, ?_, hih.keeps, fun i => ?_⟩
      · rw [map_cons, hl, if_pos rfl, ← hih.indexes_eq]
      rw [hih.ne_iff i]
      simp [hl]
    | false =>
      -- in either case the bound has a number when the rest is handled
      have hs (mapping1 : Nat → Int) (next1 : Int) (h1 : Numbers nparts mapping1 next1)
          (hk : ∀ i, mp i ≠ -1 → mapping1 i = mp i)
          (hne : ∀ i, mapping1 i ≠ -1 ↔ mp i ≠ -1 ∨ bound.index = i) :
          AssignedBounds nparts mp (bound :: rest)
            (mapping1 bound.index :: (assignIndexes mapping1 next1 rest).1)
            (assignIndexes mapping1 next1 rest).2.1 (assignIndexes mapping1 next1 rest).2.2 := by
        have hih := ih mapping1 next1 h1 hr
        refine ⟨hih.numbers, ?_, fun i hi => ?_, fun i => ?_⟩
        · rw [map_cons, hl, if_neg (by simp), ← hih.indexes_eq, hih.keeps _ ((hne _).mpr (inr rfl))]
        · rw [hih.keeps i ((hne i).mpr (inl hi)), hk i hi]
        rw [hih.ne_iff i, hne i, or_assoc]
        simp [hl]
      simp only [assignIndexes, hl, Bool.false_eq_true, if_false]
      by_cases hf : mp bound.index = -1
      · simp only [hf, if_true]
        refine hs _ _ (h.assign (hlt bound mem_cons_self) hf) ?_ ?_
        · intro i hi
          refine update_of_ne ?_ _ _
          rintro rfl
          exact hi hf
        intro i
        by_cases hi : i = bound.index
        · subst hi
          simp only [update_self, or_true, iff_true]
          omega
        have hi' : ¬ bound.index = i := fun h => hi h.symm
        simp [update_of_ne hi, hi']
      simp only [hf, if_false]
      refine hs mp next h (fun _ _ => rfl) fun i => ?_
      constructor
      · exact inl
      · rintro (h | rfl)
        · exact h
        · exact hf

/-! ## Slots -/

structure RangeBoundsOf (key : PartitionKey D) (specs : List (PartitionBoundSpec D key.partnatts))
    (boundinfo : PartitionBoundInfo D) (mapping : Nat → Int) : Prop where
  slot : ∀ (values : List.Vector D key.partnatts) (i : Nat) (spec : _), specs[i]? = some spec →
    RangeAccepts key values.toList spec →
    boundinfo.index (boundsUpto key boundinfo values.toList) = mapping i
  gap : ∀ values : List.Vector D key.partnatts,
    (∀ spec ∈ specs, ¬ RangeAccepts key values.toList spec) →
    boundinfo.index (boundsUpto key boundinfo values.toList) = -1
  default : SpecialIndex (fun i => specs[i]? = some .default) mapping boundinfo.defaultIndex
  numbered : ∀ i < specs.length, 0 ≤ mapping i ∧ mapping i < specs.length
  inj : ∀ i < specs.length, ∀ j < specs.length, mapping i = mapping j → i = j

section

variable (hv : ValidPartitions key ss) (values : List.Vector D key.partnatts)
include hv values

theorem rangeBound_nonpos_iff {p : Nat} (hp : p < (rangeBounds key ss).length) :
    key.boundCmp (rangeBounds key ss)[p].datums.toList (tupleBound values.toList) ≤ 0 ↔
      p < boundsUpto key (createRangeBounds key ss).1 values.toList := by
  have hb := createRangeBounds_valid hv
  have hd := createRangeBounds_datums key ss
  have hne : values.toList ≠ [] := by
    intro h
    have hl := values.toList_length
    have hps := key.partnatts_pos
    rw [h] at hl
    simp at hl
    omega
  have hlt : p < (createRangeBounds key ss).1.ndatums := by
    rw [ndatums, hd, length_map]
    exact hp
  have hpr := (datumProfile hb hne values.toList_length.le).nonpos p hlt
  have hdt : (createRangeBounds key ss).1.datum p = (rangeBounds key ss)[p].datums.toList := by
    unfold datum
    rw [hd, getD_eq_getElem _ _ (by simpa using hp), getElem_map]
  rw [partitionRboundDatumCmp_eq key hne values.toList_length.le (hb.datum_length hlt),
    values.toList_length, key.leadingCmp_partnatts, hdt] at hpr
  exact hpr

theorem upper_at_slot (hi : ss[i]? = some (.range lo upper))
    (ha : RangeAccepts key values.toList (.range lo upper)) :
    (rangeBounds key ss)[boundsUpto key (createRangeBounds key ss).1 values.toList]? =
      some ⟨i, upper, false⟩ := by
  have hc := key.isComparator_boundCmp
  obtain ⟨hlw, hup⟩ := ha
  obtain ⟨p, hp, hpq⟩ := getElem_of_mem (mem_rangeBounds_of_upper hv hi)
  have hps := rangeBound_nonpos_iff hv values hp
  rw [hpq] at hps
  change key.boundCmp upper.toList _ ≤ 0 ↔ _ at hps
  suffices hs : boundsUpto key (createRangeBounds key ss).1 values.toList = p by
    rw [hs, getElem?_eq_getElem hp, hpq]
  by_contra hne
  have hlt : boundsUpto key (createRangeBounds key ss).1 values.toList < p := by omega
  obtain ⟨b, hb⟩ : ∃ b, b = (rangeBounds key ss)[
      boundsUpto key (createRangeBounds key ss).1 values.toList] := ⟨_, rfl⟩
  have hk := rangeBound_nonpos_iff hv values (hlt.trans hp)
  have hbp := pairwise_iff_getElem.mp (rangeBounds_sorted key ss) _ p (hlt.trans hp) hp hlt
  have hbm := hb ▸ getElem_mem _
  rw [← hb] at hk hbp
  rw [hpq] at hbp
  change key.boundCmp b.datums.toList upper.toList < 0 at hbp
  have hgt : ¬ key.boundCmp b.datums.toList (tupleBound values.toList) ≤ 0 := by
    rw [hk]
    exact lt_irrefl _
  obtain ⟨lower', upper', hj, hd⟩ := (mem_sortedBounds b).mp (mem_sortedBounds_of_rangeBounds hbm)
  -- `b` lies between the key and `upper`, so inside the partition
  by_cases hij : b.index = i
  · rw [hij, hi] at hj
    obtain ⟨rfl, rfl⟩ := range.inj (Option.some.inj hj)
    cases hl : b.lower with
    | true =>
      rw [hl, if_pos rfl] at hd
      rw [hd] at hgt
      exact hgt hlw
    | false =>
      rw [hl, if_neg (by simp)] at hd
      rw [hd, hc.refl] at hbp
      omega
  have hlt' := lower_lt_upper hv (mem_of_getElem? hj)
  have hle : key.boundCmp lower'.toList b.datums.toList ≤ 0 ∧
      key.boundCmp b.datums.toList upper'.toList ≤ 0 := by
    rw [hd]
    cases b.lower with
    | true => exact ⟨(hc.refl _).le, hlt'.le⟩
    | false => exact ⟨hlt'.le, (hc.refl _).le⟩
  obtain h | h := apart_of_ne hv hij hj hi
  · exact hgt (hc.trans _ _ _ (hc.trans _ _ _ hle.2 h) hlw)
  have h1 := hc.trans _ _ _ h hle.1
  have h2 := hc.swap upper.toList b.datums.toList
  omega

theorem accepts_of_upper_at_slot
    (hb : (rangeBounds key ss)[
      boundsUpto key (createRangeBounds key ss).1 values.toList]? = some b)
    (hl : b.lower = false) : ∃ spec ∈ ss, RangeAccepts key values.toList spec := by
  have hc := key.isComparator_boundCmp
  obtain ⟨hlt, hbq⟩ := List.getElem?_eq_some_iff.mp hb
  obtain ⟨lo, upper, hj, hd⟩ := (mem_sortedBounds b).mp
    (mem_sortedBounds_of_rangeBounds (mem_of_getElem? hb))
  rw [hl, if_neg (by simp)] at hd
  have hs := mem_of_getElem? hj
  refine ⟨.range lo upper, hs, ?_, ?_⟩
  · -- what is stored for the lower bound comes before
    have hlw : (⟨b.index, lo, true⟩ : PartitionRangeBound D key.partnatts) ∈
        sortedBounds key ss := (mem_sortedBounds _).mpr ⟨lo, upper, hj, rfl⟩
    obtain ⟨saved, hsv, heq, -⟩ := exists_rangeBound hlw
    obtain ⟨q, hq, rfl⟩ := getElem_of_mem hsv
    have hqs : q < boundsUpto key (createRangeBounds key ss).1 values.toList := by
      have hlu := hc.lt_of_le_of_lt heq.le (lower_lt_upper hv hs)
      rw [← hd] at hlu
      by_contra hge
      obtain h | h := Nat.eq_or_lt_of_le (not_lt.mp hge)
      · subst h
        rw [hbq, hc.refl] at hlu
        omega
      have hp := pairwise_iff_getElem.mp (rangeBounds_sorted key ss) _ q hlt hq h
      rw [hbq] at hp
      have h2 := hc.swap b.datums.toList (rangeBounds key ss)[q].datums.toList
      omega
    have hle := (rangeBound_nonpos_iff hv values hq).mpr hqs
    exact hc.trans _ _ _ (hc.eq_symm heq).le hle
  have h := rangeBound_nonpos_iff hv values hlt
  rw [hbq, hd] at h
  omega

end

theorem defaultSpecFrom_eq (ss : List (PartitionBoundSpec D n)) :
    ∀ i : Nat, (∀ j k : Nat, ss[j]? = some default →
      ss[k]? = some default → j = k) →
      ∀ m : Nat, defaultSpecFrom i ss = some m ↔ ∃ j : Nat, ss[j]? = some default ∧ m = i + j := by
  induction ss with
  | nil => simp [defaultSpecFrom]
  | cons spec ss ih =>
    intro i ho m
    have ih' := ih (i + 1) (fun j k hj hk => by
      have h := ho (j + 1) (k + 1) (by simpa using hj) (by simpa using hk)
      omega) m
    cases spec with
    | range lo upper =>
      rw [defaultSpecFrom, ih']
      refine Iff.trans ?_ Nat.or_exists_add_one
      simp [Nat.add_assoc, Nat.add_comm 1]
    | default =>
      have hn : defaultSpecFrom (i + 1) ss = none := by
        cases hd : defaultSpecFrom (i + 1) ss with
        | none => rfl
        | some k =>
          obtain ⟨j, hj, -⟩ := (ih (i + 1) (fun j k hj hk => by
            have h := ho (j + 1) (k + 1) (by simpa using hj) (by simpa using hk)
            omega) k).mp hd
          have h := ho 0 (j + 1) rfl (by simpa using hj)
          omega
      rw [defaultSpecFrom, hn, Option.none_or, Option.some.injEq]
      constructor
      · rintro rfl
        exact ⟨0, rfl, rfl⟩
      · rintro ⟨j, hj, hm⟩
        have h := ho 0 j rfl hj
        omega

/-- **The bounds of a table.** -/
theorem createRangeBounds_spec (hv : ValidPartitions key ss) :
    RangeBoundsOf key ss (createRangeBounds key ss).1 (createRangeBounds key ss).2 := by
  have ho (j k : Nat) (hj : ss[j]? = some default)
      (hk : ss[k]? = some default) :
      j = k := place_unique hv.disjoint hj hk id id
  have hdf := defaultSpecFrom_eq ss 0 ho
  simp only [Nat.zero_add, exists_eq_right'] at hdf
  have hbn (b : PartitionRangeBound D key.partnatts) (hb : b ∈ rangeBounds key ss) :
      b.index < ss.length := by
    obtain ⟨lo, upper, hj, -⟩ := (mem_sortedBounds b).mp (mem_sortedBounds_of_rangeBounds hb)
    exact (List.getElem?_eq_some_iff.mp hj).1
  obtain ⟨indexes, mp, next, hst⟩ : ∃ indexes mp next,
      assignIndexes (fun _ => -1) 0 (rangeBounds key ss) = (indexes, mp, next) :=
    ⟨_, _, _, rfl⟩
  have ha : AssignedBounds ss.length (fun _ => -1) (rangeBounds key ss) indexes
      mp next := by
    have h := assignIndexes_spec (rangeBounds key ss) _ 0 (numbers_start ss.length) hbn
    rwa [hst] at h
  have hne (i : Nat) : mp i ≠ -1 ↔ ∃ b ∈ rangeBounds key ss, b.lower = false ∧ b.index = i := by
    simpa using ha.ne_iff i
  have hr (i : Nat) {lo upper : List.Vector (PartitionRangeDatum D) key.partnatts}
      (hi : ss[i]? = some (.range lo upper)) : mp i ≠ -1 :=
    (hne i).mpr ⟨_, mem_rangeBounds_of_upper hv hi, rfl, rfl⟩
  -- the default partition, if any, gets the last number
  obtain ⟨mapping', next', hn, hc, hkp, hsp, hde⟩ : ∃ mapping' next',
      Numbers ss.length mapping' next' ∧
      (createRangeBounds key ss).2 = mapping' ∧
      (∀ i, mp i ≠ -1 → mapping' i = mp i) ∧
      SpecialIndex (fun i => ss[i]? = some default) mapping'
        (createRangeBounds key ss).1.defaultIndex ∧
      ∀ i, ss[i]? = some PartitionBoundSpec.default → mapping' i ≠ -1 := by
    unfold createRangeBounds
    simp only [hst]
    cases hd : defaultSpecFrom 0 ss with
    | none =>
      have hno (i : Nat) : ss[i]? ≠ some PartitionBoundSpec.default := by
        intro h
        have h' := (hdf i).mpr h
        simp [hd] at h'
      exact ⟨mp, next, ha.numbers, rfl, fun _ _ => rfl,
        ⟨fun i hi => absurd hi (hno i), fun _ => rfl⟩, fun i hi => absurd hi (hno i)⟩
    | some m =>
      have hm := (hdf m).mp hd
      have hf : mp m = -1 := by
        by_contra h
        obtain ⟨b, hb, -, hbm⟩ := (hne m).mp h
        obtain ⟨lo, upper, hj, -⟩ := (mem_sortedBounds b).mp
          (mem_sortedBounds_of_rangeBounds hb)
        rw [hbm, hm] at hj
        simp at hj
      have hsm (i : Nat) (hi : ss[i]? = some PartitionBoundSpec.default) : i = m := ho i m hi hm
      have hnx := ha.numbers.next_nonneg
      refine ⟨update mp m next, next + 1,
        ha.numbers.assign (List.getElem?_eq_some_iff.mp hm).1 hf, rfl, ?_, ⟨?_, ?_⟩, ?_⟩
      · intro i hi
        refine update_of_ne ?_ _ _
        rintro rfl
        exact hi hf
      · intro i hi
        rw [hsm i hi, update_self]
      · intro hno
        exact absurd hm (hno m)
      intro i hi
      rw [hsm i hi, update_self]
      omega
  have hal (i : Nat) (hi : i < ss.length) : mapping' i ≠ -1 := by
    have hg := getElem?_eq_getElem hi
    cases hspe : ss[i] with
    | default => exact hde i (by rw [hg, hspe])
    | range lo upper =>
      have h := hr i (by rw [hg, hspe])
      rwa [hkp i h]
  have hin (p : Nat) : (createRangeBounds key ss).1.index p =
      match (rangeBounds key ss)[p]? with
      | some b => if b.lower then -1 else mapping' b.index
      | none => -1 := by
    have hind : (createRangeBounds key ss).1.indexes = indexes ++ [-1] := by
      unfold createRangeBounds
      simp only [hst]
    unfold index
    rw [hind, ha.indexes_eq, getD_eq_getElem?_getD]
    by_cases hp : p < (rangeBounds key ss).length
    · rw [getElem?_append_left (by simpa using hp), getElem?_map,
        getElem?_eq_getElem hp, Option.map_some, Option.getD_some]
      cases hl : (rangeBounds key ss)[p].lower with
      | true => simp [hl]
      | false =>
        have hke := hkp _ ((hne _).mpr ⟨_, getElem_mem hp, hl, rfl⟩)
        simp [hl, hke]
    rw [getElem?_append_right (by simpa using not_lt.mp hp), length_map,
      getElem?_eq_none (not_lt.mp hp)]
    cases p - (rangeBounds key ss).length <;> simp
  rw [hc]
  refine ⟨?_, ?_, hsp, fun i hi => hn.lt (hal i hi), fun i hi j _ heq => hn.inj i j heq (hal i hi)⟩
  · intro values i spec hi hac
    cases spec with
    | default => exact hac.elim
    | range lo upper =>
      rw [hin, upper_at_slot hv values hi hac]
      rfl
  intro values hno
  rw [hin]
  cases hb : (rangeBounds key ss)[
      boundsUpto key (createRangeBounds key ss).1 values.toList]? with
  | none => rfl
  | some b =>
    cases hl : b.lower with
    | true => simp [hl]
    | false =>
      obtain ⟨spec, hs, hac⟩ := accepts_of_upper_at_slot hv values hb hl
      exact absurd hac (hno spec hs)

end AthenaPG
