import Mathlib.Algebra.BigOperators.Group.Finset.Basic
import Mathlib.Data.Rat.Defs
import Mathlib.Tactic.Linarith

/-!
Discrete knapsack (`src/backend/lib/knapsack.c`).

The values are exact and there is enough memory.  The arrays `values` and `sets` are one function of
the weight, and a `Bitmapset` is a finite set.

* `placeItem`, `discreteKnapsack`: the pass over the weights, and `DiscreteKnapsack`;
* `placeItem_apply`: a pass reads, at every weight, what the last pass left;
* `knapsackArrays_optimal`: what the arrays hold after some items;
* **`discreteKnapsack_optimal`**: no items of the allowed weight are worth more.
-/

namespace AthenaPG.Knapsack

open Finset

/-- The loop over `j`, from `iw + n - 1` down to `iw`.  `sets[j]` is emptied before the other set is
copied to it. -/
def placeItem (i iw : Nat) (iv : ℚ) : Nat → (Nat → ℚ × Finset Nat) → Nat → ℚ × Finset Nat
  | 0, arrays => arrays
  | n + 1, arrays =>
    let j := iw + n
    let ow := j - iw
    placeItem i iw iv n <|
      if (arrays j).1 ≤ (arrays ow).1 + iv then
        let set := if j ≠ ow then ((arrays j).2 \ (arrays j).2) ∪ (arrays ow).2 else (arrays j).2
        Function.update arrays j ((arrays ow).1 + iv, insert i set)
      else arrays

/-- The loop over the items, which starts with an unused bit in each set. -/
def knapsackArrays (maxWeight numItems : Nat) (itemWeights : Nat → Nat) (itemValues : Nat → ℚ)
    (k : Nat) : Nat → ℚ × Finset Nat :=
  (List.range k).foldl
    (fun arrays i =>
      placeItem i (itemWeights i) (itemValues i) (maxWeight + 1 - itemWeights i) arrays)
    fun _ => (0, {numItems})

def discreteKnapsack (maxWeight numItems : Nat) (itemWeights : Nat → Nat)
    (itemValues : Option (Nat → ℚ)) : Finset Nat :=
  (knapsackArrays maxWeight numItems itemWeights (itemValues.getD 1) numItems maxWeight).2.erase
    numItems

theorem placeItem_apply (i iw : Nat) (iv : ℚ) (n : Nat) (arrays : Nat → ℚ × Finset Nat)
    (w : Nat) : placeItem i iw iv n arrays w =
      if iw ≤ w ∧ w < iw + n ∧ (arrays w).1 ≤ (arrays (w - iw)).1 + iv then
        ((arrays (w - iw)).1 + iv, insert i (arrays (w - iw)).2)
      else arrays w := by
  induction n generalizing arrays with
  | zero => rw [placeItem, if_neg (by omega)]
  | succ n ih =>
    have hset : (if iw + n ≠ iw + n - iw then
        ((arrays (iw + n)).2 \ (arrays (iw + n)).2) ∪ (arrays (iw + n - iw)).2
        else (arrays (iw + n)).2) = (arrays (iw + n - iw)).2 := by
      split
      · rw [sdiff_self, bot_eq_empty, empty_union]
      next heq => rw [← not_not.mp heq]
    rw [placeItem]
    simp only [hset]
    split
    · rw [ih]
      by_cases hw : w = iw + n
      · simp_all
      · -- the entries below `j` are still those of the last pass
        by_cases hlt : w < iw + n
        · have how : w - iw ≠ iw + n := by omega
          simp [hw, how, hlt, show w < iw + (n + 1) by omega]
        · rw [if_neg (by omega), if_neg (by omega), Function.update_of_ne hw]
    · rw [ih]
      by_cases hw : w = iw + n
      · simp_all
      · simp only [show w < iw + n ↔ w < iw + (n + 1) by omega]

section

variable {weight : Nat → Nat} {value : Nat → ℚ} {k w : Nat} {items : Finset Nat}

/-- Some of the first `k` items that together weigh no more than `w`, are worth as much as items of
that weight can be, and include all that weigh nothing. -/
structure Optimal (weight : Nat → Nat) (value : Nat → ℚ) (k w : Nat) (items : Finset Nat) :
    Prop where
  subset : items ⊆ range k
  fits : ∑ i ∈ items, weight i ≤ w
  most : ∀ other ⊆ range k, ∑ i ∈ other, weight i ≤ w →
    ∑ i ∈ other, value i ≤ ∑ i ∈ items, value i
  free : ∀ i < k, weight i = 0 → i ∈ items

theorem most_succ {best : ℚ}
    (hwithout : ∀ other ⊆ range k, ∑ i ∈ other, weight i ≤ w → ∑ i ∈ other, value i ≤ best)
    (hwith : ∀ other ⊆ range k, weight k + ∑ i ∈ other, weight i ≤ w →
      value k + ∑ i ∈ other, value i ≤ best) :
    ∀ other ⊆ range (k + 1), ∑ i ∈ other, weight i ≤ w → ∑ i ∈ other, value i ≤ best := by
  intro other hsub hle
  rw [range_add_one, subset_insert_iff] at hsub
  by_cases hk : k ∈ other
  · rw [← add_sum_erase other _ hk] at hle ⊢
    exact hwith _ hsub hle
  · rw [erase_eq_of_notMem hk] at hsub
    exact hwithout other hsub hle

theorem Optimal.skip (h : Optimal weight value k w items) (hfree : weight k ≠ 0)
    (hwith : ∀ other ⊆ range k, weight k + ∑ i ∈ other, weight i ≤ w →
      value k + ∑ i ∈ other, value i ≤ ∑ i ∈ items, value i) :
    Optimal weight value (k + 1) w items := by
  refine ⟨h.subset.trans (range_subset_range.mpr (by omega)), h.fits, most_succ h.most hwith,
    fun i hi hzero => h.free i ?_ hzero⟩
  have hne : i ≠ k := fun heq => hfree (heq ▸ hzero)
  omega

theorem Optimal.notMem (h : Optimal weight value k w items) : k ∉ items := fun hmem => by
  simpa using h.subset hmem

theorem Optimal.take {before : Finset Nat} (h : Optimal weight value k w items)
    (hbefore : Optimal weight value k (w - weight k) before) (hw : weight k ≤ w)
    (hle : ∑ i ∈ items, value i ≤ ∑ i ∈ before, value i + value k) :
    Optimal weight value (k + 1) w (insert k before) := by
  have hfits := hbefore.fits
  refine ⟨?_, ?_, ?_, ?_⟩
  · rw [range_add_one]
    exact insert_subset_insert k hbefore.subset
  · rw [sum_insert hbefore.notMem]
    omega
  · rw [sum_insert hbefore.notMem, add_comm (value k)]
    refine most_succ (fun other hsub hother => (h.most other hsub hother).trans hle) ?_
    intro other hsub hother
    have hmost := hbefore.most other hsub (by omega)
    linarith
  · intro i hi hzero
    rcases Nat.lt_succ_iff_lt_or_eq.mp hi with hi | rfl
    · exact mem_insert_of_mem (hbefore.free i hi hzero)
    · exact mem_insert_self i before

variable {maxWeight numItems : Nat}

/-- **The passes**: the arrays are right for every weight after each item. -/
theorem knapsackArrays_optimal (hvalue : ∀ i < numItems, 0 ≤ value i) (hk : k ≤ numItems)
    (hw : w ≤ maxWeight) :
    ∃ items, knapsackArrays maxWeight numItems weight value k w =
        (∑ i ∈ items, value i, insert numItems items) ∧ Optimal weight value k w items := by
  induction k generalizing w with
  | zero =>
    refine ⟨∅, rfl, subset_rfl, Nat.zero_le w, fun other hsub _ => ?_, by simp⟩
    rw [range_zero, subset_empty] at hsub
    exact hsub ▸ le_refl _
  | succ k ih =>
    obtain ⟨items, harrays, hitems⟩ := ih (by omega) hw
    obtain ⟨before, hbarrays, hbefore⟩ := ih (w := w - weight k) (by omega) (by omega)
    have hpass : knapsackArrays maxWeight numItems weight value (k + 1) =
        placeItem k (weight k) (value k) (maxWeight + 1 - weight k)
          (knapsackArrays maxWeight numItems weight value k) := by
      rw [knapsackArrays, List.range_succ, List.foldl_append]
      rfl
    rw [hpass, placeItem_apply, harrays, hbarrays]
    split
    next hcond =>
      refine ⟨insert k before, ?_, hitems.take hbefore hcond.1 hcond.2.2⟩
      rw [sum_insert hbefore.notMem, add_comm (value k), insert_comm]
    next hcond =>
      refine ⟨items, rfl, hitems.skip ?_ ?_⟩
      · -- an item of weight 0 is always taken
        intro hzero
        have hpos := hvalue k (by omega)
        rw [hzero, Nat.sub_zero, harrays] at hbarrays
        refine hcond ⟨by omega, by omega, ?_⟩
        dsimp only
        rw [(Prod.mk.inj hbarrays).1]
        linarith
      · intro other hsub hother
        have hmost := hbefore.most other hsub (by omega)
        by_contra hlt
        refine hcond ⟨by omega, by omega, ?_⟩
        dsimp only
        linarith

end

/-- **The knapsack is optimal** and has every item of weight 0. -/
theorem discreteKnapsack_optimal (maxWeight numItems : Nat) (itemWeights : Nat → Nat)
    (itemValues : Option (Nat → ℚ)) (hvalue : ∀ i < numItems, 0 ≤ itemValues.getD 1 i) :
    Optimal itemWeights (itemValues.getD 1) numItems maxWeight
      (discreteKnapsack maxWeight numItems itemWeights itemValues) := by
  obtain ⟨items, harrays, hitems⟩ : ∃ items, _ ∧ Optimal itemWeights _ _ _ items :=
    knapsackArrays_optimal hvalue (le_refl _) (le_refl maxWeight)
  rw [discreteKnapsack, harrays, erase_insert hitems.notMem]
  exact hitems

/-- Weights 0, 3 and 2, of which 4 fit, and the values 0, 5 and 4. -/
theorem discreteKnapsack_optimal_three :
    discreteKnapsack 4 3 (fun i => [0, 3, 2].getD i 0) (some fun i => [0, 5, 4].getD i 0) = {0, 1} ∧
      Optimal (fun i => [0, 3, 2].getD i 0) (fun i => [0, 5, 4].getD i 0) 3 4 {0, 1} := by
  have hrun : discreteKnapsack 4 3 (fun i => [0, 3, 2].getD i 0)
      (some fun i => [0, 5, 4].getD i 0) = {0, 1} := by decide +kernel
  have hoptimal := discreteKnapsack_optimal 4 3 (fun i => [0, 3, 2].getD i 0)
    (some fun i => [0, 5, 4].getD i 0) (by decide +kernel)
  rw [hrun] at hoptimal
  exact ⟨hrun, hoptimal⟩

end AthenaPG.Knapsack
