import Mathlib.Tactic

/-!
Numbering objects in the order in which they turn up.

A mapping sends the objects below `n` to numbers, `-1` for those not numbered
yet; `next` is the number to be given next.

* `Numbers.assign`: giving the next number keeps the invariant;
* `Numbers.lt`: a number is less than `n`;
* `place_unique`: places in a list of pairwise different members.
-/

namespace AthenaPG.Numbering
open Function Finset

/-- The numbers given so far are those below `next`, each to one object below `n`. -/
structure Numbers (n : Nat) (mapping : Nat → Int) (next : Int) : Prop where
  assigned : ∀ i, mapping i ≠ -1 → 0 ≤ mapping i ∧ mapping i < next ∧ i < n
  inj : ∀ i j, mapping i = mapping j → mapping i ≠ -1 → i = j
  count : next = ((Finset.range n).filter fun i => mapping i ≠ -1).card

variable {n : Nat} {mp : Nat → Int} {next : Int}

theorem numbers_start (n : Nat) : Numbers n (fun _ => -1) 0 where
  assigned i h := absurd rfl h
  inj i j _ h := absurd rfl h
  count := by simp

namespace Numbers

theorem next_nonneg (h : Numbers n mp next) : 0 ≤ next := by
  rw [h.count]
  positivity

theorem assign (h : Numbers n mp next) {i : Nat} (hi : i < n) (hf : mp i = -1) :
    Numbers n (Function.update mp i next) (next + 1) where
  assigned j hj := by
    have hn := h.next_nonneg
    by_cases hji : j = i
    · subst hji
      simp only [update_self]
      omega
    rw [update_of_ne hji] at hj ⊢
    have ho := h.assigned j hj
    omega
  inj j k heq hne := by
    by_cases hji : j = i
    · by_cases hki : k = i
      · rw [hji, hki]
      rw [hji, update_self, update_of_ne hki] at heq
      rw [hji, update_self] at hne
      have ho := h.assigned k (heq ▸ hne)
      omega
    by_cases hki : k = i
    · rw [hki, update_self, update_of_ne hji] at heq
      rw [update_of_ne hji] at hne
      have ho := h.assigned j hne
      omega
    rw [update_of_ne hji, update_of_ne hki] at heq
    rw [update_of_ne hji] at hne
    exact h.inj j k heq hne
  count := by
    have hn := h.next_nonneg
    have hs : ((range n).filter fun j => update mp i next j ≠ -1) =
        insert i ((range n).filter fun j => mp j ≠ -1) := by
      ext j
      by_cases hji : j = i
      · subst hji
        simp only [mem_filter, mem_range, update_self, mem_insert, true_or, iff_true]
        omega
      simp [hji]
    have hnt : i ∉ (range n).filter fun j => mp j ≠ -1 := by simp [hf]
    rw [hs, card_insert_of_notMem hnt, h.count]
    push_cast
    ring

theorem lt (h : Numbers n mp next) {i : Nat} (hi : mp i ≠ -1) : 0 ≤ mp i ∧ mp i < n := by
  have hle : ((range n).filter fun j => mp j ≠ -1).card ≤ n := by
    simpa using card_filter_le (range n) fun j => mp j ≠ -1
  have ho := h.assigned i hi
  have hc := h.count
  omega

end Numbers

/-- `index` is the number of the special object, or `-1` if there is none. -/
def SpecialIndex (special : Nat → Prop) (mapping : Nat → Int) (index : Int) : Prop :=
  (∀ i, special i → index = mapping i) ∧ ((∀ i, ¬ special i) → index = -1)

theorem SpecialIndex.congr {special special' : Nat → Prop} {map map' : Nat → Int}
    {index : Int} (h : SpecialIndex special map index) (hif : ∀ i, special' i ↔ special i)
    (hk : ∀ i, special i → map' i = map i) : SpecialIndex special' map' index := by
  refine ⟨fun i hi => ?_, fun hn => h.2 fun i hi => hn i ((hif i).mpr hi)⟩
  have hs := (hif i).mp hi
  rw [hk i hs]
  exact h.1 i hs

theorem SpecialIndex.unique {special : Nat → Prop} {mp : Nat → Int} {i1 i2 : Int}
    (h1 : SpecialIndex special mp i1) (h2 : SpecialIndex special mp i2) : i1 = i2 := by
  by_cases hs : ∃ i, special i
  · obtain ⟨i, hi⟩ := hs
    rw [h1.1 i hi, h2.1 i hi]
  rw [not_exists] at hs
  rw [h1.2 hs, h2.2 hs]

/-- Members that cannot stand at two places of a list stand at one. -/
theorem place_unique {α : Type} {R : α → α → Prop} {l : List α} (h : l.Pairwise R) {i j : Nat}
    {a b : α} (hi : l[i]? = some a) (hj : l[j]? = some b) (hab : ¬ R a b) (hba : ¬ R b a) :
    i = j := by
  obtain ⟨hil, rfl⟩ := List.getElem?_eq_some_iff.mp hi
  obtain ⟨hjl, rfl⟩ := List.getElem?_eq_some_iff.mp hj
  obtain hlt | heq | hlt := Nat.lt_trichotomy i j
  · exact absurd (List.pairwise_iff_getElem.mp h i j hil hjl hlt) hab
  · exact heq
  · exact absurd (List.pairwise_iff_getElem.mp h j i hjl hil hlt) hba

end AthenaPG.Numbering
