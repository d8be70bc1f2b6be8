import Mathlib.Tactic

/-!
Comparison functions that return an integer, and lexicographic comparison by
columns.

A column entry may be final: if two final entries compare equal, the columns
after them do not count.

* `IsComparator`: the sign of the result orders the elements totally;
* `isComparator_lexCmp`: lexicographic comparison is such a function if its
  columns are;
* `lexCmp_of_take`, `lexCmp_next`: comparison by leading columns only.
-/

namespace AthenaPG.Comparator

variable {α : Type}

/-- The sign of `cmp a b` tells whether `a` is less than, equal to or greater than
`b`, in a total order. -/
structure IsComparator (cmp : α → α → Int) : Prop where
  swap : ∀ a b, 0 < cmp a b ↔ cmp b a < 0
  trans : ∀ a b c, cmp a b ≤ 0 → cmp b c ≤ 0 → cmp a c ≤ 0

theorem IsComparator.sub : IsComparator fun a b : Int => a - b :=
  ⟨fun a b => by omega, fun a b c => by omega⟩

namespace IsComparator

variable {cmp : α → α → Int} (h : IsComparator cmp)
include h

theorem refl (a : α) : cmp a a = 0 := by
  have hs := h.swap a a
  omega

theorem eq_symm {a b : α} (hab : cmp a b = 0) : cmp b a = 0 := by
  have h1 := h.swap a b
  have h2 := h.swap b a
  omega

theorem eq_trans {a b c : α} (hab : cmp a b = 0) (hbc : cmp b c = 0) : cmp a c = 0 := by
  have h1 := h.trans a b c hab.le hbc.le
  have h2 := h.trans c b a (h.eq_symm hbc).le (h.eq_symm hab).le
  have h3 := h.swap c a
  omega

theorem lt_of_lt_of_le {a b c : α} (hab : cmp a b < 0) (hbc : cmp b c ≤ 0) : cmp a c < 0 := by
  by_contra hac
  have hca : cmp c a ≤ 0 := by
    have hs := h.swap c a
    omega
  have hba := h.trans b c a hbc hca
  have hs := h.swap b a
  omega

theorem lt_of_le_of_lt {a b c : α} (hab : cmp a b ≤ 0) (hbc : cmp b c < 0) : cmp a c < 0 := by
  by_contra hac
  have hca : cmp c a ≤ 0 := by
    have hs := h.swap c a
    omega
  have hcb := h.trans c a b hca hab
  have hs := h.swap c b
  omega

end IsComparator

/-! ## Lexicographic comparison -/

/-- Compare column by column until two entries differ or are final.  A list with
fewer entries than there are columns is less than its extensions. -/
def lexCmp (final : α → Bool) : List (α → α → Int) → List α → List α → Int
  | [], _, _ => 0
  | _ :: _, [], [] => 0
  | _ :: _, [], _ :: _ => -1
  | _ :: _, _ :: _, [] => 1
  | cmp :: cmps, a :: as, b :: bs =>
    if cmp a b ≠ 0 then cmp a b
    else if final a then 0
    else lexCmp final cmps as bs

/-- Columns that order their entries and tell final entries from others. -/
def OrderedColumns (final : α → Bool) (cmps : List (α → α → Int)) : Prop :=
  ∀ cmp ∈ cmps, IsComparator cmp ∧ ∀ a b, cmp a b = 0 → final a = final b

variable {final : α → Bool} {cmps : List (α → α → Int)}

theorem OrderedColumns.take (h : OrderedColumns final cmps) (k : Nat) :
    OrderedColumns final (cmps.take k) :=
  fun cmp hc => h cmp (List.mem_of_mem_take hc)

variable {cmp : α → α → Int}

theorem OrderedColumns.head (h : OrderedColumns final (cmp :: cmps)) :
    IsComparator cmp ∧ ∀ a b, cmp a b = 0 → final a = final b :=
  h cmp List.mem_cons_self

theorem OrderedColumns.tail (h : OrderedColumns final (cmp :: cmps)) : OrderedColumns final cmps :=
  fun c hc => h c (List.mem_cons_of_mem cmp hc)

theorem lexCmp_swap (h : OrderedColumns final cmps) (as bs : List α) :
    0 < lexCmp final cmps as bs ↔ lexCmp final cmps bs as < 0 := by
  induction cmps generalizing as bs with
  | nil => simp [lexCmp]
  | cons cmp cmps ih =>
    cases as with
    | nil => cases bs <;> simp [lexCmp]
    | cons a as =>
      cases bs with
      | nil => simp [lexCmp]
      | cons b bs =>
        obtain ⟨hc, hf⟩ := h.head
        by_cases hab : cmp a b = 0
        · have hba := hc.eq_symm hab
          have hr := ih h.tail as bs
          simp only [lexCmp, hab, hba, hf a b hab, ne_eq, not_true_eq_false, if_false]
          split
          · simp
          · exact hr
        have hba : cmp b a ≠ 0 := fun h0 => hab (hc.eq_symm h0)
        simp only [lexCmp, hab, hba, ne_eq, not_false_eq_true, if_true]
        exact hc.swap a b

theorem lexCmp_trans (h : OrderedColumns final cmps) (as bs cs : List α)
    (hab : lexCmp final cmps as bs ≤ 0) (hbc : lexCmp final cmps bs cs ≤ 0) :
    lexCmp final cmps as cs ≤ 0 := by
  induction cmps generalizing as bs cs with
  | nil => simp [lexCmp]
  | cons cmp cmps ih =>
    cases as with
    | nil => cases cs <;> simp [lexCmp]
    | cons a as =>
      cases bs with
      | nil => simp [lexCmp] at hab
      | cons b bs =>
        cases cs with
        | nil => simp [lexCmp] at hbc
        | cons c cs =>
          obtain ⟨hc, hfn⟩ := h.head
          simp only [lexCmp] at hab hbc ⊢
          by_cases h1 : cmp a b = 0
          · by_cases h2 : cmp b c = 0
            · -- the heads are equal, and final together
              have h3 := hc.eq_trans h1 h2
              rw [if_neg (not_not.mpr h1)] at hab
              rw [if_neg (not_not.mpr h2), ← hfn a b h1] at hbc
              rw [if_neg (not_not.mpr h3)]
              by_cases hf : final a = true
              · simp [hf]
              rw [if_neg hf] at hab hbc ⊢
              exact ih h.tail as bs cs hab hbc
            rw [if_pos h2] at hbc
            have h3 := hc.lt_of_le_of_lt h1.le (lt_of_le_of_ne hbc h2)
            rw [if_pos h3.ne]
            exact h3.le
          rw [if_pos h1] at hab
          have hbc' : cmp b c ≤ 0 := by
            by_cases h2 : cmp b c = 0
            · exact h2.le
            · rwa [if_pos h2] at hbc
          have h3 := hc.lt_of_lt_of_le (lt_of_le_of_ne hab h1) hbc'
          rw [if_pos h3.ne]
          exact h3.le

theorem isComparator_lexCmp (h : OrderedColumns final cmps) : IsComparator (lexCmp final cmps) :=
  ⟨lexCmp_swap h, lexCmp_trans h⟩

/-! ## Leading columns -/

/-- What the leading columns decide, all the columns decide. -/
theorem lexCmp_of_take (k : Nat) (as bs : List α) (h : lexCmp final (cmps.take k) as bs ≠ 0) :
    lexCmp final cmps as bs = lexCmp final (cmps.take k) as bs := by
  induction cmps generalizing k as bs with
  | nil => simp [lexCmp] at h
  | cons cmp cmps ih =>
    cases k with
    | zero => simp [lexCmp] at h
    | succ k =>
      rw [List.take_succ_cons] at h ⊢
      cases as with
      | nil => cases bs <;> rfl
      | cons a as =>
        cases bs with
        | nil => rfl
        | cons b bs =>
          simp only [lexCmp] at h ⊢
          by_cases hab : cmp a b = 0
          · rw [if_neg (not_not.mpr hab)] at h ⊢
            rw [if_neg (not_not.mpr hab)]
            by_cases hf : final a = true
            · simp [hf] at h
            rw [if_neg hf] at h ⊢
            rw [if_neg hf]
            exact ih k as bs h
          rw [if_pos hab, if_pos hab]

/-- After equal leading columns without a final entry, the next column decides. -/
theorem lexCmp_next (k : Nat) (as bs : List α) {a b : α}
    (hcmp : cmps[k]? = some cmp) (ha : as[k]? = some a) (hb : bs[k]? = some b)
    (hfn : ∀ x ∈ bs, final x = false)
    (hcl : OrderedColumns final cmps) (h : lexCmp final (cmps.take k) as bs = 0)
    (hab : cmp a b ≠ 0) : lexCmp final cmps as bs = cmp a b := by
  induction cmps generalizing k as bs with
  | nil => simp at hcmp
  | cons c cmps ih =>
    cases as with
    | nil => simp at ha
    | cons a' as =>
      cases bs with
      | nil => simp at hb
      | cons b' bs =>
        cases k with
        | zero =>
          obtain rfl : c = cmp := by simpa using hcmp
          obtain rfl : a' = a := by simpa using ha
          obtain rfl : b' = b := by simpa using hb
          simp only [lexCmp]
          rw [if_pos hab]
        | succ k =>
          rw [List.take_succ_cons] at h
          simp only [lexCmp] at h ⊢
          have hc : c a' b' = 0 := by
            by_contra hc
            rw [if_pos hc] at h
            exact hc h
          rw [if_neg (not_not.mpr hc)] at h ⊢
          have hf : final a' = false := by
            rw [hcl.head.2 a' b' hc]
            exact hfn b' List.mem_cons_self
          rw [hf] at h ⊢
          exact ih k as bs (by simpa using hcmp) (by simpa using ha) (by simpa using hb)
            (fun x hx => hfn x (List.mem_cons_of_mem b' hx)) hcl.tail h

end AthenaPG.Comparator
