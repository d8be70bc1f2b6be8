import Mathlib.Tactic.LinearCombination
import AthenaPG.Utils.Numeric

/-!
Sort keys and hash values of numerics (`src/backend/utils/adt/numeric.c`).

The datum is taken apart already: a stored numeric is not a number, an infinity, or a finite
variable.  The estimate of how many keys there are is left out.  `hash_any` and
`hash_any_extended` are parameters, functions of the digits that are passed to them.

* `cmpAbsCommon`, `cmpVarCommon`, `cmpNumerics`: the full comparison;
* `numericAbbrevConvert`, `numericCmpAbbrev`: the abbreviated keys, of 64 or 32 bits;
* `hashNumeric`, `hashNumericExtended`: the hash values;
* `cmpVarCommon_spec`: the full comparison is that of the values;
* `convertVar_antitone`: a larger number has no larger key;
* **`numericSortKeys_coherent`**: keys that differ compare as the numerics do, and equal numbers
  have equal hash values.
-/

namespace AthenaPG.Numeric
open List Nat NumericVar

open DigitLists

/-! ## Comparison -/

inductive NumericData where
  | nan
  | pinf
  | ninf
  | finite (var : NumericVar)

/-- The digits before the first common one: nothing if one of them is not zero. -/
def dropHigher (limit : Int) : List Nat → Int → Option (List Nat × Int)
  | [], weight => some ([], weight)
  | d :: ds, weight =>
    if limit < weight then if d ≠ 0 then none else dropHigher limit ds (weight - 1)
    else some (d :: ds, weight)

/-- When the digits run out on one side, any other digit that is not zero decides. -/
def cmpRest (ds es : List Nat) : Int :=
  if ds.any (· ≠ 0) then 1 else if es.any (· ≠ 0) then -1 else 0

def cmpDigits : List Nat → List Nat → Int
  | d :: ds, e :: es => if d = e then cmpDigits ds es else if e < d then 1 else -1
  | ds, es => cmpRest ds es

def cmpAbsCommon (var1 var2 : NumericVar) : Int :=
  match dropHigher var2.weight var1.digits var1.weight with
  | none => 1
  | some (ds, weight1) =>
    match dropHigher weight1 var2.digits var2.weight with
    | none => -1
    | some (es, weight2) => if weight1 = weight2 then cmpDigits ds es else cmpRest ds es

def cmpVarCommon (var1 var2 : NumericVar) : Int :=
  if var1.digits = [] then
    if var2.digits = [] then 0 else if var2.sign = .neg then 1 else -1
  else if var2.digits = [] then if var1.sign = .pos then 1 else -1
  else if var1.sign = .pos then if var2.sign = .neg then 1 else cmpAbsCommon var1 var2
  else if var2.sign = .pos then -1
  else cmpAbsCommon var2 var1

def cmpNumerics : NumericData → NumericData → Int
  | .nan, .nan => 0
  | .nan, _ => 1
  | .pinf, .nan => -1
  | .pinf, .pinf => 0
  | .pinf, _ => 1
  | .ninf, .ninf => 0
  | .ninf, _ => -1
  | .finite _, .ninf => 1
  | .finite _, .nan => -1
  | .finite _, .pinf => -1
  | .finite var1, .finite var2 => cmpVarCommon var1 var2

/-! ## Abbreviated keys -/

/-- `NUMERIC_ABBREV_BITS`, which is the width of a datum. -/
inductive AbbrevBits where
  | bits64
  | bits32
deriving DecidableEq

def AbbrevBits.width : AbbrevBits → Nat
  | .bits64 => 64
  | .bits32 => 32

/-- `PG_INT64_MAX` or `PG_INT32_MAX`. -/
def AbbrevBits.max : AbbrevBits → Nat
  | .bits64 => 2 ^ 63 - 1
  | .bits32 => 2 ^ 31 - 1

def abbrev64 (digits : List Nat) (weight : Int) : Nat :=
  if digits = [] ∨ weight < -44 then 0
  else if 83 < weight then AbbrevBits.bits64.max
  else ((weight + 44).toNat <<< 56) ||| digits.getD 3 0 ||| (digits.getD 2 0 <<< 14) |||
    (digits.getD 1 0 <<< 28) ||| (digits.getD 0 0 <<< 42)

/-- The first seven decimal digits, and how many digits the first one has after its first. -/
def firstSeven (d0 d1 d2 : Nat) : Nat × Nat :=
  if 999 < d0 then (d0 * 1000 + d1 / 10, 3)
  else if 99 < d0 then (d0 * 10000 + d1, 2)
  else if 9 < d0 then (d0 * 100000 + d1 * 10 + d2 / 1000, 1)
  else (d0 * 1000000 + d1 * 100 + d2 / 100, 0)

def abbrev32 (digits : List Nat) (weight : Int) : Nat :=
  if digits = [] ∨ weight < -11 then 0
  else if 20 < weight then AbbrevBits.bits32.max
  else
    let seven := firstSeven (digits.getD 0 0) (digits.getD 1 0) (digits.getD 2 0)
    seven.1 ||| (((weight + 11).toNat * 4 + seven.2) <<< 24)

def abbrevMag (bits : AbbrevBits) (digits : List Nat) (weight : Int) : Nat := match bits with
  | .bits64 => abbrev64 digits weight
  | .bits32 => abbrev32 digits weight

/-- `numeric_abbrev_convert_var`: the key is negated relative to the number. -/
def numericAbbrevConvertVar (bits : AbbrevBits) (var : NumericVar) : Int :=
  let result := abbrevMag bits var.digits var.weight
  if var.sign = .pos then -(result : Int) else result

def numericAbbrevConvert (bits : AbbrevBits) : NumericData → Int
  | .nan => -(bits.max : Int) - 1
  | .pinf => -(bits.max : Int)
  | .ninf => bits.max
  | .finite var => numericAbbrevConvertVar bits var

def numericCmpAbbrev (x y : Int) : Int := if x < y then 1 else if y < x then -1 else 0

/-! ## Hash values -/

section Hash

variable (hashAny : List Nat → BitVec 32) (hashAnyExtended : List Nat → BitVec 64 → BitVec 64)

/-- The digits that are hashed, and their weight: without zeros at the ends. -/
def hashedDigits (var : NumericVar) : List Nat × Int :=
  ((var.digits.dropWhile (· = 0)).rdropWhile (· = 0),
    var.weight - (var.digits.length - (var.digits.dropWhile (· = 0)).length))

/-- `hash_numeric`, which returns a datum. -/
def hashNumeric (bits : AbbrevBits) : NumericData → BitVec bits.width
  | .finite var =>
    if var.digits.dropWhile (· = 0) = [] then (BitVec.allOnes 32).setWidth _
    else (hashAny (hashedDigits var).1).setWidth _ ^^^ BitVec.ofInt _ (hashedDigits var).2
  | _ => 0

def hashNumericExtended (seed : BitVec 64) : NumericData → BitVec 64
  | .finite var =>
    if var.digits.dropWhile (· = 0) = [] then seed - 1
    else hashAnyExtended (hashedDigits var).1 seed ^^^ BitVec.ofInt 64 (hashedDigits var).2
  | _ => seed

end Hash

/-! ## The comparison of values -/

/-- A result of comparison fits two values. -/
def CmpOk (r : Int) (x y : ℚ) : Prop := (r = 1 ∧ y < x) ∨ (r = -1 ∧ x < y) ∨ (r = 0 ∧ x = y)

theorem CmpOk.swap {r : Int} {x y : ℚ} (h : CmpOk r x y) : CmpOk r (-y) (-x) := by
  obtain ⟨hr, h⟩ | ⟨hr, h⟩ | ⟨hr, h⟩ := h
  · exact .inl ⟨hr, by linarith⟩
  · exact .inr (.inl ⟨hr, by linarith⟩)
  · exact .inr (.inr ⟨hr, by rw [h]⟩)

/-- The value of digits from a weight on. -/
def magOf (ds : List Nat) (weight : Int) : ℚ :=
  valueOf NBASE ds * ((NBASE : Nat) : ℚ) ^ (weight + 1 - ds.length)

theorem magOf_nonneg (ds : List Nat) (weight : Int) : 0 ≤ magOf ds weight :=
  mul_nonneg (cast_nonneg _) (zpow_nonneg (cast_nonneg _) _)

theorem base_ne : (NBASE : ℚ) ≠ 0 := by norm_num

theorem magOf_cons (d : Nat) (ds : List Nat) (weight : Int) :
    magOf (d :: ds) weight = d * (NBASE : ℚ) ^ weight + magOf ds (weight - 1) := by
  unfold magOf
  rw [valueOf_cons, length_cons]
  have h1 : weight + 1 - ((ds.length + 1 : Nat) : Int) = weight + -(ds.length : Int) := by
    push_cast
    ring
  have h2 : weight - 1 + 1 - (ds.length : Int) = weight + -(ds.length : Int) := by ring
  rw [h1, h2, zpow_add₀ base_ne, zpow_neg, zpow_natCast]
  push_cast
  field_simp

variable {ds es : List Nat} {var1 var2 : NumericVar} {d0 d1 d2 : Nat} {weight : Int}

theorem magOf_lt (h : ∀ d ∈ ds, d < NBASE) (weight : Int) :
    magOf ds weight < (NBASE : ℚ) ^ (weight + 1) := by
  have hlt : (valueOf NBASE ds : ℚ) < (NBASE : ℚ) ^ (ds.length : Int) := by
    rw [zpow_natCast]
    exact_mod_cast @valueOf_lt NBASE (by norm_num) ds h
  calc magOf ds weight < (NBASE : ℚ) ^ (ds.length : Int) *
        (NBASE : ℚ) ^ (weight + 1 - ds.length) :=
        mul_lt_mul_of_pos_right hlt (zpow_pos (by norm_num) _)
    _ = _ := by
        rw [← zpow_add₀ base_ne]
        congr 1
        ring

theorem magOf_pos_of_any (h : ds.any (· ≠ 0) = true) (weight : Int) : 0 < magOf ds weight := by
  induction ds generalizing weight with
  | nil => simp at h
  | cons d ds ih =>
    rw [magOf_cons]
    have hp : (0 : ℚ) < (NBASE : ℚ) ^ weight := zpow_pos (by norm_num) _
    by_cases hd : d = 0
    · have := ih (by simpa [hd] using h) (weight - 1)
      rw [hd]
      simpa using this
    have := magOf_nonneg ds (weight - 1)
    positivity

theorem magOf_eq_zero_of_not_any (h : ds.any (· ≠ 0) = false) (weight : Int) :
    magOf ds weight = 0 := by
  induction ds generalizing weight with
  | nil => simp [magOf]
  | cons d ds ih =>
    simp only [any_cons, Bool.or_eq_false_iff] at h
    have hd : d = 0 := by simpa using h.1
    rw [magOf_cons, ih h.2, hd]
    simp

theorem cmpRest_spec (w1 w2 : Int) (h : ds = [] ∨ es = []) :
    CmpOk (cmpRest ds es) (magOf ds w1) (magOf es w2) := by
  unfold cmpRest
  have hnl : ∀ w, magOf [] w = 0 := fun w => by simp [magOf]
  split
  next ha =>
    obtain rfl | rfl := h
    · simp at ha
    · exact .inl ⟨rfl, by rw [hnl]; exact magOf_pos_of_any ha w1⟩
  rename_i hn
  have hz := magOf_eq_zero_of_not_any (by simpa using hn) w1
  split
  next ha => exact .inr (.inl ⟨rfl, by rw [hz]; exact magOf_pos_of_any ha w2⟩)
  next hn' =>
    exact .inr (.inr ⟨rfl, by rw [hz, magOf_eq_zero_of_not_any (by simpa using hn') w2]⟩)

theorem magOf_cons_lt {d e : Nat} (hes : ∀ x ∈ es, x < NBASE) (hlt : e < d) (weight : Int) :
    magOf (e :: es) weight < magOf (d :: ds) weight := by
  rw [magOf_cons, magOf_cons]
  have hr := magOf_lt hes (weight - 1)
  rw [show weight - 1 + 1 = weight by ring] at hr
  have hp : (0 : ℚ) < (NBASE : ℚ) ^ weight := zpow_pos (by norm_num) _
  have hle : (e : ℚ) + 1 ≤ d := by exact_mod_cast hlt
  have := magOf_nonneg ds (weight - 1)
  have := mul_le_mul_of_nonneg_right hle hp.le
  linarith

theorem cmpDigits_spec (hds : ∀ d ∈ ds, d < NBASE) (hes : ∀ e ∈ es, e < NBASE) (weight : Int) :
    CmpOk (cmpDigits ds es) (magOf ds weight) (magOf es weight) := by
  induction ds generalizing es weight with
  | nil =>
    rw [cmpDigits]
    · exact cmpRest_spec _ _ (.inl rfl)
    · simp
  | cons d ds ih =>
    cases es with
    | nil =>
      rw [cmpDigits]
      · exact cmpRest_spec _ _ (.inr rfl)
      · simp
    | cons e es =>
      have hds' : ∀ x ∈ ds, x < NBASE := fun x hx => hds x (mem_cons_of_mem _ hx)
      have hes' : ∀ x ∈ es, x < NBASE := fun x hx => hes x (mem_cons_of_mem _ hx)
      rw [cmpDigits]
      split
      next heq =>
        subst heq
        have := ih hds' hes' (weight - 1)
        rw [magOf_cons, magOf_cons]
        obtain ⟨hr, h⟩ | ⟨hr, h⟩ | ⟨hr, h⟩ := this
        · exact .inl ⟨hr, by linarith⟩
        · exact .inr (.inl ⟨hr, by linarith⟩)
        · exact .inr (.inr ⟨hr, by rw [h]⟩)
      next hne =>
        split
        next hlt => exact .inl ⟨rfl, magOf_cons_lt hes' hlt weight⟩
        · exact .inr (.inl ⟨rfl, magOf_cons_lt hds' (by omega) weight⟩)

theorem dropHigher_spec {limit : Int} {ds : List Nat} (hds : ∀ d ∈ ds, d < NBASE) (weight : Int) :
    (dropHigher limit ds weight = none → (NBASE : ℚ) ^ (limit + 1) ≤ magOf ds weight) ∧
      ∀ es w, dropHigher limit ds weight = some (es, w) →
        magOf es w = magOf ds weight ∧ (∀ d ∈ es, d < NBASE) ∧ (w ≤ limit ∨ es = []) ∧
          w ≤ weight ∧ (weight ≤ limit → w = weight) ∧ (limit ≤ weight → limit ≤ w) := by
  induction ds generalizing weight with
  | nil =>
    refine ⟨fun h => by simp [dropHigher] at h, fun es w h => ?_⟩
    obtain ⟨rfl, rfl⟩ := h
    exact ⟨rfl, by simp, .inr rfl, le_refl _, fun _ => rfl, fun h => h⟩
  | cons d ds ih =>
    have hds' : ∀ x ∈ ds, x < NBASE := fun x hx => hds x (mem_cons_of_mem _ hx)
    obtain ⟨hn, hs⟩ := ih hds' (weight - 1)
    rw [dropHigher]
    split
    next hlt =>
      split <;> rename_i hd
      · refine ⟨fun _ => ?_, fun es w h => by cases h⟩
        rw [magOf_cons]
        have hle : (1 : ℚ) ≤ d := by exact_mod_cast one_le_iff_ne_zero.mpr hd
        have hp : (NBASE : ℚ) ^ (limit + 1) ≤ (NBASE : ℚ) ^ weight :=
          zpow_le_zpow_right₀ (by norm_num) (by omega)
        have hps : (0 : ℚ) < (NBASE : ℚ) ^ weight := zpow_pos (by norm_num) _
        have := magOf_nonneg ds (weight - 1)
        nlinarith
      · have hd : d = 0 := by omega
        have hv : magOf (d :: ds) weight = magOf ds (weight - 1) := by
          rw [magOf_cons, hd]
          simp
        refine ⟨fun h => by rw [hv]; exact hn h, fun es w h => ?_⟩
        obtain ⟨h1, h2, h3, h4, h5, h6⟩ := hs es w h
        exact ⟨by rw [hv, h1], h2, h3, by omega, fun h => by omega, fun _ => h6 (by omega)⟩
    next hle =>
      refine ⟨fun h => (by cases h), fun es w h => ?_⟩
      obtain ⟨rfl, rfl⟩ := h
      exact ⟨rfl, hds, .inl (by omega), le_refl _, fun _ => rfl, fun h => h⟩

theorem cmpAbsCommon_spec (h1 : var1.Valid) (h2 : var2.Valid) :
    CmpOk (cmpAbsCommon var1 var2) var1.mag var2.mag := by
  obtain ⟨hn1, hs1⟩ := @dropHigher_spec var2.weight var1.digits h1 var1.weight
  unfold cmpAbsCommon
  cases hd : dropHigher var2.weight var1.digits var1.weight with
  | none =>
    refine .inl ⟨rfl, ?_⟩
    exact lt_of_lt_of_le (magOf_lt h2 var2.weight) (hn1 hd)
  | some first =>
    obtain ⟨ds, w1⟩ := first
    obtain ⟨hvl1, hv1, he1, hle1, hsm1, hl1⟩ := hs1 ds w1 hd
    obtain ⟨hn2, hs2⟩ := @dropHigher_spec w1 var2.digits h2 var2.weight
    dsimp only
    cases hd2 : dropHigher w1 var2.digits var2.weight with
    | none =>
      refine .inr (.inl ⟨rfl, ?_⟩)
      change magOf var1.digits var1.weight < magOf var2.digits var2.weight
      rw [← hvl1]
      exact lt_of_lt_of_le (magOf_lt hv1 w1) (hn2 hd2)
    | some second =>
      obtain ⟨es, w2⟩ := second
      obtain ⟨hvl2, hv2, he2, hle2, hsm2, hl2⟩ := hs2 es w2 hd2
      change CmpOk _ (magOf var1.digits var1.weight) (magOf var2.digits var2.weight)
      rw [← hvl1, ← hvl2]
      dsimp only
      split
      next heq =>
        rw [← heq]
        exact cmpDigits_spec hv1 hv2 w1
      rename_i hne
      refine cmpRest_spec _ _ ?_
      -- the weights differ only if the digits of one side ran out
      by_contra hnt
      rw [not_or] at hnt
      have hw1 := he1.resolve_right hnt.1
      have hw2 := he2.resolve_right hnt.2
      obtain hlt | hge := Int.lt_or_le var2.weight w1
      · omega
      omega

/-- The full comparison of variables is that of their values. -/
theorem cmpVarCommon_spec (h1 : var1.Valid) (h2 : var2.Valid) (hs1 : var1.Stripped)
    (hs2 : var2.Stripped) : CmpOk (cmpVarCommon var1 var2) var1.toRat var2.toRat := by
  have hp : ∀ var : NumericVar, var.sign = .pos → var.toRat = var.mag := fun var h => by
    simp [toRat, h, Sign.factor]
  have hn : ∀ var : NumericVar, var.sign = .neg → var.toRat = -var.mag := fun var h => by
    simp [toRat, h, Sign.factor]
  have hmg1 := mag_pos h1 hs1
  have hmg2 := mag_pos h2 hs2
  unfold cmpVarCommon
  split
  next hnl1 =>
    rw [toRat_of_digits_nil hnl1]
    split
    next hnl2 => exact .inr (.inr ⟨rfl, (toRat_of_digits_nil hnl2).symm⟩)
    next hne2 =>
      cases hsg : var2.sign with
      | pos => exact .inr (.inl ⟨by simp, by rw [hp _ hsg]; exact hmg2 hne2⟩)
      | neg => exact .inl ⟨by simp, by rw [hn _ hsg]; linarith [hmg2 hne2]⟩
  rename_i hne1
  split
  next hnl2 =>
    rw [toRat_of_digits_nil hnl2]
    cases hsg : var1.sign with
    | pos => exact .inl ⟨by simp, by rw [hp _ hsg]; exact hmg1 hne1⟩
    | neg => exact .inr (.inl ⟨by simp, by rw [hn _ hsg]; linarith [hmg1 hne1]⟩)
  rename_i hne2
  have hm1 := hmg1 hne1
  have hm2 := hmg2 hne2
  cases hsg1 : var1.sign <;> cases hsg2 : var2.sign
  · rw [hp _ hsg1, hp _ hsg2]
    simpa using cmpAbsCommon_spec h1 h2
  · exact .inl ⟨by simp, by rw [hp _ hsg1, hn _ hsg2]; linarith⟩
  · exact .inr (.inl ⟨by simp, by rw [hn _ hsg1, hp _ hsg2]; linarith⟩)
  · rw [hn _ hsg1, hn _ hsg2]
    simpa using (cmpAbsCommon_spec h2 h1).swap

/-! ## The keys are ordered as the magnitudes -/

theorem pow_le_mag {var : NumericVar} (hs : var.Stripped) (hne : var.digits ≠ []) :
    (NBASE : ℚ) ^ var.weight ≤ var.mag := by
  obtain ⟨d, ds, hds⟩ := exists_cons_of_ne_nil hne
  have hd : d ≠ 0 := fun h => hs.head (by rw [hds, h]; rfl)
  change _ ≤ magOf var.digits var.weight
  rw [hds, magOf_cons]
  have hle : (1 : ℚ) ≤ d := by exact_mod_cast one_le_iff_ne_zero.mpr hd
  have hp : (0 : ℚ) < (NBASE : ℚ) ^ var.weight := zpow_pos (by norm_num) _
  have hr := magOf_nonneg ds (var.weight - 1)
  have := mul_le_mul_of_nonneg_right hle hp.le
  linarith

theorem weight_le_of_mag_le (h2 : var2.Valid) (hs1 : var1.Stripped) (hne1 : var1.digits ≠ [])
    (hle : var1.mag ≤ var2.mag) : var1.weight ≤ var2.weight := by
  have hl := pow_le_mag hs1 hne1
  have hh := magOf_lt h2 var2.weight
  have := (zpow_lt_zpow_iff_right₀ (by norm_num : (1 : ℚ) < (NBASE : ℚ))).mp
    (lt_of_le_of_lt (hl.trans hle) hh)
  omega

theorem leading_eq_floor_mag (var : NumericVar) (k : Nat) :
    leading NBASE k var.digits = ⌊var.mag * (NBASE : ℚ) ^ (k - 1 - var.weight)⌋₊ := by
  have heq : var.mag * (NBASE : ℚ) ^ ((k : Int) - 1 - var.weight) =
      ((valueOf NBASE var.digits * NBASE ^ k : Nat) : ℚ) /
        ((NBASE ^ var.digits.length : Nat) : ℚ) := by
    unfold mag
    rw [mul_assoc, ← zpow_add₀ base_ne]
    have : var.weight + 1 - (var.digits.length : Int) + ((k : Int) - 1 - var.weight) =
        (k : Int) + -(var.digits.length : Int) := by ring
    rw [this, zpow_add₀ base_ne, zpow_neg, zpow_natCast, zpow_natCast]
    push_cast
    field_simp
  rw [heq, floor_div_natCast, floor_natCast]
  rfl

theorem leading_le_of_mag_le (k : Nat) (hle : var1.mag ≤ var2.mag)
    (hw : var1.weight = var2.weight) :
    leading NBASE k var1.digits ≤ leading NBASE k var2.digits := by
  rw [leading_eq_floor_mag, leading_eq_floor_mag, hw]
  exact floor_le_floor (mul_le_mul_of_nonneg_right hle (zpow_nonneg (by norm_num) _))

theorem leading_three (h : ∀ d ∈ ds, d < NBASE) :
    leading NBASE 3 ds = ds.getD 0 0 * 10000 ^ 2 + (ds.getD 1 0 * 10000 + ds.getD 2 0) := by
  have ht : ∀ d ∈ ds.tail.tail.tail, d < NBASE := fun d hd =>
    h d (mem_of_mem_tail (mem_of_mem_tail (mem_of_mem_tail hd)))
  rw [leading_headD_tail (by norm_num), leading_headD_tail (by norm_num),
    leading_headD_tail (by norm_num), leading_zero (by norm_num) ht]
  rcases ds with _ | ⟨d0, _ | ⟨d1, _ | ⟨d2, ds⟩⟩⟩ <;> norm_num [NBASE, Nat.add_assoc]

theorem leading_four (h : ∀ d ∈ ds, d < NBASE) :
    leading NBASE 4 ds = ds.getD 0 0 * 10000 ^ 3 +
      (ds.getD 1 0 * 10000 ^ 2 + (ds.getD 2 0 * 10000 + ds.getD 3 0)) := by
  rw [leading_headD_tail (by norm_num), leading_three fun d hd => h d (mem_of_mem_tail hd)]
  cases ds <;> rfl

theorem or_reverse (a b c d e : Nat) :
    a ||| b ||| c ||| d ||| e = a ||| (e ||| (d ||| (c ||| b))) := by
  ac_rfl

theorem packed64_eq {w d3 : Nat} (h0 : d0 < 2 ^ 14) (h1 : d1 < 2 ^ 14) (h2 : d2 < 2 ^ 14)
    (h3 : d3 < 2 ^ 14) :
    (w <<< 56) ||| d3 ||| (d2 <<< 14) ||| (d1 <<< 28) ||| (d0 <<< 42) =
      w * 2 ^ 56 + (d0 * 2 ^ 42 + (d1 * 2 ^ 28 + (d2 * 2 ^ 14 + d3))) := by
  have hl := mul_add_lt h2 h3
  have hm : d1 * 2 ^ 28 + (d2 * 2 ^ 14 + d3) < 2 ^ 14 * 2 ^ 28 := mul_add_lt h1 hl
  have hh : d0 * 2 ^ 42 + (d1 * 2 ^ 28 + (d2 * 2 ^ 14 + d3)) < 2 ^ 14 * 2 ^ 42 := mul_add_lt h0 hm
  rw [← pow_add] at hl hm hh
  rw [or_reverse, ← shiftLeft_add_eq_or_of_lt h3, shiftLeft_eq d2,
    ← shiftLeft_add_eq_or_of_lt hl, shiftLeft_eq d1,
    ← shiftLeft_add_eq_or_of_lt hm, shiftLeft_eq d0,
    ← shiftLeft_add_eq_or_of_lt hh, shiftLeft_eq w]

theorem abbrev64_eq (h : ∀ d ∈ ds, d < NBASE) (hne : ds ≠ []) (hl : -44 ≤ weight)
    (hh : weight ≤ 83) :
    abbrev64 ds weight = (weight + 44).toNat * 2 ^ 56 + (ds.getD 0 0 * 2 ^ 42 +
      (ds.getD 1 0 * 2 ^ 28 + (ds.getD 2 0 * 2 ^ 14 + ds.getD 3 0))) := by
  have hlt : ∀ k, ds.getD k 0 < 2 ^ 14 := fun k => lt_trans (getD_lt h k) (by norm_num)
  unfold abbrev64
  rw [if_neg (not_or.mpr ⟨hne, not_lt.mpr hl⟩), if_neg (not_lt.mpr hh)]
  exact packed64_eq (hlt 0) (hlt 1) (hlt 2) (hlt 3)

theorem firstSeven_lt (h0 : d0 < 10000) (h1 : d1 < 10000) (h2 : d2 < 10000) :
    (firstSeven d0 d1 d2).1 < 2 ^ 24 ∧ (firstSeven d0 d1 d2).2 ≤ 3 := by
  unfold firstSeven
  split_ifs <;> dsimp only <;> omega

theorem abbrev32_eq (h : ∀ d ∈ ds, d < NBASE) (hne : ds ≠ []) (hl : -11 ≤ weight)
    (hh : weight ≤ 20) :
    abbrev32 ds weight =
      ((weight + 11).toNat * 4 +
          (firstSeven (ds.getD 0 0) (ds.getD 1 0) (ds.getD 2 0)).2) * 2 ^ 24 +
        (firstSeven (ds.getD 0 0) (ds.getD 1 0) (ds.getD 2 0)).1 := by
  have hlt := (firstSeven_lt (getD_lt h 0) (getD_lt h 1) (getD_lt h 2)).1
  unfold abbrev32
  rw [if_neg (not_or.mpr ⟨hne, not_lt.mpr hl⟩), if_neg (not_lt.mpr hh)]
  rw [Nat.or_comm, ← shiftLeft_add_eq_or_of_lt hlt, shiftLeft_eq]

theorem firstSeven_mono {e0 e1 e2 : Nat} (hd1 : d1 < 10000) (hd2 : d2 < 10000) (he0 : e0 < 10000)
    (he1 : e1 < 10000) (he2 : e2 < 10000)
    (hle : d0 * 10000 ^ 2 + (d1 * 10000 + d2) ≤ e0 * 10000 ^ 2 + (e1 * 10000 + e2)) :
    (firstSeven d0 d1 d2).2 * 2 ^ 24 + (firstSeven d0 d1 d2).1 ≤
      (firstSeven e0 e1 e2).2 * 2 ^ 24 + (firstSeven e0 e1 e2).1 := by
  -- a difference in the first word decides, then one in the second
  have hl : d0 < e0 ∨ d0 = e0 ∧ (d1 < e1 ∨ d1 = e1 ∧ d2 ≤ e2) := by
    obtain hlt | heq | hgt := Nat.lt_trichotomy d0 e0
    · exact .inl hlt
    · exact .inr ⟨heq, by subst heq; have := Nat.le_of_add_le_add_left hle; omega⟩
    have := @mul_add_lt e0 d0 (e1 * 10000 + e2) (10000 ^ 2) hgt (by omega)
    exact absurd (le_trans (Nat.le_add_right _ _) hle) (not_le.mpr this)
  clear hle
  unfold firstSeven
  split_ifs <;> dsimp only <;> omega

def AbbrevBits.low : AbbrevBits → Int
  | .bits64 => -44
  | .bits32 => -11

def AbbrevBits.high : AbbrevBits → Int
  | .bits64 => 83
  | .bits32 => 20

theorem abbrevMag_of_low {bits : AbbrevBits} (h : ds = [] ∨ weight < bits.low) :
    abbrevMag bits ds weight = 0 := by
  cases bits <;> exact if_pos h

theorem abbrevMag_of_high {bits : AbbrevBits} (hin : ¬ (ds = [] ∨ weight < bits.low))
    (h : bits.high < weight) : abbrevMag bits ds weight = bits.max := by
  cases bits <;> exact (if_neg hin).trans (if_pos h)

theorem abbrevMag_le (bits : AbbrevBits) (h : ∀ d ∈ ds, d < NBASE) (weight : Int) :
    abbrevMag bits ds weight ≤ bits.max := by
  have hlt : ∀ k, ds.getD k 0 < 10000 := getD_lt h
  by_cases ho : ds = [] ∨ weight < bits.low
  · rw [abbrevMag_of_low ho]
    exact Nat.zero_le _
  by_cases hh : bits.high < weight
  · exact (abbrevMag_of_high ho hh).le
  rw [not_or, not_lt] at ho
  cases bits with
  | bits64 =>
    change abbrev64 ds weight ≤ 2 ^ 63 - 1
    have hl := ho.2
    have hle : weight ≤ 83 := not_lt.mp hh
    rw [abbrev64_eq h ho.1 hl hle]
    have h0 := hlt 0
    have h1 := hlt 1
    have h2 := hlt 2
    have h3 := hlt 3
    omega
  | bits32 =>
    change abbrev32 ds weight ≤ 2 ^ 31 - 1
    have hl := ho.2
    have hle : weight ≤ 20 := not_lt.mp hh
    rw [abbrev32_eq h ho.1 hl hle]
    obtain ⟨h1, h2⟩ := firstSeven_lt (hlt 0) (hlt 1) (hlt 2)
    omega

theorem abbrev64_mono (h1 : var1.Valid) (h2 : var2.Valid) (hne1 : var1.digits ≠ [])
    (hne2 : var2.digits ≠ []) (hlw : -44 ≤ var1.weight) (hh : var2.weight ≤ 83)
    (hw : var1.weight ≤ var2.weight) (hle : var1.mag ≤ var2.mag) :
    abbrev64 var1.digits var1.weight ≤ abbrev64 var2.digits var2.weight := by
  have hd : ∀ k, var1.digits.getD k 0 < 10000 := getD_lt h1
  have he : ∀ k, var2.digits.getD k 0 < 10000 := getD_lt h2
  have d0 := hd 0
  have d1 := hd 1
  have d2 := hd 2
  have d3 := hd 3
  have e1 := he 1
  have e2 := he 2
  have e3 := he 3
  rw [abbrev64_eq h1 hne1 hlw (by omega), abbrev64_eq h2 hne2 (by omega) hh]
  obtain hlt | heq := Int.lt_or_eq_of_le hw
  · omega
  have hl := leading_le_of_mag_le 4 hle heq
  rw [leading_four h1, leading_four h2] at hl
  rw [heq]
  refine Nat.add_le_add_left (rebase_le (by omega) (by omega) (fun hl => ?_) hl) _
  refine rebase_le (by omega) (by omega) (fun hl => ?_) hl
  exact rebase_le (by omega) (by omega) id hl

theorem abbrev32_mono (h1 : var1.Valid) (h2 : var2.Valid) (hne1 : var1.digits ≠ [])
    (hne2 : var2.digits ≠ []) (hlw : -11 ≤ var1.weight) (hh : var2.weight ≤ 20)
    (hw : var1.weight ≤ var2.weight) (hle : var1.mag ≤ var2.mag) :
    abbrev32 var1.digits var1.weight ≤ abbrev32 var2.digits var2.weight := by
  have hd := getD_lt h1
  have he := getD_lt h2
  rw [abbrev32_eq h1 hne1 hlw (by omega), abbrev32_eq h2 hne2 (by omega) hh]
  obtain hlt | heq := Int.lt_or_eq_of_le hw
  · have := firstSeven_lt (hd 0) (hd 1) (hd 2)
    omega
  have hl := leading_le_of_mag_le 3 hle heq
  rw [leading_three h1, leading_three h2] at hl
  rw [heq, Nat.add_mul, Nat.add_mul, Nat.add_assoc, Nat.add_assoc]
  exact Nat.add_le_add_left (firstSeven_mono (hd 1) (hd 2) (he 0) (he 1) (he 2) hl) _

theorem abbrevMag_mono (bits : AbbrevBits) (h1 : var1.Valid) (h2 : var2.Valid) (hs1 : var1.Stripped)
    (hle : var1.mag ≤ var2.mag) :
    abbrevMag bits var1.digits var1.weight ≤ abbrevMag bits var2.digits var2.weight := by
  by_cases ho : var1.digits = [] ∨ var1.weight < bits.low
  · rw [abbrevMag_of_low ho]
    exact Nat.zero_le _
  rw [not_or, not_lt] at ho
  have hne2 : var2.digits ≠ [] := by
    intro hn
    rw [mag_of_digits_nil hn] at hle
    exact absurd (mag_pos h1 hs1 ho.1) (not_lt.mpr hle)
  have hw := weight_le_of_mag_le h2 hs1 ho.1 hle
  by_cases hh : bits.high < var2.weight
  · rw [abbrevMag_of_high (not_or.mpr ⟨hne2, not_lt.mpr (ho.2.trans hw)⟩) hh]
    exact abbrevMag_le bits h1 var1.weight
  cases bits with
  | bits64 => exact abbrev64_mono h1 h2 ho.1 hne2 ho.2 (not_lt.mp hh) hw hle
  | bits32 => exact abbrev32_mono h1 h2 ho.1 hne2 ho.2 (not_lt.mp hh) hw hle

/-- A larger number has no larger key. -/
theorem convertVar_antitone (bits : AbbrevBits) (h1 : var1.Valid) (h2 : var2.Valid)
    (hs1 : var1.Stripped) (hs2 : var2.Stripped) (hle : var1.toRat ≤ var2.toRat) :
    numericAbbrevConvertVar bits var2 ≤ numericAbbrevConvertVar bits var1 := by
  unfold numericAbbrevConvertVar
  have hm1 : 0 ≤ var1.mag := magOf_nonneg var1.digits var1.weight
  cases hsg1 : var1.sign <;> cases hsg2 : var2.sign <;>
    simp only [toRat, hsg1, hsg2, Sign.factor, one_mul, neg_one_mul] at hle
  · have := abbrevMag_mono bits h1 h2 hs1 hle
    simpa using this
  · -- both are zero, and zero has no sign
    have hn : var2.digits = [] := by
      by_contra hne
      have := mag_pos h2 hs2 hne
      linarith
    rw [(hs2.zero hn).1] at hsg2
    cases hsg2
  · simp only [reduceCtorEq, if_false, if_true]
    omega
  · have := abbrevMag_mono bits h2 h1 hs2 (neg_le_neg_iff.mp hle)
    simpa using this

theorem convertVar_bounds (bits : AbbrevBits) {var : NumericVar} (h : var.Valid) :
    -(bits.max : Int) ≤ numericAbbrevConvertVar bits var ∧
      numericAbbrevConvertVar bits var ≤ bits.max := by
  have := abbrevMag_le bits h var.weight
  unfold numericAbbrevConvertVar
  dsimp only
  split <;> omega

/-! ## Sort keys and hash values agree with the comparison -/

/-- What `make_result` stores. -/
def NumericData.Stored : NumericData → Prop
  | .finite var => var.Valid ∧ var.Stripped
  | _ => True

theorem cmpAbbrev_eq_cmp (bits : AbbrevBits) {x y : NumericData} (hx : x.Stored) (hy : y.Stored)
    (hne : numericAbbrevConvert bits x ≠ numericAbbrevConvert bits y) :
    numericCmpAbbrev (numericAbbrevConvert bits x) (numericAbbrevConvert bits y) =
      cmpNumerics x y := by
  have hlt : ∀ {a b : Int}, a < b → numericCmpAbbrev a b = 1 := fun h => if_pos h
  have hgt : ∀ {a b : Int}, b < a → numericCmpAbbrev a b = -1 := fun {a b} h => by
    rw [numericCmpAbbrev, if_neg (by omega), if_pos h]
  cases x <;> cases y <;>
    simp only [numericAbbrevConvert, cmpNumerics, ne_eq, not_true_eq_false] at hne ⊢
  case nan.pinf | nan.ninf | pinf.ninf => exact hlt (by omega)
  case nan.finite var | pinf.finite var =>
    have := convertVar_bounds bits hy.1
    exact hlt (by omega)
  case pinf.nan | ninf.nan | ninf.pinf => exact hgt (by omega)
  case ninf.finite var =>
    have := convertVar_bounds bits hy.1
    exact hgt (by omega)
  case finite.finite var1 var2 =>
    have ha := convertVar_antitone bits hx.1 hy.1 hx.2 hy.2
    have ha' := convertVar_antitone bits hy.1 hx.1 hy.2 hx.2
    obtain ⟨hr, h⟩ | ⟨hr, h⟩ | ⟨hr, h⟩ := cmpVarCommon_spec hx.1 hy.1 hx.2 hy.2
    · rw [hr]
      exact hlt (lt_of_le_of_ne (ha' h.le) hne)
    · rw [hr]
      exact hgt (lt_of_le_of_ne (ha h.le) (Ne.symm hne))
    exact absurd (le_antisymm (ha' h.ge) (ha h.le)) hne
  all_goals have := convertVar_bounds bits hx.1
  case finite.nan | finite.pinf => exact hgt (by omega)
  case finite.ninf => exact hlt (by omega)

theorem hashed_eq (var : NumericVar) :
    (var.digits.dropWhile (· = 0) = [] ↔ (stripVar var).digits = []) ∧
      ((stripVar var).digits ≠ [] →
        hashedDigits var = ((stripVar var).digits, (stripVar var).weight)) := by
  have hn : (var.digits.dropWhile (· = 0)).rdropWhile (· = 0) = [] ↔
      var.digits.dropWhile (· = 0) = [] := by
    constructor
    · intro h
      by_contra hne
      have ha := rdropWhile_eq_nil_iff.mp h _ (head_mem hne)
      have := head?_dropWhile_ne var.digits
      rw [head?_eq_some_head hne] at this
      exact this (by simpa using ha)
    · intro h
      rw [h]
      rfl
  unfold stripVar hashedDigits
  dsimp only
  split <;> rename_i h
  · exact ⟨⟨fun _ => rfl, fun _ => hn.mp h⟩, fun hne => absurd rfl hne⟩
  · exact ⟨hn.symm, fun _ => rfl⟩

theorem stripVar_eq_of_toRat_eq (h1 : var1.Valid) (h2 : var2.Valid)
    (heq : var1.toRat = var2.toRat) : (stripVar var1).digits = (stripVar var2).digits ∧
      (stripVar var1).weight = (stripVar var2).weight := by
  have he := @NumericVar.Stripped.ext { stripVar var1 with dscale := 0 }
    { stripVar var2 with dscale := 0 } (stripVar_valid h1) (stripVar_valid h2)
    ⟨(stripVar_stripped var1).head, (stripVar_stripped var1).last, (stripVar_stripped var1).zero⟩
    ⟨(stripVar_stripped var2).head, (stripVar_stripped var2).last, (stripVar_stripped var2).zero⟩
    (by
      have := (stripVar_toRat var1).trans (heq.trans (stripVar_toRat var2).symm)
      exact this) rfl
  rw [NumericVar.mk.injEq] at he
  exact ⟨he.1, he.2.1⟩

/-- **Sort keys and hash values agree with the comparison.**  Where the abbreviated keys of two
stored numerics differ, in either layout, comparing them gives what comparing the numerics gives.
Finite numerics of one value have one hash value, whether zeros are left at their ends or not. -/
theorem numericSortKeys_coherent :
    (∀ (bits : AbbrevBits) (x y : NumericData), x.Stored → y.Stored →
      numericAbbrevConvert bits x ≠ numericAbbrevConvert bits y →
      numericCmpAbbrev (numericAbbrevConvert bits x) (numericAbbrevConvert bits y) =
        cmpNumerics x y) ∧
    ∀ (hashAny : List Nat → BitVec 32) (hashAnyExtended : List Nat → BitVec 64 → BitVec 64)
      (var1 var2 : NumericVar), var1.Valid → var2.Valid → var1.toRat = var2.toRat →
      (∀ bits, hashNumeric hashAny bits (.finite var1) = hashNumeric hashAny bits (.finite var2)) ∧
      ∀ seed, hashNumericExtended hashAnyExtended seed (.finite var1) =
        hashNumericExtended hashAnyExtended seed (.finite var2) := by
  refine ⟨fun bits x y hx hy hne => cmpAbbrev_eq_cmp bits hx hy hne,
    fun hashAny hashAnyExtended var1 var2 h1 h2 heq => ?_⟩
  obtain ⟨hd, hw⟩ := stripVar_eq_of_toRat_eq h1 h2 heq
  obtain ⟨hn1, hh1⟩ := hashed_eq var1
  obtain ⟨hn2, hh2⟩ := hashed_eq var2
  by_cases hz : (stripVar var1).digits = []
  · have hz1 := hn1.mpr hz
    have hz2 := hn2.mpr (hd ▸ hz)
    exact ⟨fun bits => by simp only [hashNumeric, hz1, hz2, if_true],
      fun seed => by simp only [hashNumericExtended, hz1, hz2, if_true]⟩
  have hne1 := fun h => hz (hn1.mp h)
  have hne2 := fun h => hz (hd ▸ hn2.mp h)
  have hs : hashedDigits var1 = hashedDigits var2 := by rw [hh1 hz, hh2 (hd ▸ hz), hd, hw]
  exact ⟨fun bits => by rw [hashNumeric, hashNumeric, if_neg hne1, if_neg hne2, hs],
    fun seed => by rw [hashNumericExtended, hashNumericExtended, if_neg hne1, if_neg hne2, hs]⟩

/-- The keys of 1 and 2 are in order, and 7 has one hash value however it is written. -/
theorem numericSortKeys_coherent_smallNumbers :
    numericCmpAbbrev (numericAbbrevConvert .bits32 (.finite ⟨[1], 0, .pos, 0⟩))
        (numericAbbrevConvert .bits32 (.finite ⟨[2], 0, .pos, 0⟩)) = -1 ∧
      hashNumeric (fun ds => BitVec.ofNat 32 (ds.getD 0 0)) .bits64 (.finite ⟨[0, 7], 1, .pos, 0⟩) =
        hashNumeric (fun ds => BitVec.ofNat 32 (ds.getD 0 0)) .bits64
          (.finite ⟨[7, 0], 0, .pos, 4⟩) := by
  have hv : ∀ d, d < 10000 → ∀ w scale, (mk [d] w .pos scale).Valid :=
    fun d hd w scale x hx => by rwa [mem_singleton.mp hx]
  have hk := numericSortKeys_coherent.1 .bits32 (.finite ⟨[1], 0, .pos, 0⟩)
    (.finite ⟨[2], 0, .pos, 0⟩) ⟨hv 1 (by decide) 0 0, by decide, by decide, by decide⟩
    ⟨hv 2 (by decide) 0 0, by decide, by decide, by decide⟩ (by decide)
  refine ⟨hk.trans (by decide), (numericSortKeys_coherent.2 _ (fun _ seed => seed)
    ⟨[0, 7], 1, .pos, 0⟩ ⟨[7, 0], 0, .pos, 4⟩ ?_ ?_ ?_).1 .bits64⟩
  · simp [NumericVar.Valid, NBASE]
  · simp [NumericVar.Valid, NBASE]
  · norm_num [toRat, mag, valueOf, Nat.ofDigits, Sign.factor, NBASE]

end AthenaPG.Numeric
