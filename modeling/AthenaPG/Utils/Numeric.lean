import Mathlib.Data.List.DropRight
import Mathlib.Data.List.GetD
import AthenaPG.Library.DigitLists

/-!
Variables of type numeric (`src/backend/utils/adt/numeric.c`): digits in base 10000, and the
functions that cut them.

The digit buffer is a list without its spare places.  Weights, scales and numbers of digits are `int`
in the source and unbounded here; the results therefore bound them and say that the integers computed
from them stay within an `int`.

* `NumericVar`, `toRat`: the value of a variable;
* `roundVar`, `truncVar`, `stripVar`: `round_var`, `trunc_var`, `strip_var`;
* `FitsInt`, `roundInts`: the integers that the first two compute from a weight and a scale;
* **`roundVar_truncVar_exact`**: rounding, half a unit away from zero, and truncation;
* `stripVar_toRat`, `stripVar_stripped`: the digits without zeros at the ends.
-/

namespace AthenaPG.Numeric
open List Nat

open DigitLists

/-! ## Variables -/

/-- `NBASE`; `HALF_NBASE` is half of it, and `DEC_DIGITS` is 4. -/
abbrev NBASE : Nat := 10000

/-- `NUMERIC_POS` and `NUMERIC_NEG`. -/
inductive Sign where
  | pos
  | neg
deriving DecidableEq, Repr

def Sign.factor : Sign → ℚ
  | .pos => 1
  | .neg => -1

/-- `NumericVar`; `ndigits` is the length of the list. -/
structure NumericVar where
  digits : List Nat
  weight : Int
  sign : Sign
  dscale : Int
deriving DecidableEq, Repr

open NumericVar

variable (var : NumericVar)

def NumericVar.Valid : Prop := ∀ d ∈ var.digits, d < NBASE

instance (var : NumericVar) : Decidable var.Valid := by
  unfold NumericVar.Valid
  infer_instance

/-- Far more than what a value of type numeric has: at most 2 ^ 15 digits before the point, and 2 ^ 12
behind it. -/
def NumericVar.InRange : Prop := |var.weight| ≤ 2 ^ 26 ∧ var.digits.length ≤ 2 ^ 26

instance (var : NumericVar) : Decidable var.InRange := by
  unfold NumericVar.InRange
  infer_instance

def NumericVar.mag : ℚ :=
  valueOf NBASE var.digits * (NBASE : ℚ) ^ (var.weight + 1 - var.digits.length)

/-- The number that a variable denotes: the first digit is multiplied by `NBASE ^ weight`. -/
def NumericVar.toRat : ℚ := var.sign.factor * var.mag

theorem NumericVar.mag_nonneg : 0 ≤ var.mag := by
  exact mul_nonneg (cast_nonneg _) (zpow_nonneg (cast_nonneg _) _)

/-- `zero_var`, with a display scale. -/
def zeroVar (dscale : Int) : NumericVar := ⟨[], 0, .pos, dscale⟩

variable {var : NumericVar} {di m : Nat}

theorem mag_of_digits_nil (h : var.digits = []) : var.mag = 0 := by simp [mag, h]

theorem toRat_of_digits_nil (h : var.digits = []) : var.toRat = 0 := by
  unfold toRat
  rw [mag_of_digits_nil h, mul_zero]

/-! ## Rounding -/

def roundPowers (di : Nat) : Nat := 10 ^ (4 - di)

/-- The digits that are kept, and whether there is a carry: in whole digits, or within the last
digit that is kept. -/
def roundDigits (digits : List Nat) (ndigits di : Nat) : List Nat × Bool :=
  if di = 0 then (digits.take ndigits, decide (NBASE / 2 ≤ digits.getD ndigits 0))
  else
    let last := digits.getD (ndigits - 1) 0
    let extra := last % roundPowers di
    if roundPowers di / 2 ≤ extra then
      if NBASE ≤ roundPowers di + (last - extra) then
        (digits.take (ndigits - 1) ++ [roundPowers di + (last - extra) - NBASE], true)
      else (digits.take (ndigits - 1) ++ [roundPowers di + (last - extra)], false)
    else (digits.take (ndigits - 1) ++ [last - extra], false)

/-- The carry is added to the digits before the one that it comes from: all of them if whole digits
are cut, else all but the last. -/
def propagateCarry (digits : List Nat) (di : Nat) (carry : Bool) : List Nat :=
  if carry then
    if di = 0 then (increment NBASE digits.reverse).reverse
    else (increment NBASE digits.dropLast.reverse).reverse ++ digits.drop (digits.length - 1)
  else digits

variable (var)

def roundVar (rscale : Int) : NumericVar :=
  let di := (var.weight + 1) * 4 + rscale
  if di < 0 then zeroVar rscale
  else
    let ndigits := ((di + 3) / 4).toNat
    let dm := (di % 4).toNat
    if ndigits < var.digits.length ∨ (ndigits = var.digits.length ∧ 0 < dm) then
      let cut := roundDigits var.digits ndigits dm
      let digits := propagateCarry cut.1 dm cut.2
      ⟨digits, if ndigits < digits.length then var.weight + 1 else var.weight, var.sign, rscale⟩
    else { var with dscale := rscale }

def truncVar (rscale : Int) : NumericVar :=
  let di := (var.weight + 1) * 4 + rscale
  if di ≤ 0 then zeroVar rscale
  else
    let ndigits := ((di + 3) / 4).toNat
    let dm := (di % 4).toNat
    if ndigits ≤ var.digits.length then
      if 0 < dm then
        let last := var.digits.getD (ndigits - 1) 0
        ⟨var.digits.take (ndigits - 1) ++ [last - last % roundPowers dm], var.weight, var.sign,
          rscale⟩
      else ⟨var.digits.take ndigits, var.weight, var.sign, rscale⟩
    else { var with dscale := rscale }

def stripVar : NumericVar :=
  let digits := var.digits.dropWhile (· = 0)
  let weight := var.weight - (var.digits.length - digits.length)
  let digits := digits.rdropWhile (· = 0)
  if digits = [] then { var with digits := [], weight := 0, sign := .pos }
  else { var with digits := digits, weight := weight }

/-! ## Cutting digits -/

theorem mag_mul_pow (r : Int) :
    var.mag * (10 : ℚ) ^ r =
      valueOf NBASE var.digits * (10 : ℚ) ^ ((var.weight + 1) * 4 + r - 4 * var.digits.length) := by
  have hb : (NBASE : ℚ) = (10 : ℚ) ^ (4 : Int) := by norm_num
  unfold mag
  rw [hb, ← zpow_mul, mul_assoc, ← zpow_add₀ (by norm_num)]
  congr 2
  ring

variable {var}

variable {digits : List Nat}

theorem scaled_eq (hv : ∀ d ∈ digits, d < NBASE) {k e : Nat} (hk : k ≤ digits.length) :
    ∃ x : ℚ, 0 ≤ x ∧ x < 1 ∧ valueOf NBASE digits *
      (10 : ℚ) ^ ((4 * k : Int) - e - 4 * digits.length) =
        ((valueOf NBASE (digits.take k) : ℚ) + x) / (10 ^ e : Nat) := by
  have hlt : valueOf NBASE (digits.drop k) < NBASE ^ (digits.length - k) := by
    have := @valueOf_lt NBASE (by norm_num) (digits.drop k) fun d hd => hv d (mem_of_mem_drop hd)
    rwa [length_drop] at this
  have hp : (0 : ℚ) < ((NBASE ^ (digits.length - k) : Nat) : ℚ) := by positivity
  refine ⟨valueOf NBASE (digits.drop k) / (NBASE ^ (digits.length - k) : Nat), by positivity, ?_, ?_⟩
  · rw [div_lt_one hp]
    exact_mod_cast hlt
  have hpw : (10 : ℚ) ^ ((4 * k : Int) - e - 4 * digits.length) =
      1 / (((NBASE ^ (digits.length - k) : Nat) : ℚ) * (10 ^ e : Nat)) := by
    have he : (4 * k : Int) - e - 4 * digits.length = -((4 * (digits.length - k) + e : Nat)) := by
      omega
    rw [he, zpow_neg, zpow_natCast, pow_add, pow_mul]
    norm_num
  rw [hpw, valueOf_take_drop digits k]
  push_cast
  field_simp

theorem floor_scaled (K : Nat) {x : ℚ} (hx : 0 ≤ x) (hlt : x < 1) (p : Nat) :
    ⌊((K : ℚ) + x) / p⌋₊ = K / p := by
  rw [floor_div_natCast]
  congr 1
  rw [floor_eq_iff (by positivity)]
  constructor <;> linarith

theorem floor_half_scaled (K : Nat) {x : ℚ} (hx : 0 ≤ x) (hlt : x < 1) {p : Nat} (hp : 0 < p)
    (he : 2 ∣ p) : ⌊((K : ℚ) + x) / p + 1 / 2⌋₊ = K / p + if p / 2 ≤ K % p then 1 else 0 := by
  obtain ⟨h, rfl⟩ := he
  have hne : (h : ℚ) ≠ 0 := by
    have : h ≠ 0 := by omega
    exact_mod_cast this
  have hs : ((K : ℚ) + x) / (2 * h : Nat) + 1 / 2 = ((K + h : Nat) + x) / (2 * h : Nat) := by
    push_cast
    field_simp
    ring
  rw [hs, floor_scaled _ hx hlt, Nat.mul_div_cancel_left h (by norm_num)]
  have hsp := div_add_mod K (2 * h)
  have hm := mod_lt K (show 2 * h > 0 by omega)
  generalize K / (2 * h) = q at *
  generalize K % (2 * h) = r at *
  split
  · rw [Nat.div_eq_iff (by omega), show (q + 1) * (2 * h) = 2 * h * q + 2 * h by ring]
    omega
  rw [Nat.div_eq_iff (by omega), show (q + 0) * (2 * h) = 2 * h * q by ring]
  omega

theorem take_pred_append {k : Nat} (hk : 0 < k) (hle : k ≤ digits.length) :
    digits.take k = digits.take (k - 1) ++ [digits.getD (k - 1) 0] := by
  have hlt : k - 1 < digits.length := by omega
  have := take_succ_eq_append_getElem hlt
  rw [show k - 1 + 1 = k by omega] at this
  rw [this, getD_eq_getElem _ _ hlt]

theorem getD_lt (hv : ∀ d ∈ digits, d < NBASE) (k : Nat) : digits.getD k 0 < NBASE := by
  rw [getD_eq_getElem?_getD]
  cases h : digits[k]? with
  | none => simp
  | some d => exact hv d (mem_of_getElem? h)

theorem roundPowers_dvd (hp : 0 < di) : roundPowers di ∣ NBASE := by
  have : NBASE = 10 ^ 4 := by norm_num
  rw [this]
  exact pow_dvd_pow 10 (by omega)

theorem roundPowers_even (hlt : di < 4) : 2 ∣ roundPowers di :=
  (show 2 ∣ 10 by norm_num).trans (dvd_pow_self 10 (by omega))

theorem propagateCarry_spec {di : Nat} {cy : Bool} (hv : ∀ d ∈ digits, d < NBASE)
    (hne : di ≠ 0 → digits ≠ []) :
    valueOf NBASE (propagateCarry digits di cy) =
        valueOf NBASE digits + (if cy then if di = 0 then 1 else NBASE else 0) ∧
      (∀ d ∈ propagateCarry digits di cy, d < NBASE) ∧
      ((propagateCarry digits di cy).length = digits.length ∨
        (propagateCarry digits di cy).length = digits.length + 1) := by
  unfold propagateCarry
  split
  · split
    · have hr : ∀ d ∈ digits.reverse, d < NBASE := by simpa using hv
      refine ⟨?_, ?_, ?_⟩
      · unfold valueOf
        rw [reverse_reverse, ofDigits_increment hr]
      · intro d hd
        exact increment_lt (by norm_num) hr d (mem_reverse.mp hd)
      have := @length_increment NBASE digits.reverse
      simpa using this
    rename_i hdi
    obtain ⟨front, last, rfl⟩ := (eq_nil_or_concat' digits).resolve_left (hne hdi)
    have hl : (front ++ [last]).length - 1 = front.length := by simp
    have hf : ∀ d ∈ front.reverse, d < NBASE := fun d hd =>
      hv d (mem_append_left _ (mem_reverse.mp hd))
    rw [dropLast_concat, hl, drop_left]
    refine ⟨?_, ?_, ?_⟩
    · rw [valueOf_concat, valueOf_concat]
      have : valueOf NBASE (increment NBASE front.reverse).reverse = valueOf NBASE front + 1 := by
        unfold valueOf
        rw [reverse_reverse, ofDigits_increment hf]
      rw [this]
      ring
    · refine forall_mem_append.mpr ⟨fun d hd => ?_, (forall_mem_append.mp hv).2⟩
      exact increment_lt (by norm_num) hf d (mem_reverse.mp hd)
    have := @length_increment NBASE front.reverse
    simp only [length_append, length_reverse, length_singleton] at this ⊢
    omega
  · exact ⟨by simp, hv, .inl rfl⟩

/-! ## Rounding and truncation -/

/-- What `roundDigits` keeps, with the carry, as a number: whole digits, rounded by the next one. -/
theorem roundDigits_whole (hv : ∀ d ∈ digits, d < NBASE) (hm : m < digits.length) :
    (roundDigits digits m 0).1 = digits.take m ∧
      valueOf NBASE (digits.take m) + (if (roundDigits digits m 0).2 then 1 else 0) =
        valueOf NBASE (digits.take (m + 1)) / NBASE +
          if NBASE / 2 ≤ valueOf NBASE (digits.take (m + 1)) % NBASE then 1 else 0 := by
  have hlt := getD_lt hv m
  have hs : valueOf NBASE (digits.take (m + 1)) =
      digits.getD m 0 + NBASE * valueOf NBASE (digits.take m) := by
    rw [take_pred_append (k := m + 1) (by omega) (by omega), valueOf_concat, Nat.add_sub_cancel]
    ring
  rw [hs, add_mul_div_left _ _ (by norm_num), div_eq_of_lt hlt,
    add_mul_mod_self_left, mod_eq_of_lt hlt, zero_add]
  exact ⟨by simp [roundDigits], by simp [roundDigits]⟩

theorem take_mod_roundPowers (hp : 0 < m) (hm : m ≤ digits.length) (hdi : 0 < di) :
    valueOf NBASE (digits.take m) % roundPowers di = digits.getD (m - 1) 0 % roundPowers di := by
  obtain ⟨c, hc⟩ := roundPowers_dvd hdi
  rw [take_pred_append hp hm, valueOf_concat, hc, mul_comm (roundPowers di) c,
    ← mul_assoc, mul_add_mod_self_right]

theorem roundDigits_within (hv : ∀ d ∈ digits, d < NBASE) (hps : 0 < m)
    (hm : m ≤ digits.length) (hdi : 0 < di) :
    (∀ d ∈ (roundDigits digits m di).1, d < NBASE) ∧ (roundDigits digits m di).1.length = m ∧
      valueOf NBASE (roundDigits digits m di).1 +
          (if (roundDigits digits m di).2 then NBASE else 0) =
        (valueOf NBASE (digits.take m) / roundPowers di +
          if roundPowers di / 2 ≤ valueOf NBASE (digits.take m) % roundPowers di then 1 else 0) *
            roundPowers di := by
  have hlt := getD_lt hv (m - 1)
  have ht := take_pred_append hps hm
  have hmd := take_mod_roundPowers hps hm hdi
  have hvl : valueOf NBASE (digits.take m) =
      valueOf NBASE (digits.take (m - 1)) * NBASE + digits.getD (m - 1) 0 := by
    rw [ht, valueOf_concat]
  have hdv := div_add_mod (valueOf NBASE (digits.take m)) (roundPowers di)
  have hls := mod_le (digits.getD (m - 1) 0) (roundPowers di)
  have hf : ∀ d ∈ digits.take (m - 1), d < NBASE := fun d hd => hv d (mem_of_mem_take hd)
  have hl : (digits.take (m - 1)).length = m - 1 := by
    rw [length_take]
    omega
  have hml := mul_comm (roundPowers di) (valueOf NBASE (digits.take m) / roundPowers di)
  have ha : ∀ x, x < NBASE → (∀ d ∈ digits.take (m - 1) ++ [x], d < NBASE) ∧
      (digits.take (m - 1) ++ [x]).length = m := by
    intro x hx
    refine ⟨forall_mem_append.mpr ⟨hf, forall_mem_singleton.mpr hx⟩, ?_⟩
    rw [length_append, hl, length_singleton]
    omega
  unfold roundDigits
  rw [if_neg hdi.ne']
  dsimp only
  rw [hmd] at hdv ⊢
  generalize valueOf NBASE (digits.take m) / roundPowers di = q at *
  generalize digits.getD (m - 1) 0 = last at *
  split
  next hh =>
    have hpr : (q + 1) * roundPowers di = q * roundPowers di + roundPowers di := by ring
    split
    · refine ⟨(ha _ (by omega)).1, (ha _ (by omega)).2, ?_⟩
      rw [valueOf_concat, if_pos rfl, hpr]
      omega
    refine ⟨(ha _ (by omega)).1, (ha _ (by omega)).2, ?_⟩
    rw [valueOf_concat, if_neg (by simp), hpr]
    omega
  · refine ⟨(ha _ (by omega)).1, (ha _ (by omega)).2, ?_⟩
    rw [valueOf_concat, if_neg (by simp), add_zero, add_zero]
    omega

theorem mag_cut {rs : Int} {sign : Sign} (hl : digits.length = m ∨ digits.length = m + 1) :
    (NumericVar.mk digits (if m < digits.length then var.weight + 1 else var.weight) sign
        rs).mag * (10 : ℚ) ^ rs =
      valueOf NBASE digits * (10 : ℚ) ^ ((var.weight + 1) * 4 + rs - 4 * m) := by
  rw [mag_mul_pow]
  congr 2
  obtain h | h := hl
  · rw [if_neg (by omega), h]
  rw [if_pos (by omega), h]
  push_cast
  ring

theorem scaled_lt_pow (hv : var.Valid) (e : Int) :
    (valueOf NBASE var.digits : ℚ) * (10 : ℚ) ^ (e - 4 * var.digits.length) < (10 : ℚ) ^ e := by
  have hlt : (valueOf NBASE var.digits : ℚ) < (10 : ℚ) ^ ((4 : Int) * var.digits.length) := by
    have := @valueOf_lt NBASE (by norm_num) var.digits hv
    rw [show (4 : Int) * var.digits.length = ((4 * var.digits.length : Nat) : Int) by push_cast; rfl,
      zpow_natCast, pow_mul]
    exact_mod_cast this
  have hp : (0 : ℚ) < (10 : ℚ) ^ (e - 4 * var.digits.length) := zpow_pos (by norm_num) _
  calc _ < (10 : ℚ) ^ ((4 : Int) * var.digits.length) * (10 : ℚ) ^ (e - 4 * var.digits.length) :=
        mul_lt_mul_of_pos_right hlt hp
    _ = (10 : ℚ) ^ e := by
        rw [← zpow_add₀ (by norm_num)]
        congr 1
        ring

theorem scaled_lt_one (hv : var.Valid) {e : Int} (he : e ≤ 0) :
    (valueOf NBASE var.digits : ℚ) * (10 : ℚ) ^ (e - 4 * var.digits.length) < 1 :=
  (scaled_lt_pow hv e).trans_le (zpow_le_one_of_nonpos₀ (by norm_num) he)

theorem scaled_eq_nat {var : NumericVar} {rs : Int} {D : Nat}
    (hD : (var.weight + 1) * 4 + rs = D) (hle : 4 * var.digits.length ≤ D) :
    ∃ N : Nat, var.mag * (10 : ℚ) ^ rs = N := by
  refine ⟨valueOf NBASE var.digits * 10 ^ (D - 4 * var.digits.length), ?_⟩
  have he : (D : Int) - 4 * var.digits.length = ((D - 4 * var.digits.length : Nat) : Int) := by
    omega
  rw [mag_mul_pow, hD, he, zpow_natCast]
  push_cast
  rfl

theorem truncDigits_within (hv : ∀ d ∈ digits, d < NBASE) (hp : 0 < m)
    (hm : m ≤ digits.length) (hdi : 0 < di) :
    valueOf NBASE (digits.take (m - 1) ++
        [digits.getD (m - 1) 0 - digits.getD (m - 1) 0 % roundPowers di]) =
      valueOf NBASE (digits.take m) / roundPowers di * roundPowers di ∧
    (∀ d ∈ digits.take (m - 1) ++
      [digits.getD (m - 1) 0 - digits.getD (m - 1) 0 % roundPowers di], d < NBASE) ∧
    (digits.take (m - 1) ++
      [digits.getD (m - 1) 0 - digits.getD (m - 1) 0 % roundPowers di]).length = m := by
  have hlt := getD_lt hv (m - 1)
  have hmd := take_mod_roundPowers hp hm hdi
  have hdv := div_add_mod (valueOf NBASE (digits.take m)) (roundPowers di)
  have hvl : valueOf NBASE (digits.take m) =
      valueOf NBASE (digits.take (m - 1)) * NBASE + digits.getD (m - 1) 0 := by
    rw [take_pred_append hp hm, valueOf_concat]
  have hl := mod_le (digits.getD (m - 1) 0) (roundPowers di)
  have hml := mul_comm (roundPowers di) (valueOf NBASE (digits.take m) / roundPowers di)
  refine ⟨?_, forall_mem_append.mpr ⟨fun d hd => hv d (mem_of_mem_take hd),
    forall_mem_singleton.mpr (by omega)⟩, ?_⟩
  · rw [valueOf_concat]
    omega
  rw [length_append, length_take, length_singleton]
  omega

theorem cut_toNat (D : Nat) :
    (((D : Int) + 3) / 4).toNat = (D + 3) / 4 ∧ ((D : Int) % 4).toNat = D % 4 := by omega

/-- **`round_var`** rounds to the nearest unit, half a unit upwards. -/
theorem roundVar_mag (hv : var.Valid) (rs : Int) :
    (roundVar var rs).mag * (10 : ℚ) ^ rs = ⌊var.mag * (10 : ℚ) ^ rs + 1 / 2⌋₊ ∧
      (roundVar var rs).Valid := by
  unfold roundVar
  dsimp only
  split
  · -- all digits are below a tenth of a unit
    refine ⟨?_, by simp [NumericVar.Valid, zeroVar]⟩
    rw [mag_of_digits_nil rfl, zero_mul, mag_mul_pow]
    symm
    rw [cast_eq_zero, floor_eq_zero]
    have hlt := scaled_lt_pow hv ((var.weight + 1) * 4 + rs)
    have hpw : (10 : ℚ) ^ ((var.weight + 1) * 4 + rs) ≤ (10 : ℚ) ^ (-1 : Int) :=
      zpow_le_zpow_right₀ (by norm_num) (by omega)
    have ht : (10 : ℚ) ^ (-1 : Int) = 1 / 10 := by norm_num
    rw [ht] at hpw
    linarith
  rename_i hn
  obtain ⟨D, hD⟩ := Int.eq_ofNat_of_zero_le (not_lt.mp hn)
  rw [hD, (cut_toNat D).1, (cut_toNat D).2]
  split
  next hc =>
    obtain hz | hp := Nat.eq_zero_or_pos (D % 4)
    · -- whole digits are cut
      rw [hz] at hc ⊢
      have hlt : (D + 3) / 4 < var.digits.length := by omega
      obtain ⟨hkp, hr⟩ := roundDigits_whole hv hlt
      obtain ⟨hvl, hdg, hl⟩ := @propagateCarry_spec (roundDigits var.digits
        ((D + 3) / 4) 0).1 0 (roundDigits var.digits ((D + 3) / 4) 0).2
        (by rw [hkp]; exact fun d hd => hv d (mem_of_mem_take hd)) (by simp)
      have hk : (roundDigits var.digits ((D + 3) / 4) 0).1.length = (D + 3) / 4 := by
        rw [hkp, length_take]
        omega
      rw [hk] at hl
      refine ⟨?_, hdg⟩
      obtain ⟨x, hx, hx1, hs⟩ := @scaled_eq var.digits hv ((D + 3) / 4 + 1) 4 (by omega)
      rw [mag_cut hl, hvl, if_pos rfl, hkp, hr, mag_mul_pow, hD,
        show (D : Int) - 4 * ((D + 3) / 4 : Nat) = 0 by omega, zpow_zero, mul_one,
        show (D : Int) - 4 * var.digits.length = (4 * ((D + 3) / 4 + 1 : Nat) : Int) - (4 : Nat) -
          4 * var.digits.length by push_cast; omega, hs,
        floor_half_scaled _ hx hx1 (by norm_num) (by norm_num)]
      norm_num
    -- the last digit is cut within
    have hlt : (D + 3) / 4 ≤ var.digits.length := by omega
    obtain ⟨hkp, hk, hr⟩ := roundDigits_within hv (m := (D + 3) / 4) (by omega) hlt hp
    obtain ⟨hvl, hdg, hl⟩ := @propagateCarry_spec (roundDigits var.digits
      ((D + 3) / 4) (D % 4)).1 (D % 4) (roundDigits var.digits ((D + 3) / 4) (D % 4)).2
      hkp (fun _ hnl => by rw [hnl] at hk; simp at hk; omega)
    rw [hk] at hl
    refine ⟨?_, hdg⟩
    obtain ⟨x, hx, hx1, hs⟩ := @scaled_eq var.digits hv ((D + 3) / 4) (4 - D % 4) hlt
    rw [if_neg hp.ne'] at hvl
    rw [mag_cut hl, hvl, hr, mag_mul_pow, hD,
      show (D : Int) - 4 * var.digits.length = (4 * ((D + 3) / 4 : Nat) : Int) -
        (4 - D % 4 : Nat) - 4 * var.digits.length by omega, hs]
    change _ = ((⌊_ / (roundPowers (D % 4) : ℚ) + 1 / 2⌋₊ : Nat) : ℚ)
    rw [floor_half_scaled _ hx hx1 (by unfold roundPowers; positivity)
      (roundPowers_even (by omega)),
      show (D : Int) - 4 * ((D + 3) / 4 : Nat) = -((4 - D % 4 : Nat) : Int) by omega, zpow_neg,
      zpow_natCast]
    unfold roundPowers
    push_cast
    field_simp
  · -- nothing is cut
    refine ⟨?_, hv⟩
    obtain ⟨N, hnt⟩ := @scaled_eq_nat var _ _ hD (by omega)
    have hh : ∀ N : Nat, ⌊(N : ℚ) + 1 / 2⌋₊ = N := by
      intro N
      rw [floor_eq_iff (by positivity)]
      constructor <;> linarith
    rw [hnt, hh]
    exact hnt

/-- **`trunc_var`** cuts what is below a unit. -/
theorem truncVar_mag (hv : var.Valid) (rs : Int) :
    (truncVar var rs).mag * (10 : ℚ) ^ rs = ⌊var.mag * (10 : ℚ) ^ rs⌋₊ ∧
      (truncVar var rs).Valid := by
  unfold truncVar
  dsimp only
  split
  next hn =>
    refine ⟨?_, by simp [NumericVar.Valid, zeroVar]⟩
    rw [mag_of_digits_nil rfl, zero_mul, mag_mul_pow]
    symm
    rw [cast_eq_zero, floor_eq_zero]
    exact scaled_lt_one hv hn
  rename_i hp
  obtain ⟨D, hD⟩ := Int.eq_ofNat_of_zero_le (not_le.mp hp).le
  rw [hD, (cut_toNat D).1, (cut_toNat D).2]
  split
  next hle =>
    split
    next hdp =>
      obtain ⟨x, hx, hx1, hs⟩ := @scaled_eq var.digits hv ((D + 3) / 4) (4 - D % 4) hle
      obtain ⟨hvl, hdg, hl⟩ := truncDigits_within hv (m := (D + 3) / 4) (by omega) hle hdp
      refine ⟨?_, hdg⟩
      rw [mag_mul_pow, mag_mul_pow, hl, hvl, hD,
        show (D : Int) - 4 * var.digits.length = (4 * ((D + 3) / 4 : Nat) : Int) -
          (4 - D % 4 : Nat) - 4 * var.digits.length by omega, hs, floor_scaled _ hx hx1,
        show (D : Int) - 4 * ((D + 3) / 4 : Nat) = -((4 - D % 4 : Nat) : Int) by omega, zpow_neg,
        zpow_natCast]
      unfold roundPowers
      push_cast
      field_simp
    next hdz =>
      obtain ⟨x, hx, hx1, hs⟩ := @scaled_eq var.digits hv ((D + 3) / 4) 0 hle
      refine ⟨?_, fun d hd => hv d (mem_of_mem_take hd)⟩
      rw [mag_mul_pow, mag_mul_pow, hD]
      rw [length_take, min_eq_left hle,
        show (D : Int) - 4 * var.digits.length = (4 * ((D + 3) / 4 : Nat) : Int) -
          (0 : Nat) - 4 * var.digits.length by omega, hs, floor_scaled _ hx hx1,
        show (D : Int) - 4 * ((D + 3) / 4 : Nat) = 0 by omega]
      simp
  next hk =>
    refine ⟨?_, hv⟩
    obtain ⟨N, hN⟩ := @scaled_eq_nat var _ _ hD (by omega)
    rw [hN, floor_natCast]
    exact hN

/-! ## Values with signs -/

/-- The nearest integer, half a unit away from zero. -/
def roundAway (q : ℚ) : ℚ := if 0 ≤ q then ⌊q + 1 / 2⌋₊ else -⌊-q + 1 / 2⌋₊

def roundZero (q : ℚ) : ℚ := if 0 ≤ q then ⌊q⌋₊ else -⌊-q⌋₊

theorem roundAway_factor (sign : Sign) {m : ℚ} (hm : 0 ≤ m) :
    roundAway (sign.factor * m) = sign.factor * ⌊m + 1 / 2⌋₊ := by
  unfold roundAway
  cases sign with
  | pos => simp [Sign.factor, hm]
  | neg =>
    obtain rfl | hp := hm.eq_or_lt
    · norm_num [Sign.factor]
    · simp [Sign.factor, hp]

theorem roundZero_factor (sign : Sign) {m : ℚ} (hm : 0 ≤ m) :
    roundZero (sign.factor * m) = sign.factor * ⌊m⌋₊ := by
  unfold roundZero
  cases sign with
  | pos => simp [Sign.factor, hm]
  | neg =>
    obtain rfl | hp := hm.eq_or_lt
    · norm_num [Sign.factor]
    · simp [Sign.factor, hp]

theorem roundVar_sign (var : NumericVar) (rs : Int) :
    (roundVar var rs).toRat = var.sign.factor * (roundVar var rs).mag := by
  unfold roundVar
  dsimp only
  split
  · simp [toRat, zeroVar, mag]
  · split <;> rfl

theorem truncVar_sign (var : NumericVar) (rs : Int) :
    (truncVar var rs).toRat = var.sign.factor * (truncVar var rs).mag := by
  unfold truncVar
  dsimp only
  split
  · simp [toRat, zeroVar, mag]
  split
  · split <;> rfl
  · rfl

/-- An `int`. -/
def FitsInt (x : Int) : Prop := -2 ^ 31 ≤ x ∧ x < 2 ^ 31

/-- What `round_var` and `trunc_var` compute from the weight and the scale: `di` and the number of
digits, term by term. -/
def roundInts (weight rscale : Int) : List Int :=
  let di := (weight + 1) * 4 + rscale
  [weight + 1, (weight + 1) * 4, di, di + 3]

theorem roundInts_fit {weight rs : Int} (hw : |weight| ≤ 2 ^ 28) (hr : |rs| ≤ 2 ^ 28) :
    ∀ x ∈ roundInts weight rs, FitsInt x := by
  rw [abs_le] at hw hr
  simp only [roundInts, FitsInt, forall_mem_cons]
  simp only [not_mem_nil, false_implies, implies_true, and_true]
  omega

/-- **Rounding and truncation are exact**, on either side of the decimal point, for weights and scales
up to `2 ^ 28`; up to there, no integer they are computed with leaves its type. -/
theorem roundVar_truncVar_exact (hv : var.Valid) {rs : Int} (hw : |var.weight| ≤ 2 ^ 28)
    (hrs : |rs| ≤ 2 ^ 28) :
    (roundVar var rs).toRat * (10 : ℚ) ^ rs = roundAway (var.toRat * (10 : ℚ) ^ rs) ∧
      (truncVar var rs).toRat * (10 : ℚ) ^ rs = roundZero (var.toRat * (10 : ℚ) ^ rs) ∧
      (roundVar var rs).Valid ∧ (truncVar var rs).Valid ∧
      ∀ x ∈ roundInts var.weight rs, FitsInt x := by
  obtain ⟨hr, hrv⟩ := roundVar_mag hv rs
  obtain ⟨ht, htv⟩ := truncVar_mag hv rs
  have hn : 0 ≤ var.mag * (10 : ℚ) ^ rs := mul_nonneg var.mag_nonneg (zpow_nonneg (by norm_num) _)
  refine ⟨?_, ?_, hrv, htv, roundInts_fit hw hrs⟩
  · rw [roundVar_sign, mul_assoc, hr, toRat, mul_assoc, roundAway_factor _ hn]
  · rw [truncVar_sign, mul_assoc, ht, toRat, mul_assoc, roundZero_factor _ hn]

/-- `-99995` to tens. -/
theorem roundVar_truncVar_exact_tens :
    (roundVar ⟨[9, 9995], 1, .neg, 0⟩ (-1)).toRat * 10 ^ (-1 : Int) =
      roundAway (toRat ⟨[9, 9995], 1, .neg, 0⟩ * 10 ^ (-1 : Int)) :=
  (roundVar_truncVar_exact (by decide) (by decide) (by decide)).1

/-! ## Zeros at the ends -/

theorem valueOf_dropWhile_zero (ds : List Nat) :
    valueOf NBASE (ds.dropWhile (· = 0)) = valueOf NBASE ds := by
  induction ds with
  | nil => rfl
  | cons d ds ih =>
    by_cases hd : d = 0
    · rw [dropWhile_cons_of_pos (by simpa using hd), ih, valueOf_cons, hd, Nat.zero_mul, zero_add]
    · rw [dropWhile_cons_of_neg (by simpa using hd)]

theorem rdropWhile_zero_append (ds : List Nat) :
    ∃ k, ds = ds.rdropWhile (· = 0) ++ List.replicate k 0 := by
  induction ds using List.reverseRecOn with
  | nil => exact ⟨0, by simp⟩
  | append_singleton ds d ih =>
    by_cases hd : d = 0
    · obtain ⟨k, hk⟩ := ih
      refine ⟨k + 1, ?_⟩
      rw [rdropWhile_concat_pos _ _ _ (by simpa using hd), replicate_succ',
        ← append_assoc, ← hk, hd]
    refine ⟨0, ?_⟩
    rw [rdropWhile_concat_neg _ _ _ (by simpa using hd), replicate_zero, append_nil]

theorem mag_append_zeros (digits : List Nat) (k : Nat) (weight : Int) (sign : Sign) (dscale : Int) :
    (NumericVar.mk (digits ++ List.replicate k 0) weight sign dscale).mag =
      (NumericVar.mk digits weight sign dscale).mag := by
  unfold mag
  rw [valueOf_append, valueOf_replicate_zero, add_zero, length_append, length_replicate]
  push_cast
  rw [mul_assoc, ← zpow_natCast, ← zpow_add₀ (by norm_num)]
  congr 2
  ring

theorem mag_dropWhile_zero (digits : List Nat) (weight : Int) (sign : Sign) (dscale : Int) :
    (NumericVar.mk (digits.dropWhile (· = 0))
        (weight - (digits.length - (digits.dropWhile (· = 0)).length)) sign dscale).mag =
      (NumericVar.mk digits weight sign dscale).mag := by
  unfold mag
  rw [valueOf_dropWhile_zero]
  congr 2
  ring

/-- `strip_var` keeps the value. -/
theorem stripVar_toRat (var : NumericVar) : (stripVar var).toRat = var.toRat := by
  unfold stripVar
  dsimp only
  obtain ⟨k, hk⟩ := rdropWhile_zero_append (var.digits.dropWhile (· = 0))
  have hm : (NumericVar.mk ((var.digits.dropWhile (· = 0)).rdropWhile (· = 0))
      (var.weight - (var.digits.length - (var.digits.dropWhile (· = 0)).length)) var.sign
        var.dscale).mag = var.mag := by
    rw [← mag_append_zeros _ k, ← hk, mag_dropWhile_zero]
  split
  next hn =>
    rw [hn, mag_of_digits_nil rfl] at hm
    unfold toRat
    rw [← hm, mag_of_digits_nil rfl, mul_zero, mul_zero]
  · unfold toRat
    rw [hm]

theorem stripVar_valid (hv : var.Valid) : (stripVar var).Valid := by
  have hs : ∀ d ∈ (var.digits.dropWhile (· = 0)).rdropWhile (· = 0), d < NBASE := fun d hd =>
    hv d ((dropWhile_sublist _).subset ((List.rdropWhile_prefix _ _).subset hd))
  unfold stripVar
  dsimp only
  split
  · simp [NumericVar.Valid]
  · exact hs

/-- No zeros at the ends, and zero in one way only. -/
structure NumericVar.Stripped (var : NumericVar) : Prop where
  head : var.digits.head? ≠ some 0
  last : var.digits.getLast? ≠ some 0
  zero : var.digits = [] → var.sign = .pos ∧ var.weight = 0

theorem head?_dropWhile_ne (ds : List Nat) : (ds.dropWhile (· = 0)).head? ≠ some 0 := by
  intro h
  have := head?_dropWhile_not (· = 0) ds
  rw [h] at this
  simp at this

theorem stripVar_stripped (var : NumericVar) : (stripVar var).Stripped := by
  unfold stripVar
  dsimp only
  split
  · exact ⟨by simp, by simp, fun _ => ⟨rfl, rfl⟩⟩
  rename_i hne
  obtain ⟨k, hk⟩ := rdropWhile_zero_append (var.digits.dropWhile (· = 0))
  refine ⟨?_, ?_, fun h => absurd h hne⟩
  · have := head?_dropWhile_ne var.digits
    rw [hk] at this
    intro hh
    rw [head?_append] at this
    exact this (by rw [hh]; rfl)
  intro hl
  have := rdropWhile_last_not (· = 0) (var.digits.dropWhile (· = 0)) hne
  rw [getLast?_eq_getLast_of_ne_nil hne] at hl
  simp [Option.some.inj hl] at this

/-! ## Uniqueness -/

theorem digits_valueOf {ds : List Nat} (hv : ∀ d ∈ ds, d < NBASE) (hh : ds.head? ≠ some 0) :
    Nat.digits NBASE (valueOf NBASE ds) = ds.reverse := by
  refine digits_ofDigits NBASE (by norm_num) _ (fun d hd => hv d (mem_reverse.mp hd)) ?_
  intro hne hl
  apply hh
  rw [getLast_reverse] at hl
  rw [← hl, head?_eq_some_head]

theorem mod_ne_zero_of_last {ds : List Nat} (hv : ∀ d ∈ ds, d < NBASE)
    (hl : ds.getLast? ≠ some 0) (hne : ds ≠ []) : valueOf NBASE ds % NBASE ≠ 0 := by
  obtain ⟨front, last, rfl⟩ := (eq_nil_or_concat' ds).resolve_left hne
  rw [valueOf_concat, mul_add_mod_self_right, mod_eq_of_lt (hv last (by simp))]
  intro h
  exact hl (by simp [h])

theorem mag_pos (hv : var.Valid) (h : var.Stripped) (hne : var.digits ≠ []) : 0 < var.mag := by
  have hm := mod_ne_zero_of_last hv h.last hne
  have hp : 0 < valueOf NBASE var.digits := by
    obtain h0 | h0 := Nat.eq_zero_or_pos (valueOf NBASE var.digits)
    · rw [h0] at hm
      exact absurd rfl hm
    exact h0
  exact mul_pos (by exact_mod_cast hp) (zpow_pos (by norm_num) _)

theorem exponent_le {var' : NumericVar} (hv : var.Valid) (h : var.Stripped)
    (hne : var.digits ≠ []) (hm : var.mag = var'.mag) :
    var'.weight + 1 - var'.digits.length ≤ var.weight + 1 - var.digits.length := by
  by_contra hlt
  obtain ⟨k, hk⟩ : ∃ k : Nat, var'.weight + 1 - (var'.digits.length : Int) =
      var.weight + 1 - var.digits.length + (k + 1 : Nat) := by
    refine ⟨(var'.weight + 1 - var'.digits.length - (var.weight + 1 - var.digits.length) - 1).toNat, ?_⟩
    omega
  unfold mag at hm
  have hB : (NBASE : ℚ) ≠ 0 := by norm_num
  rw [hk, zpow_add₀ hB, zpow_natCast, ← mul_assoc, mul_right_comm] at hm
  have hn := mul_right_cancel₀ (zpow_ne_zero _ hB) hm
  have hn' : valueOf NBASE var.digits = valueOf NBASE var'.digits * NBASE ^ (k + 1) := by
    exact_mod_cast hn
  refine mod_ne_zero_of_last hv h.last hne ?_
  rw [hn', pow_succ, ← mul_assoc, mul_mod_left]

/-- **A stripped variable is fixed by its value and its scale.** -/
theorem NumericVar.Stripped.ext {var var' : NumericVar} (hvl : var.Valid) (hvl' : var'.Valid)
    (h : var.Stripped) (h' : var'.Stripped) (hva : var.toRat = var'.toRat)
    (hsc : var.dscale = var'.dscale) : var = var' := by
  have hz : ∀ v : NumericVar, v.digits = [] → v.toRat = 0 := fun v hv => by
    unfold toRat
    rw [mag_of_digits_nil hv, mul_zero]
  have hnn : ∀ v : NumericVar, v.Valid → v.Stripped → v.digits ≠ [] → v.toRat ≠ 0 := by
    intro v hv hs hne
    refine mul_ne_zero ?_ (mag_pos hv hs hne).ne'
    cases v.sign <;> norm_num [Sign.factor]
  by_cases hnl : var.digits = []
  · have hnl' : var'.digits = [] := by
      by_contra hne
      exact hnn var' hvl' h' hne (hva ▸ hz var hnl)
    obtain ⟨hsg, hw⟩ := h.zero hnl
    obtain ⟨hsg', hw'⟩ := h'.zero hnl'
    cases var
    cases var'
    simp_all
  have hnl' : var'.digits ≠ [] := fun hn => hnn var hvl h hnl (hva.trans (hz var' hn))
  have hp := mag_pos hvl h hnl
  have hp' := mag_pos hvl' h' hnl'
  have hb : var.sign = var'.sign ∧ var.mag = var'.mag := by
    unfold toRat at hva
    cases hs : var.sign <;> cases hs' : var'.sign <;> rw [hs, hs'] at hva <;>
      simp only [Sign.factor] at hva
    · exact ⟨rfl, by linarith⟩
    · linarith
    · linarith
    · exact ⟨rfl, by linarith⟩
  obtain ⟨hsg, hm⟩ := hb
  have he := le_antisymm (exponent_le hvl' h' hnl' hm.symm) (exponent_le hvl h hnl hm)
  have hd : var.digits = var'.digits := by
    unfold mag at hm
    rw [he] at hm
    have hB : (NBASE : ℚ) ≠ 0 := by norm_num
    have hnt : valueOf NBASE var.digits = valueOf NBASE var'.digits := by
      exact_mod_cast mul_right_cancel₀ (zpow_ne_zero _ hB) hm
    have := congrArg (Nat.digits NBASE) hnt
    rw [digits_valueOf hvl h.head, digits_valueOf hvl' h'.head] at this
    exact reverse_injective this
  cases var
  cases var'
  simp_all

end AthenaPG.Numeric
