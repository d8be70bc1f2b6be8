import Mathlib.Tactic.LinearCombination
import AthenaPG.Utils.Numeric

/-!
Multiplication of numeric variables (`mul_var` in `src/backend/utils/adt/numeric.c`).

The products of digits are added up in an array of integers, and carries are only propagated when a
bound says that an integer might overflow.  Digits that would only contribute to the right of two
guard digits are left out.

* `mulRow`, `mulLoop`, `mulVar`: one digit of the shorter operand, all of them, and `mul_var`;
* `RowInv`, `mulLoop_inv`: the sum so far, and the bound on the entries of the array;
* `mulOrdered_rounds`: the product up to the digits left out, rounded;
* **`mulVar_close`**: the product is exact, or off by less than a unit, where the shorter operand has
  at most 5000 digits; **`mulVar_far`**: for longer ones it is neither.
-/

namespace AthenaPG

open List (replicate)
namespace Numeric
open List Nat NumericVar

open DigitLists

/-! ## The function -/

abbrev INTMAX : Nat := 2147483647

/-- `dig` and `maxdig`. -/
structure MulState where
  dig : List Nat
  maxdig : Nat

/-- The pass that propagates carries, the least significant digit first. -/
def propagate : List Nat → Nat → List Nat
  | [], _ => []
  | d :: ds, carry =>
    if NBASE ≤ d + carry then
      (d + carry - (d + carry) / NBASE * NBASE) :: propagate ds ((d + carry) / NBASE)
    else (d + carry) :: propagate ds 0

/-- A multiple of some digits is added to the array from an index on, as far as it goes. -/
def addRow (factor : Nat) : Nat → List Nat → List Nat → List Nat
  | _, [], _ => []
  | offset + 1, x :: xs, ds => x :: addRow factor offset xs ds
  | 0, x :: xs, [] => x :: xs
  | 0, x :: xs, d :: ds => (x + factor * d) :: addRow factor 0 xs ds

/-- The digit of `var1` at an index times `var2`. -/
def mulRow (digits1 digits2 : List Nat) (state : MulState) (i1 : Nat) : MulState :=
  let digit := digits1.getD i1 0
  if digit = 0 then state
  else if (INTMAX - INTMAX / NBASE) / (NBASE - 1) < state.maxdig + digit then
    ⟨addRow digit (i1 + 2) (propagate state.dig.reverse 0).reverse digits2, 1 + digit⟩
  else ⟨addRow digit (i1 + 2) state.dig digits2, state.maxdig + digit⟩

/-- The outer loop, for the indexes below some bound, from the last one on. -/
def mulLoop (digits1 digits2 : List Nat) : Nat → MulState → MulState
  | 0, state => state
  | i1 + 1, state => mulLoop digits1 digits2 i1 (mulRow digits1 digits2 state i1)

/-- `res_ndigits`. -/
def mulNdigits (n1 n2 : Nat) (resWeight : Int) (rscale : Nat) : Int :=
  min (n1 + n2 + 1 : Int) (resWeight + 1 + (rscale + 3) / 4 + 2)

variable (var1 var2 : NumericVar)

/-- `mul_var` for operands of which the first is not longer than the second. -/
def mulOrdered (rscale : Nat) : NumericVar :=
  if var1.digits = [] ∨ var2.digits = [] then zeroVar rscale
  else
    let resSign := if var1.sign = var2.sign then Sign.pos else .neg
    let resWeight := var1.weight + var2.weight + 2
    let resNdigits := mulNdigits var1.digits.length var2.digits.length resWeight rscale
    if resNdigits < 3 then zeroVar rscale
    else
      let state := mulLoop var1.digits var2.digits
        (min var1.digits.length (resNdigits.toNat - 2)) ⟨replicate resNdigits.toNat 0, 0⟩
      stripVar (roundVar ⟨(propagate state.dig.reverse 0).reverse, resWeight, resSign, 0⟩ rscale)

/-- The operands are only read before the result is stored, so that it may be one of them. -/
def mulVar (rscale : Nat) : NumericVar :=
  if var2.digits.length < var1.digits.length then mulOrdered var2 var1 rscale
  else mulOrdered var1 var2 rscale

/-! ## Carries and rows -/

theorem propagate_spec (ds : List Nat) (cy : Nat) :
    Nat.ofDigits NBASE (propagate ds cy) = (Nat.ofDigits NBASE ds + cy) % NBASE ^ ds.length ∧
      (∀ x ∈ propagate ds cy, x < NBASE) ∧ (propagate ds cy).length = ds.length := by
  induction ds generalizing cy with
  | nil => simp [propagate, mod_one]
  | cons d ds ih =>
    have hdm := div_add_mod (d + cy) NBASE
    have hc := mul_comm NBASE ((d + cy) / NBASE)
    have hp : propagate (d :: ds) cy =
        (d + cy) % NBASE :: propagate ds ((d + cy) / NBASE) := by
      rw [propagate]
      split
      · congr 1
        omega
      next hlt => rw [mod_eq_of_lt (by omega), div_eq_of_lt (by omega)]
    obtain ⟨hv, hlt, hl⟩ := ih ((d + cy) / NBASE)
    rw [hp]
    refine ⟨?_, forall_mem_cons.mpr ⟨mod_lt _ (by norm_num), hlt⟩, by simp [hl]⟩
    have hs : d + NBASE * Nat.ofDigits NBASE ds + cy =
        (d + cy) + NBASE * Nat.ofDigits NBASE ds := by ring
    rw [ofDigits_cons, ofDigits_cons, hv, length_cons, pow_succ', mod_mul, hs,
      add_mul_mod_self_left, add_mul_div_left _ _ (by norm_num), add_comm ((d + cy) / NBASE)]

theorem propagate_reverse {dig : List Nat} (hf : valueOf NBASE dig < NBASE ^ dig.length) :
    valueOf NBASE (propagate dig.reverse 0).reverse = valueOf NBASE dig ∧
      (∀ x ∈ (propagate dig.reverse 0).reverse, x < NBASE) ∧
      (propagate dig.reverse 0).reverse.length = dig.length := by
  obtain ⟨hv, hlt, hl⟩ := propagate_spec dig.reverse 0
  refine ⟨?_, fun x hx => hlt x (mem_reverse.mp hx), by rw [length_reverse, hl, length_reverse]⟩
  rw [valueOf_reverse, hv, add_zero, length_reverse]
  exact mod_eq_of_lt hf

@[simp] theorem length_addRow (factor offset : Nat) (dig ds : List Nat) :
    (addRow factor offset dig ds).length = dig.length := by
  induction dig generalizing offset ds with
  | nil => simp [addRow]
  | cons x xs ih =>
    cases offset with
    | succ offset => simp [addRow, ih]
    | zero => cases ds <;> simp [addRow, ih]

variable {ds ds2 : List Nat}

theorem valueOf_addRow (factor : Nat) {offset : Nat} {dig : List Nat} (hds : ∀ d ∈ ds, d < NBASE) :
    valueOf NBASE (addRow factor offset dig ds) =
      valueOf NBASE dig + factor * leading NBASE (dig.length - offset) ds := by
  induction dig generalizing offset ds with
  | nil => simp [addRow, leading_zero (by norm_num) hds]
  | cons x xs ih =>
    cases offset with
    | succ offset =>
      rw [addRow, valueOf_cons, valueOf_cons, ih hds, length_addRow, length_cons,
        Nat.add_sub_add_right]
      ring
    | zero =>
      cases ds with
      | nil => simp [addRow, leading_nil]
      | cons d ds =>
        rw [addRow, valueOf_cons, valueOf_cons, ih fun y hy => hds y (mem_cons_of_mem _ hy),
          length_addRow, length_cons, Nat.sub_zero, Nat.sub_zero, leading_cons (by norm_num)]
        ring

theorem addRow_le {factor bound : Nat} {offset : Nat} {dig ds : List Nat}
    (hds : ∀ d ∈ ds, d < NBASE) (hdg : ∀ x ∈ dig, x ≤ bound) :
    ∀ x ∈ addRow factor offset dig ds, x ≤ bound + factor * (NBASE - 1) := by
  induction dig generalizing offset ds with
  | nil => simp [addRow]
  | cons x xs ih =>
    have hx := hdg x mem_cons_self
    have hxs : ∀ y ∈ xs, y ≤ bound := fun y hy => hdg y (mem_cons_of_mem _ hy)
    intro y hy
    cases offset with
    | succ offset =>
      obtain rfl | hy := mem_cons.mp hy
      · omega
      · exact ih hds hxs y hy
    | zero =>
      cases ds with
      | nil => exact (hdg y hy).trans (le_add_right _ _)
      | cons d ds =>
        obtain heq | hy := mem_cons.mp hy
        · have hd := hds d mem_cons_self
          have : factor * d ≤ factor * (NBASE - 1) := mul_le_mul_left _ (by omega)
          omega
        exact ih (fun z hz => hds z (mem_cons_of_mem _ hz)) hxs y hy

/-! ## The loop -/

section Loop

variable {ds1 ds2 : List Nat}

/-- The sum of the rows for some digits, the first of which reaches `k` digits of the other operand. -/
def rowSum (digits2 : List Nat) : Int → List Nat → Nat
  | _, [] => 0
  | k, d :: ds => d * leading NBASE k.toNat digits2 + rowSum digits2 (k - 1) ds

section

variable (h2 : ∀ d ∈ ds2, d < NBASE)
include h2

theorem leading_lt (k : Nat) : leading NBASE k ds2 < NBASE ^ k := by
  refine Nat.div_lt_of_lt_mul ?_
  exact mul_lt_mul_of_pos_right (valueOf_lt (by norm_num) h2) (by positivity)

theorem rowSum_eq_zero {k : Int} (hk : k ≤ 0) (ds : List Nat) : rowSum ds2 k ds = 0 := by
  induction ds generalizing k with
  | nil => rfl
  | cons d ds ih =>
    rw [rowSum, ih (by omega), Int.toNat_of_nonpos hk, leading_zero (by norm_num) h2, Nat.mul_zero]

theorem rowSum_lt {ds : List Nat} (hds : ∀ d ∈ ds, d < NBASE)
    (k : Nat) : rowSum ds2 k ds < NBASE ^ (k + 1) := by
  induction ds generalizing k with
  | nil =>
    rw [rowSum]
    positivity
  | cons d ds ih =>
    cases k with
    | zero =>
      rw [rowSum_eq_zero h2 (by simp)]
      positivity
    | succ k =>
      have hr := ih (fun x hx => hds x (mem_cons_of_mem _ hx)) k
      have hd := hds d mem_cons_self
      have hl := leading_lt h2 (k + 1)
      have hp : d * leading NBASE (k + 1) ds2 ≤ (NBASE - 1) * NBASE ^ (k + 1) :=
        Nat.mul_le_mul (by omega) hl.le
      have hpw : (NBASE - 1) * NBASE ^ (k + 1) + NBASE ^ (k + 1) = NBASE ^ (k + 1 + 1) := by
        rw [pow_succ NBASE (k + 1)]
        ring
      rw [rowSum, show ((k + 1 : Nat) : Int) - 1 = (k : Nat) by push_cast; ring, Int.toNat_natCast]
      omega

end

/-- What holds when the rows from an index on have been added. -/
structure RowInv (digits1 digits2 : List Nat) (res i : Nat) (state : MulState) : Prop where
  length : state.dig.length = res
  value : valueOf NBASE state.dig = rowSum digits2 ((res : Int) - 2 - i) (digits1.drop i)
  bound : ∀ x ∈ state.dig, x ≤ state.maxdig * (NBASE - 1)
  maxdig : state.maxdig ≤ (INTMAX - INTMAX / NBASE) / (NBASE - 1)

variable {res i : Nat} {state : MulState}

theorem RowInv.le_intMax (h : RowInv ds1 ds2 res i state) :
    ∀ x ∈ state.dig, x ≤ INTMAX - INTMAX / NBASE := fun x hx =>
  (h.bound x hx).trans ((mul_le_mul_right _ h.maxdig).trans (div_mul_le_self _ _))

theorem RowInv.fits (h1 : ∀ d ∈ ds1, d < NBASE) (h2 : ∀ d ∈ ds2, d < NBASE)
    (h : RowInv ds1 ds2 res i state) (hi : i + 2 ≤ res) :
    valueOf NBASE state.dig < NBASE ^ state.dig.length := by
  have := rowSum_lt h2 (fun d hd => h1 d (mem_of_mem_drop (i := i) hd)) (res - 2 - i)
  rw [h.value, h.length, show (res : Int) - 2 - i = (res - 2 - i : Nat) by omega]
  exact this.trans_le (Nat.pow_le_pow_right (by norm_num) (by omega))

theorem mulRow_inv (h1 : ∀ d ∈ ds1, d < NBASE) (h2 : ∀ d ∈ ds2, d < NBASE)
    (hi : i + 3 ≤ res) (hlt : i < ds1.length) (h : RowInv ds1 ds2 res (i + 1) state) :
    RowInv ds1 ds2 res i (mulRow ds1 ds2 state i) := by
  have hdr : ds1.drop i = ds1.getD i 0 :: ds1.drop (i + 1) := by
    rw [getD_eq_getElem _ _ hlt]
    exact drop_eq_getElem_cons hlt
  have hs : rowSum ds2 ((res : Int) - 2 - i) (ds1.drop i) =
      rowSum ds2 ((res : Int) - 2 - (i + 1 : Nat)) (ds1.drop (i + 1)) +
        ds1.getD i 0 * leading NBASE (res - (i + 2)) ds2 := by
    rw [hdr, rowSum, show ((res : Int) - 2 - i).toNat = res - (i + 2) by omega,
      show (res : Int) - 2 - i - 1 = (res : Int) - 2 - (i + 1 : Nat) by push_cast; ring, add_comm]
  have hdg := getD_lt h1 i
  unfold mulRow
  dsimp only
  split
  next hz =>
    refine ⟨h.length, ?_, h.bound, h.maxdig⟩
    rw [hs, hz, Nat.zero_mul, add_zero]
    exact h.value
  split
  · -- carries are propagated first
    obtain ⟨hv, hd, hl⟩ := propagate_reverse (h.fits h1 h2 (by omega))
    refine ⟨by rw [length_addRow, hl, h.length], ?_, ?_, ?_⟩
    · rw [valueOf_addRow _ h2, hv, hl, h.length, h.value, hs]
    · intro x hx
      have := @addRow_le _ (NBASE - 1) _ _ _ h2 (fun y hy => by have := hd y hy; omega) x hx
      rw [add_mul, one_mul]
      exact this
    dsimp only
    have : (INTMAX - INTMAX / NBASE) / (NBASE - 1) = 214748 := by norm_num
    rw [this]
    change ds1.getD i 0 < 10000 at hdg
    omega
  next hm =>
    refine ⟨by rw [length_addRow, h.length], ?_, ?_, by dsimp only; omega⟩
    · rw [valueOf_addRow _ h2, h.length, h.value, hs]
    intro x hx
    rw [add_mul]
    exact addRow_le h2 h.bound x hx

def mulStates (digits1 digits2 : List Nat) : Nat → MulState → List MulState
  | 0, state => [state]
  | i1 + 1, state => state :: mulStates digits1 digits2 i1 (mulRow digits1 digits2 state i1)

/-- **The whole loop.** -/
theorem mulLoop_inv (h1 : ∀ d ∈ ds1, d < NBASE) (h2 : ∀ d ∈ ds2, d < NBASE) {m : Nat}
    (hm : m + 2 ≤ res) (hl : m ≤ ds1.length) (h : RowInv ds1 ds2 res m state) :
    RowInv ds1 ds2 res 0 (mulLoop ds1 ds2 m state) ∧
      ∀ s ∈ mulStates ds1 ds2 m state, ∀ x ∈ s.dig, x ≤ INTMAX - INTMAX / NBASE := by
  induction m generalizing state with
  | zero =>
    refine ⟨h, fun s hs => ?_⟩
    rw [mem_singleton.mp hs]
    exact h.le_intMax
  | succ m ih =>
    obtain ⟨hd, hb⟩ := ih (by omega) (by omega) (mulRow_inv h1 h2 (by omega) (by omega) h)
    refine ⟨hd, fun s hs => ?_⟩
    obtain rfl | hs := mem_cons.mp hs
    · exact h.le_intMax
    · exact hb s hs

theorem rowInv_start (h2 : ∀ d ∈ ds2, d < NBASE) {res : Nat} (hr : 2 ≤ res) :
    RowInv ds1 ds2 res (min ds1.length (res - 2)) ⟨replicate res 0, 0⟩ := by
  refine ⟨length_replicate, ?_, fun x hx => ?_, zero_le _⟩
  · rw [valueOf_replicate_zero]
    obtain hle | hle := le_total ds1.length (res - 2)
    · rw [min_eq_left hle, drop_length, rowSum]
    · rw [min_eq_right hle, rowSum_eq_zero h2 (by omega)]
  rw [eq_of_mem_replicate hx]
  exact zero_le _

end Loop

def propagateSums : List Nat → Nat → List Nat
  | [], _ => []
  | d :: ds, carry => (d + carry) :: propagateSums ds ((d + carry) / NBASE)

theorem propagateSums_le (hds : ∀ d ∈ ds, d ≤ INTMAX - INTMAX / NBASE) {cy : Nat}
    (hc : cy ≤ INTMAX / NBASE) : ∀ x ∈ propagateSums ds cy, x ≤ INTMAX := by
  induction ds generalizing cy with
  | nil => simp [propagateSums]
  | cons d ds ih =>
    have hd := hds d mem_cons_self
    have hle : INTMAX / NBASE ≤ INTMAX := div_le_self _ _
    have hs : d + cy ≤ INTMAX := by omega
    intro x hx
    obtain rfl | hx := mem_cons.mp hx
    · exact hs
    · exact ih (fun y hy => hds y (mem_cons_of_mem _ hy)) (Nat.div_le_div_right hs) x hx

/-! ## The value of the product -/

theorem Bq_ne : (NBASE : ℚ) ≠ 0 := by norm_num

/-- The exact product of the digits, in the unit of the last digit that is computed. -/
def exactSum (digits2 : List Nat) (k : Int) (ds : List Nat) : ℚ :=
  valueOf NBASE ds * (valueOf NBASE digits2 *
    ((NBASE : Nat) : ℚ) ^ (k + 1 - ds.length - digits2.length))

theorem exactSum_cons (ds2 : List Nat) (k : Int) (d : Nat) (ds : List Nat) :
    exactSum ds2 k (d :: ds) =
      d * (valueOf NBASE ds2 * (NBASE : ℚ) ^ (k - ds2.length)) +
        exactSum ds2 (k - 1) ds := by
  unfold exactSum
  have he : k - (ds2.length : Int) =
      (k + 1 - ((d :: ds).length : Nat) - ds2.length) + (ds.length : Nat) := by
    push_cast [length_cons]
    ring
  have he' : k - 1 + 1 - (ds.length : Int) - ds2.length =
      k + 1 - ((d :: ds).length : Nat) - ds2.length := by
    push_cast [length_cons]
    ring
  rw [he', he, zpow_add₀ Bq_ne, zpow_natCast, valueOf_cons]
  push_cast
  ring

section

variable (h2 : ∀ d ∈ ds2, d < NBASE)
include h2

theorem leading_eq_floor (k : Int) :
    leading NBASE k.toNat ds2 =
      ⌊(valueOf NBASE ds2 : ℚ) * (NBASE : ℚ) ^ (k - ds2.length)⌋₊ := by
  obtain hk | hk := Int.le_total 0 k
  · obtain ⟨n, rfl⟩ := Int.eq_ofNat_of_zero_le hk
    unfold leading
    rw [Int.toNat_natCast, ← @floor_div_eq_div ℚ, zpow_sub₀ Bq_ne, zpow_natCast, zpow_natCast]
    congr 1
    push_cast
    ring
  rw [Int.toNat_of_nonpos hk, leading_zero (by norm_num) h2]
  symm
  rw [floor_eq_zero]
  have hlt : (valueOf NBASE ds2 : ℚ) < (NBASE : ℚ) ^ ds2.length := by
    exact_mod_cast @valueOf_lt NBASE (by norm_num) ds2 h2
  have hp : (0 : ℚ) < (NBASE : ℚ) ^ (k - ds2.length) := zpow_pos (by norm_num) _
  calc _ < (NBASE : ℚ) ^ ds2.length * (NBASE : ℚ) ^ (k - ds2.length) :=
        mul_lt_mul_of_pos_right hlt hp
    _ = (NBASE : ℚ) ^ k := by
        rw [← zpow_natCast, ← zpow_add₀ Bq_ne]
        congr 1
        ring
    _ ≤ 1 := zpow_le_one_of_nonpos₀ (by norm_num) hk

theorem rowSum_error (k : Int) (hds : ∀ d ∈ ds, d < NBASE) :
    (rowSum ds2 k ds : ℚ) ≤ exactSum ds2 k ds ∧
      exactSum ds2 k ds ≤ rowSum ds2 k ds + ds.length * 9999 := by
  induction ds generalizing k with
  | nil => simp [rowSum, exactSum]
  | cons d ds ih =>
    obtain ⟨hle, hge⟩ := ih (k - 1) fun x hx => hds x (mem_cons_of_mem _ hx)
    have hd : (d : ℚ) ≤ 9999 := by
      have : d < 10000 := hds d mem_cons_self
      exact_mod_cast (show d ≤ 9999 by omega)
    rw [exactSum_cons, rowSum, leading_eq_floor h2]
    have hn : (0 : ℚ) ≤ valueOf NBASE ds2 * (NBASE : ℚ) ^ (k - ds2.length) :=
      mul_nonneg (cast_nonneg _) (zpow_nonneg (cast_nonneg _) _)
    obtain ⟨f, hf⟩ : ∃ f : ℚ, valueOf NBASE ds2 * (NBASE : ℚ) ^ (k - ds2.length) = f := ⟨_, rfl⟩
    rw [hf] at hn ⊢
    have hfl := floor_le hn
    have hlt := lt_floor_add_one f
    push_cast [length_cons]
    constructor
    · nlinarith
    · nlinarith

theorem rowSum_exact {k : Int} (hk : (ds.length : Int) + ds2.length ≤ k + 1) :
    (rowSum ds2 k ds : ℚ) = exactSum ds2 k ds := by
  induction ds generalizing k with
  | nil => simp [rowSum, exactSum]
  | cons d ds ih =>
    rw [length_cons] at hk
    rw [exactSum_cons, rowSum, leading_eq_floor h2]
    have he : k - (ds2.length : Int) = ((k - ds2.length).toNat : Nat) := by omega
    have hn : (valueOf NBASE ds2 : ℚ) * (NBASE : ℚ) ^ (k - ds2.length) =
        ((valueOf NBASE ds2 * NBASE ^ (k - ds2.length).toNat : Nat) : ℚ) := by
      rw [he, zpow_natCast, Int.toNat_natCast]
      push_cast
      rfl
    rw [hn, floor_natCast]
    push_cast [ih (k := k - 1) (by push_cast at hk; omega)]
    ring

end

theorem mag_mul_mag (res : Int) :
    var1.mag * var2.mag = exactSum var2.digits (res - 2) var1.digits *
      (NBASE : ℚ) ^ (var1.weight + var2.weight + 2 + 1 - res) := by
  unfold mag exactSum
  rw [mul_mul_mul_comm, ← zpow_add₀ Bq_ne, mul_assoc (valueOf NBASE var1.digits : ℚ),
    mul_assoc (valueOf NBASE var1.digits : ℚ), mul_assoc (valueOf NBASE var2.digits : ℚ),
    ← zpow_add₀ Bq_ne]
  congr 3
  ring

section Product

variable {var1 var2 : NumericVar}

def computedMag (var1 var2 : NumericVar) (res : Int) : ℚ :=
  rowSum var2.digits (res - 2) var1.digits *
    ((NBASE : Nat) : ℚ) ^ (var1.weight + var2.weight + 2 + 1 - res)

theorem mulOrdered_rounds (h1 : var1.Valid) (h2 : var2.Valid) (hne1 : var1.digits ≠ [])
    (hne2 : var2.digits ≠ []) {rs : Nat} {res : Int}
    (hr : mulNdigits var1.digits.length var2.digits.length (var1.weight + var2.weight + 2) rs =
      res) (ht : 3 ≤ res) :
    (mulOrdered var1 var2 rs).toRat * (10 : ℚ) ^ rs =
        (if var1.sign = var2.sign then Sign.pos else .neg).factor *
          ⌊computedMag var1 var2 res * (10 : ℚ) ^ rs + 1 / 2⌋₊ ∧
      ∀ s ∈ mulStates var1.digits var2.digits (min var1.digits.length (res.toNat - 2))
        ⟨replicate res.toNat 0, 0⟩, ∀ x ∈ s.dig, x ≤ INTMAX - INTMAX / NBASE := by
  obtain ⟨n, rfl⟩ := Int.eq_ofNat_of_zero_le (show 0 ≤ res by omega)
  have hst := @rowInv_start var1.digits var2.digits h2 n (by omega)
  obtain ⟨hi, hs⟩ := mulLoop_inv h1 h2 (by omega) (min_le_left _ _) hst
  rw [Int.toNat_natCast]
  refine ⟨?_, hs⟩
  unfold mulOrdered
  rw [if_neg (by simp [hne1, hne2])]
  dsimp only
  rw [hr, if_neg (by omega), Int.toNat_natCast, stripVar_toRat]
  obtain ⟨hv, hd, hl⟩ := propagate_reverse (hi.fits h1 h2 (by omega))
  rw [hi.length] at hl
  have hvr : (mk (propagate (mulLoop var1.digits var2.digits
      (min var1.digits.length (n - 2)) ⟨replicate n 0, 0⟩).dig.reverse 0).reverse
      (var1.weight + var2.weight + 2) (if var1.sign = var2.sign then Sign.pos else .neg) 0).Valid :=
    hd
  rw [← zpow_natCast, roundVar_sign, mul_assoc, (roundVar_mag hvr rs).1]
  congr 4
  unfold mag computedMag
  rw [hv, hi.value, hl, drop_zero]
  simp

theorem computedMag_error (h1 : var1.Valid) (h2 : var2.Valid) {rs : Nat} {res : Int}
    (hr : mulNdigits var1.digits.length var2.digits.length (var1.weight + var2.weight + 2) rs =
      res) :
    0 ≤ (var1.mag * var2.mag - computedMag var1 var2 res) * (10 : ℚ) ^ rs ∧
      (var1.mag * var2.mag - computedMag var1 var2 res) * (10 : ℚ) ^ rs ≤
        var1.digits.length * (9999 / 100000000) ∧
      ((var1.digits.length + var2.digits.length : Int) ≤
          var1.weight + var2.weight + 4 + (rs + 3) / 4 →
        var1.mag * var2.mag = computedMag var1 var2 res) := by
  obtain ⟨hle, hge⟩ := rowSum_error h2 (res - 2) h1
  have hp : (0 : ℚ) < (NBASE : ℚ) ^ (var1.weight + var2.weight + 2 + 1 - res) :=
    zpow_pos (by norm_num) _
  have ht : (0 : ℚ) < (10 : ℚ) ^ rs := by positivity
  have he : (var1.digits.length + var2.digits.length : Int) ≤
      var1.weight + var2.weight + 4 + (rs + 3) / 4 →
        var1.mag * var2.mag = computedMag var1 var2 res := by
    intro hw
    unfold mulNdigits at hr
    rw [mag_mul_mag var1 var2 res, computedMag, rowSum_exact h2 (by omega)]
  refine ⟨?_, ?_, he⟩
  · rw [mag_mul_mag var1 var2 res, computedMag, ← sub_mul]
    exact mul_nonneg (mul_nonneg (by linarith) hp.le) ht.le
  by_cases hw : (var1.digits.length + var2.digits.length : Int) ≤
      var1.weight + var2.weight + 4 + (rs + 3) / 4
  · rw [he hw, sub_self, zero_mul]
    positivity
  -- the last digit is the second guard digit
  have hu : var1.weight + var2.weight + 2 + 1 - res = -(((rs + 3) / 4 + 2 : Nat) : Int) := by
    unfold mulNdigits at hr
    omega
  have hs : (NBASE : ℚ) ^ (var1.weight + var2.weight + 2 + 1 - res) *
      (10 : ℚ) ^ rs ≤ 1 / 100000000 := by
    rw [hu, zpow_neg, zpow_natCast, pow_add]
    have hc : (10 : ℚ) ^ rs ≤ (NBASE : ℚ) ^ ((rs + 3) / 4) := by
      have : (NBASE : ℚ) = 10 ^ 4 := by norm_num
      rw [this, ← pow_mul]
      exact pow_le_pow_right₀ (by norm_num) (by omega)
    have hP : (0 : ℚ) < (NBASE : ℚ) ^ ((rs + 3) / 4) := by positivity
    rw [mul_inv, mul_assoc, inv_mul_le_iff₀ hP]
    linarith
  rw [mag_mul_mag var1 var2 res, computedMag, ← sub_mul, mul_assoc]
  calc _ ≤ (var1.digits.length * 9999 : ℚ) * (1 / 100000000) := by
        refine mul_le_mul (by linarith) hs (by positivity) (by positivity)
    _ = _ := by ring

end Product

/-! ## How close the product is -/

section Close

variable {var1 var2 : NumericVar}

theorem product_sign (var1 var2 : NumericVar) :
    var1.toRat * var2.toRat =
      (if var1.sign = var2.sign then Sign.pos else .neg).factor * (var1.mag * var2.mag) := by
  unfold toRat
  cases var1.sign <;> cases var2.sign <;> simp [Sign.factor]

theorem abs_factor (sign : Sign) (q : ℚ) : |sign.factor * q| = |q| := by
  cases sign <;> simp [Sign.factor]

theorem floor_half_near {m p e : ℚ} (hm : 0 ≤ m) (hle : 0 ≤ p - m) (hge : p - m ≤ e) :
    |(⌊m + 1 / 2⌋₊ : ℚ) - p| ≤ 1 / 2 + e ∧
      (e < 1 / 2 → ∀ N : Int, p = N → (⌊m + 1 / 2⌋₊ : ℚ) = p) := by
  have hf := floor_le (show 0 ≤ m + 1 / 2 by linarith)
  have hlt := lt_floor_add_one (m + 1 / 2)
  refine ⟨by rw [abs_le]; constructor <;> linarith, fun he N hN => ?_⟩
  have h1 : ((⌊m + 1 / 2⌋₊ : Int) : ℚ) < (N : ℚ) + 1 := by
    push_cast
    linarith
  have h2 : (N : ℚ) < ((⌊m + 1 / 2⌋₊ : Int) : ℚ) + 1 := by
    push_cast
    linarith
  have h3 : (⌊m + 1 / 2⌋₊ : Int) < N + 1 := by exact_mod_cast h1
  have h4 : N < (⌊m + 1 / 2⌋₊ : Int) + 1 := by exact_mod_cast h2
  have h5 : (⌊m + 1 / 2⌋₊ : Int) = N := by omega
  rw [hN, ← h5]
  rfl

/-- The states of the loop of `mul_var`, if it gets there. -/
def orderedStates (var1 var2 : NumericVar) (rscale : Nat) : List MulState :=
  let res := mulNdigits var1.digits.length var2.digits.length (var1.weight + var2.weight + 2) rscale
  if var1.digits = [] ∨ var2.digits = [] ∨ res < 3 then []
  else mulStates var1.digits var2.digits (min var1.digits.length (res.toNat - 2))
    ⟨replicate res.toNat 0, 0⟩

theorem product_small (h1 : var1.Valid) (h2 : var2.Valid) {rs : Nat}
    (hs : var1.weight + var2.weight + 2 + (rs + 3) / 4 ≤ -1) :
    var1.mag * var2.mag * (10 : ℚ) ^ rs ≤ 1 / 10000 := by
  have hm : ∀ v : NumericVar, v.Valid → v.mag ≤ (NBASE : ℚ) ^ (v.weight + 1) := by
    intro v hv
    have hlt : (valueOf NBASE v.digits : ℚ) ≤ (NBASE : ℚ) ^ (v.digits.length : Int) := by
      rw [zpow_natCast]
      exact_mod_cast (@valueOf_lt NBASE (by norm_num) v.digits hv).le
    calc _ ≤ (NBASE : ℚ) ^ (v.digits.length : Int) *
          (NBASE : ℚ) ^ (v.weight + 1 - v.digits.length) :=
          mul_le_mul_of_nonneg_right hlt (zpow_nonneg (cast_nonneg _) _)
      _ = _ := by
          rw [← zpow_add₀ Bq_ne]
          congr 1
          ring
  have ht : (10 : ℚ) ^ rs ≤ (NBASE : ℚ) ^ (((rs + 3) / 4 : Nat) : Int) := by
    have : (NBASE : ℚ) = 10 ^ 4 := by norm_num
    rw [zpow_natCast, this, ← pow_mul]
    exact pow_le_pow_right₀ (by norm_num) (by omega)
  have hB : ∀ z : Int, (0 : ℚ) ≤ (NBASE : ℚ) ^ z := fun z => zpow_nonneg (cast_nonneg _) _
  calc var1.mag * var2.mag * (10 : ℚ) ^ rs
      ≤ (NBASE : ℚ) ^ (var1.weight + 1) * (NBASE : ℚ) ^ (var2.weight + 1) *
          (NBASE : ℚ) ^ (((rs + 3) / 4 : Nat) : Int) :=
        mul_le_mul (mul_le_mul (hm var1 h1) (hm var2 h2) var2.mag_nonneg (hB _)) ht
          (by positivity) (mul_nonneg (hB _) (hB _))
    _ = (NBASE : ℚ) ^ (var1.weight + 1 + (var2.weight + 1) + ((rs + 3) / 4 : Nat)) := by
        rw [← zpow_add₀ Bq_ne, ← zpow_add₀ Bq_ne]
    _ ≤ (NBASE : ℚ) ^ (-1 : Int) := zpow_le_zpow_right₀ (by norm_num) (by push_cast; omega)
    _ = 1 / 10000 := by norm_num

theorem mulOrdered_close (h1 : var1.Valid) (h2 : var2.Valid) (rs : Nat) :
    |(mulOrdered var1 var2 rs).toRat - var1.toRat * var2.toRat| * (10 : ℚ) ^ rs ≤
        1 / 2 + var1.digits.length * (9999 / 100000000) ∧
      (var1.digits.length ≤ 5000 ∨ (var1.digits.length + var2.digits.length : Int) ≤
          var1.weight + var2.weight + 4 + (rs + 3) / 4 →
        ∀ N : Int, var1.toRat * var2.toRat * (10 : ℚ) ^ rs = N →
          (mulOrdered var1 var2 rs).toRat = var1.toRat * var2.toRat) ∧
      ∀ s ∈ orderedStates var1 var2 rs, ∀ x ∈ s.dig, x ≤ INTMAX - INTMAX / NBASE := by
  have ht : (0 : ℚ) < (10 : ℚ) ^ rs := by positivity
  by_cases hnl : var1.digits = [] ∨ var2.digits = []
  · -- a product with zero
    have hz : var1.toRat * var2.toRat = 0 := by
      obtain h | h := hnl
      · rw [toRat_of_digits_nil h, zero_mul]
      · rw [toRat_of_digits_nil h, mul_zero]
    have hr : (mulOrdered var1 var2 rs).toRat = 0 := by
      unfold mulOrdered
      rw [if_pos hnl]
      exact toRat_of_digits_nil rfl
    refine ⟨by rw [hz, hr]; norm_num; linarith, fun _ N _ => by rw [hz, hr], ?_⟩
    unfold orderedStates
    rw [if_pos (by tauto)]
    simp
  obtain ⟨hne1, hne2⟩ := not_or.mp hnl
  obtain ⟨res, hrs⟩ : ∃ res, mulNdigits var1.digits.length var2.digits.length
    (var1.weight + var2.weight + 2) rs = res := ⟨_, rfl⟩
  by_cases hth : res < 3
  · -- nothing is computed
    have hn1 := length_pos_iff.mpr hne1
    have hn2 := length_pos_iff.mpr hne2
    have hsm := @product_small var1 var2 h1 h2 rs (by unfold mulNdigits at hrs; omega)
    have hnn := mul_nonneg (mul_nonneg var1.mag_nonneg var2.mag_nonneg) ht.le
    have hr : (mulOrdered var1 var2 rs).toRat = 0 := by
      unfold mulOrdered
      rw [if_neg hnl]
      dsimp only
      rw [hrs, if_pos hth]
      exact toRat_of_digits_nil rfl
    refine ⟨?_, fun _ N hN => ?_, ?_⟩
    · rw [hr, zero_sub, abs_neg, product_sign, abs_factor,
        abs_of_nonneg (mul_nonneg var1.mag_nonneg var2.mag_nonneg)]
      linarith
    · have ha : |(N : ℚ)| ≤ 1 / 10000 := by
        rw [← hN, product_sign, mul_assoc, abs_factor, abs_of_nonneg hnn]
        exact hsm
      have hN0 : N = 0 := by
        by_contra hne
        have : (1 : ℚ) ≤ |(N : ℚ)| := by exact_mod_cast Int.one_le_abs hne
        linarith
      rw [hN0, Int.cast_zero] at hN
      rw [hr]
      obtain h | h := mul_eq_zero.mp hN
      · exact h.symm
      · exact absurd h ht.ne'
    unfold orderedStates
    rw [hrs, if_pos (by tauto)]
    simp
  obtain ⟨hrn, hst⟩ := mulOrdered_rounds h1 h2 hne1 hne2 hrs (by omega)
  obtain ⟨hle, hge, he⟩ := computedMag_error h1 h2 hrs
  have hm : 0 ≤ computedMag var1 var2 res * (10 : ℚ) ^ rs :=
    mul_nonneg (mul_nonneg (cast_nonneg _) (zpow_nonneg (cast_nonneg _) _)) ht.le
  rw [sub_mul] at hle hge
  obtain ⟨hnr, hint⟩ := floor_half_near hm hle hge
  refine ⟨?_, fun hc N hN => ?_, ?_⟩
  · rw [← abs_of_pos ht, ← abs_mul, sub_mul, hrn, product_sign, mul_assoc, ← mul_sub, abs_factor]
    exact hnr
  · apply mul_right_cancel₀ ht.ne'
    rw [hrn, product_sign, mul_assoc]
    congr 1
    have hN' : var1.mag * var2.mag * (10 : ℚ) ^ rs =
        ((if (if var1.sign = var2.sign then Sign.pos else Sign.neg) = .pos then N else -N : Int) :
          ℚ) := by
      rw [product_sign, mul_assoc] at hN
      by_cases hs : var1.sign = var2.sign
      · simp only [hs, if_true, Sign.factor, one_mul] at hN ⊢
        exact hN
      simp only [hs, if_false, Sign.factor] at hN ⊢
      push_cast
      linarith
    obtain hf | hw := hc
    · refine hint ?_ _ hN'
      have : (var1.digits.length : ℚ) ≤ 5000 := by exact_mod_cast hf
      linarith
    have heq := he hw
    have hz : var1.mag * var2.mag * (10 : ℚ) ^ rs -
        computedMag var1 var2 res * (10 : ℚ) ^ rs = 0 := by rw [heq, sub_self]
    obtain ⟨-, hint'⟩ := floor_half_near hm hz.ge hz.le
    exact hint' (by norm_num) _ hN'
  unfold orderedStates
  rw [hrs, if_neg (by tauto)]
  exact hst

end Close

/-- The states of the loop of `mul_var`. -/
def mulVarStates (rscale : Nat) : List MulState :=
  if var2.digits.length < var1.digits.length then orderedStates var2 var1 rscale
  else orderedStates var1 var2 rscale

/-- What `mul_var` computes from the weights, the numbers of digits and the scale. -/
def mulInts (rscale : Nat) : List Int :=
  let resWeight := var1.weight + var2.weight + 2
  [var1.weight + var2.weight, resWeight, var1.digits.length + var2.digits.length + 1, rscale + 3,
    resWeight + 1 + (rscale + 3) / 4, resWeight + 1 + (rscale + 3) / 4 + 2] ++
    roundInts resWeight rscale

theorem mulInts_fit {var1 var2 : NumericVar} (hr1 : var1.InRange) (hr2 : var2.InRange) {rs : Nat}
    (hrs : rs ≤ 2 ^ 28) : ∀ x ∈ mulInts var1 var2 rs, FitsInt x := by
  obtain ⟨hw1, hn1⟩ := hr1
  obtain ⟨hw2, hn2⟩ := hr2
  rw [abs_le] at hw1 hw2
  refine forall_mem_append.mpr ⟨?_, roundInts_fit (abs_le.mpr ⟨by omega, by omega⟩)
    (abs_le.mpr ⟨by omega, by omega⟩)⟩
  simp only [FitsInt, forall_mem_cons, not_mem_nil, false_implies, implies_true, and_true]
  omega

/-- **How close a product is**, for weights and numbers of digits up to `2 ^ 26` and scales up to
`2 ^ 28`.  It is off by at most half a unit and a ten-thousandth of a unit for
each digit of the shorter operand: by less than a unit if that has at most 5000 digits, and not at
all if then the exact product has no more decimals than asked for.  For operands of any length it
is exact if the scale covers the digits behind the point of both operands.  The entries of the
array never exceed an `int`, nor do the sums while carries are propagated, nor the weights and
numbers of digits. -/
theorem mulVar_close {var1 var2 : NumericVar} (h1 : var1.Valid) (h2 : var2.Valid)
    (hr1 : var1.InRange) (hr2 : var2.InRange) {rscale : Nat} (hrs : rscale ≤ 2 ^ 28) :
    |(mulVar var1 var2 rscale).toRat - var1.toRat * var2.toRat| * (10 : ℚ) ^ rscale ≤
        1 / 2 + min var1.digits.length var2.digits.length * (9999 / 100000000) ∧
      (min var1.digits.length var2.digits.length ≤ 5000 →
        |(mulVar var1 var2 rscale).toRat - var1.toRat * var2.toRat| * (10 : ℚ) ^ rscale < 1) ∧
      (min var1.digits.length var2.digits.length ≤ 5000 ∨
          (var1.digits.length + var2.digits.length : Int) ≤
            var1.weight + var2.weight + 4 + (rscale + 3) / 4 →
        ∀ N : Int, var1.toRat * var2.toRat * (10 : ℚ) ^ rscale = N →
          (mulVar var1 var2 rscale).toRat = var1.toRat * var2.toRat) ∧
      (∀ s ∈ mulVarStates var1 var2 rscale, (∀ x ∈ s.dig, x ≤ INTMAX) ∧
        ∀ x ∈ propagateSums s.dig.reverse 0, x ≤ INTMAX) ∧
      ∀ x ∈ mulInts var1 var2 rscale, FitsInt x := by
  -- both orders of the operands come down to a shorter one `v` and a longer one `w`
  obtain ⟨v, w, hv, hw, hm, hst, hp, hmn, hl, hwg⟩ : ∃ v w : NumericVar,
      v.Valid ∧ w.Valid ∧ mulVar var1 var2 rscale = mulOrdered v w rscale ∧
      mulVarStates var1 var2 rscale = orderedStates v w rscale ∧
      var1.toRat * var2.toRat = v.toRat * w.toRat ∧
      min var1.digits.length var2.digits.length = v.digits.length ∧
      (var1.digits.length + var2.digits.length : Int) = v.digits.length + w.digits.length ∧
      var1.weight + var2.weight = v.weight + w.weight := by
    by_cases hlt : var2.digits.length < var1.digits.length
    · refine ⟨var2, var1, h2, h1, ?_, ?_, mul_comm _ _, min_eq_right hlt.le, add_comm _ _,
        add_comm _ _⟩
      · rw [mulVar, if_pos hlt]
      · rw [mulVarStates, if_pos hlt]
    refine ⟨var1, var2, h1, h2, ?_, ?_, rfl, min_eq_left (not_lt.mp hlt), rfl, rfl⟩
    · rw [mulVar, if_neg hlt]
    · rw [mulVarStates, if_neg hlt]
  obtain ⟨hc, he, hb⟩ := mulOrdered_close hv hw rscale
  rw [hm, hst, hp, hl, hwg]
  rw [hmn]
  refine ⟨hc, fun hf => ?_, he, fun s hs => ⟨fun x hx => ?_, ?_⟩, mulInts_fit hr1 hr2 hrs⟩
  · have : (v.digits.length : ℚ) ≤ 5000 := by exact_mod_cast hf
    linarith
  · exact (hb s hs x hx).trans (sub_le _ _)
  exact propagateSums_le (fun x hx => hb s hs x (mem_reverse.mp hx)) (zero_le _)

/-- `12345678.9999` by a number just below one: digits behind the second guard digit are left out, and
carries go through all others. -/
theorem mulVar_close_truncated :
    mulVar ⟨[1234, 5678, 9999], 1, .pos, 4⟩ ⟨[9999, 9999, 9999, 9998], -1, .neg, 16⟩ 2 =
        ⟨[1234, 5679], 1, .neg, 2⟩ ∧
      |(mulVar ⟨[1234, 5678, 9999], 1, .pos, 4⟩ ⟨[9999, 9999, 9999, 9998], -1, .neg, 16⟩ 2).toRat -
        NumericVar.toRat ⟨[1234, 5678, 9999], 1, .pos, 4⟩ *
          NumericVar.toRat ⟨[9999, 9999, 9999, 9998], -1, .neg, 16⟩| * (10 : ℚ) ^ 2 < 1 :=
  ⟨by decide +kernel, (@mulVar_close ⟨[1234, 5678, 9999], 1, .pos, 4⟩
    ⟨[9999, 9999, 9999, 9998], -1, .neg, 16⟩ (by decide) (by decide) (by decide) (by decide) 2
    (by decide)).2.1 (by decide)⟩

/-! ## Long operands -/

section Far

/-- Behind a cut, the digits are worth at least the first of them. -/
theorem fract_cut {lo k : Nat} (h2 : ∀ d ∈ ds2, d < NBASE) (hlo : ∀ d ∈ ds2, lo ≤ d)
    (hk : k < ds2.length) :
    leading NBASE k ds2 + (lo : ℚ) / NBASE ≤
      valueOf NBASE ds2 * (NBASE : ℚ) ^ ((k : Int) - ds2.length) := by
  have hl := @valueOf_take_append_zeros NBASE _ (by norm_num) h2 k 0 (by omega)
  rw [replicate_zero, append_nil] at hl
  obtain ⟨m, hm⟩ : ∃ m, ds2.length = k + (m + 1) := ⟨ds2.length - k - 1, by omega⟩
  have hc : ds2.drop k = ds2[k] :: ds2.drop (k + 1) := drop_eq_getElem_cons hk
  have hv := valueOf_take_drop (b := NBASE) ds2 k
  rw [hl, hc, valueOf_cons, length_drop, show ds2.length - k = m + 1 by omega,
    show ds2.length - (k + 1) = m by omega] at hv
  have hlk : (lo : ℚ) ≤ ds2[k] := by exact_mod_cast hlo _ (getElem_mem hk)
  have hP : (0 : ℚ) < (NBASE : ℚ) ^ m := by positivity
  have hR : (0 : ℚ) ≤ valueOf NBASE (ds2.drop (k + 1)) := cast_nonneg _
  rw [hm, show (k : Int) - ((k + (m + 1) : Nat) : Int) = -((m + 1 : Nat) : Int) by push_cast; ring,
    zpow_neg, zpow_natCast, ← div_eq_mul_inv, le_div_iff₀ (by positivity), hv]
  push_cast
  rw [pow_succ]
  have hmul := mul_le_mul_of_nonneg_right hlk hP.le
  calc _ = (leading NBASE k ds2 : ℚ) * ((10000 : ℚ) ^ m * 10000) + lo * (10000 : ℚ) ^ m := by ring
    _ ≤ _ := by push_cast at hmul hR; linarith

/-- **What the rows leave out** is at least the product of two digits for each row that is cut. -/
theorem rowSum_loss {lo1 lo2 : Nat} (h2 : ∀ d ∈ ds2, d < NBASE) (hlo2 : ∀ d ∈ ds2, lo2 ≤ d)
    (hlo1 : ∀ d ∈ ds, lo1 ≤ d) {k : Int} (hk : (ds.length : Int) ≤ k + 1) {c : Nat}
    (hc : c ≤ ds.length) (hck : (c : Int) + k + 1 ≤ ds.length + ds2.length) :
    rowSum ds2 k ds + c * ((lo1 : ℚ) * (lo2 / NBASE)) ≤ exactSum ds2 k ds := by
  induction ds generalizing k c with
  | nil =>
    obtain rfl : c = 0 := by simpa using hc
    simp [rowSum, exactSum]
  | cons d ds ih =>
    rw [length_cons] at hk hc hck
    have hd : (lo1 : ℚ) ≤ d := by exact_mod_cast hlo1 d mem_cons_self
    have hds : ∀ x ∈ ds, lo1 ≤ x := fun x hx => hlo1 x (mem_cons_of_mem _ hx)
    have hn : (0 : ℚ) ≤ valueOf NBASE ds2 * (NBASE : ℚ) ^ (k - ds2.length) :=
      mul_nonneg (cast_nonneg _) (zpow_nonneg (cast_nonneg _) _)
    have hfl := floor_le hn
    rw [← leading_eq_floor h2] at hfl
    have hd0 : (0 : ℚ) ≤ d := cast_nonneg d
    rw [exactSum_cons, rowSum, Nat.cast_add, Nat.cast_mul]
    by_cases hcut : k < ds2.length ∧ c ≠ 0
    · obtain ⟨c, rfl⟩ := exists_eq_succ_of_ne_zero hcut.2
      have := ih hds (k := k - 1) (c := c) (by push_cast at hk; omega) (by omega)
        (by push_cast at hck; omega)
      have hf := @fract_cut _ lo2 k.toNat h2 hlo2 (by omega)
      rw [show (k.toNat : Int) = k by omega] at hf
      have hlo : (0 : ℚ) ≤ lo2 / NBASE := by positivity
      push_cast
      nlinarith [mul_le_mul_of_nonneg_left hf hd0, mul_le_mul_of_nonneg_right hd hlo]
    · have := ih hds (k := k - 1) (c := c) (by push_cast at hk; omega) (by omega)
        (by push_cast at hck; omega)
      rw [add_assoc]
      exact add_le_add (mul_le_mul_of_nonneg_left hfl hd0) this

/-- Two operands of 20000 digits, all of them large, the product of which has about as many digits
before the point. -/
structure LongFactors (var1 var2 : NumericVar) : Prop where
  valid : var1.Valid ∧ var2.Valid
  signs : var1.sign = .pos ∧ var2.sign = .pos
  lengths : var1.digits.length = 20000 ∧ var2.digits.length = 20000
  large : (∀ d ∈ var1.digits, 9375 ≤ d) ∧ ∀ d ∈ var2.digits, 9375 ≤ d
  weights : 19996 ≤ var1.weight + var2.weight ∧ var1.weight + var2.weight ≤ 19998

theorem LongFactors.lossy {var1 var2 : NumericVar} (h : LongFactors var1 var2) :
    1 ≤ |(mulVar var1 var2 0).toRat - var1.toRat * var2.toRat| := by
  obtain ⟨⟨h1, h2⟩, ⟨hs1, hs2⟩, ⟨hl1, hl2⟩, ⟨hg1, hg2⟩, hw, hw'⟩ := h
  have hne : ∀ {v : NumericVar}, v.digits.length = 20000 → v.digits ≠ [] := fun hv h0 => by
    rw [h0] at hv
    cases hv
  obtain ⟨res, hres⟩ : ∃ res, mulNdigits var1.digits.length var2.digits.length
    (var1.weight + var2.weight + 2) 0 = res := ⟨_, rfl⟩
  have hr := hres
  rw [mulNdigits, hl1, hl2] at hr
  obtain ⟨hrd, -⟩ := mulOrdered_rounds h1 h2 (hne hl1) (hne hl2) hres (by omega)
  have hls := @rowSum_loss var1.digits var2.digits 9375 9375 h2 hg2 hg1 (res - 2)
    (by rw [hl1]; omega) 19998 (by rw [hl1]; omega) (by rw [hl1, hl2]; omega)
  have hu : (NBASE : ℚ) ^ (var1.weight + var2.weight + 2 + 1 - res) = 1 / 100000000 := by
    rw [show var1.weight + var2.weight + 2 + 1 - res = -2 by omega]
    norm_num
  have hc : computedMag var1 var2 res + 3 / 2 ≤ var1.mag * var2.mag := by
    rw [mag_mul_mag var1 var2 res, computedMag, hu]
    norm_num at hls ⊢
    linarith
  have hm : 0 ≤ computedMag var1 var2 res :=
    mul_nonneg (cast_nonneg _) (zpow_nonneg (cast_nonneg _) _)
  have hfl := floor_le (show 0 ≤ computedMag var1 var2 res + 1 / 2 by linarith)
  rw [pow_zero, mul_one, mul_one, hs1, hs2] at hrd
  rw [mulVar, hl1, hl2, if_neg (lt_irrefl _), hrd, product_sign, hs1, hs2, abs_sub_comm]
  refine le_trans ?_ (le_abs_self _)
  simp only [if_true, Sign.factor, one_mul]
  linarith

/-- Large digits of a number that is divisible by a power of one part of the base. -/
theorem exists_large_multiple {p q : Nat} (hpq : p * q = NBASE) (hco : Nat.Coprime q p) (n : Nat) :
    ∃ ds : List Nat, ds.length = n ∧ (∀ d ∈ ds, NBASE - p ≤ d ∧ d < NBASE) ∧
      p ^ n ∣ valueOf NBASE ds := by
  have hp : p ≠ 0 := by
    rintro rfl
    simp at hpq
  induction n with
  | zero => exact ⟨[], rfl, by simp, by simp⟩
  | succ n ih =>
    obtain ⟨ds, hl, hd, y, hy⟩ := ih
    -- the new first digit makes up for the remainder of what stands behind it
    obtain ⟨e, he, hm⟩ := exists_mul_mod_eq_of_coprime ((p - 1) * y) (hco.pow_left n) hp
    have hle : p ≤ NBASE := le_of_dvd (by norm_num) ⟨q, hpq.symm⟩
    refine ⟨(NBASE - p + e) :: ds, by rw [length_cons, hl],
      forall_mem_cons.mpr ⟨by omega, hd⟩, ?_⟩
    rw [valueOf_cons, hl, hy, show NBASE ^ n = p ^ n * q ^ n by rw [← mul_pow, hpq], pow_succ]
    have hdv : p ∣ (NBASE - p + e) * q ^ n + y := by
      have hB : p ∣ NBASE - p := Nat.dvd_sub ⟨q, hpq.symm⟩ dvd_rfl
      rw [add_mul, add_assoc]
      refine (hB.mul_right _).add (dvd_of_mod_eq_zero ?_)
      rw [mul_comm e, add_mod, hm, ← add_mod, ← succ_mul, succ_eq_add_one,
        Nat.sub_add_cancel (one_le_iff_ne_zero.mpr hp), mul_mod_right]
    calc p ^ n * p ∣ p ^ n * ((NBASE - p + e) * q ^ n + y) := mul_dvd_mul_left _ hdv
      _ = _ := by ring

/-- **Operands that are too long for the guard digits.**  There is a product without decimals that is
not returned exactly, and one with decimals that is off by a unit or more.  For `1 * 1` at a scale
close to the largest `int`, `rscale + 3` overflows. -/
theorem mulVar_far :
    (∃ var1 var2 : NumericVar, var1.Valid ∧ var2.Valid ∧
      (∃ N : Int, var1.toRat * var2.toRat * (10 : ℚ) ^ 0 = N) ∧
      (mulVar var1 var2 0).toRat ≠ var1.toRat * var2.toRat) ∧
    (∃ var1 var2 : NumericVar, var1.Valid ∧ var2.Valid ∧
      (∀ N : Int, var1.toRat * var2.toRat * (10 : ℚ) ^ 0 ≠ N) ∧
      1 ≤ |(mulVar var1 var2 0).toRat - var1.toRat * var2.toRat| * (10 : ℚ) ^ 0) ∧
    ∃ x ∈ mulInts ⟨[1], 0, .pos, 0⟩ ⟨[1], 0, .pos, 0⟩ 2147483645, ¬ FitsInt x := by
  obtain ⟨n, hn⟩ : ∃ n : Nat, n + 1 = 20000 := ⟨19999, rfl⟩
  refine ⟨?_, ?_, 2147483648, by decide, by norm_num [FitsInt]⟩
  · obtain ⟨ds1, hl1, hd1, y1, hy1⟩ := @exists_large_multiple 16 625 rfl (by decide) (n + 1)
    obtain ⟨ds2, hl2, hd2, y2, hy2⟩ := @exists_large_multiple 625 16 rfl (by decide) (n + 1)
    have hlong : LongFactors ⟨ds1, n, .pos, 0⟩ ⟨ds2, -1, .pos, 4 * (n + 1)⟩ :=
      ⟨⟨fun d hd => (hd1 d hd).2, fun d hd => (hd2 d hd).2⟩, ⟨rfl, rfl⟩,
        ⟨hl1.trans hn, hl2.trans hn⟩,
        ⟨fun d hd => le_trans (by norm_num) (hd1 d hd).1, fun d hd => (hd2 d hd).1⟩,
        by dsimp only; omega, by dsimp only; omega⟩
    refine ⟨_, _, hlong.valid.1, hlong.valid.2, ⟨y1 * y2, ?_⟩, fun heq => ?_⟩
    · unfold toRat mag
      dsimp only [Sign.factor]
      rw [hl1, hl2, hy1, hy2, show (n : Int) + 1 - ((n + 1 : Nat) : Int) = 0 by omega,
        show (-1 : Int) + 1 - ((n + 1 : Nat) : Int) = -((n + 1 : Nat) : Int) by omega, zpow_zero,
        zpow_neg, zpow_natCast, show (NBASE : ℚ) = 16 * 625 by norm_num, mul_pow]
      push_cast
      field_simp
    · have := hlong.lossy
      rw [heq, sub_self, abs_zero] at this
      norm_num at this
  · have hd : ∀ d ∈ replicate (n + 1) 9999, d = 9999 := fun d hd => eq_of_mem_replicate hd
    have hv : ∀ d ∈ replicate (n + 1) 9999, d < NBASE := fun d h => by rw [hd d h]; norm_num
    have hg : ∀ d ∈ replicate (n + 1) 9999, 9375 ≤ d := fun d h => by rw [hd d h]; norm_num
    have hl := (length_replicate (n := n + 1) (a := 9999)).trans hn
    have hlong : LongFactors ⟨replicate (n + 1) 9999, n, .pos, 0⟩
        ⟨replicate (n + 1) 9999, -3, .pos, 4 * (n + 3)⟩ :=
      ⟨⟨hv, hv⟩, ⟨rfl, rfl⟩, ⟨hl, hl⟩, ⟨hg, hg⟩, by dsimp only; omega, by dsimp only; omega⟩
    refine ⟨_, _, hlong.valid.1, hlong.valid.2, fun N hN => ?_,
      by rw [pow_zero, mul_one]; exact hlong.lossy⟩
    -- the product of the digits is odd
    obtain ⟨V, hV⟩ : ∃ V, valueOf NBASE (replicate (n + 1) 9999) = V * 10000 + 9999 :=
      ⟨_, by rw [replicate_succ', valueOf_concat]⟩
    unfold toRat mag at hN
    dsimp only [Sign.factor] at hN
    rw [length_replicate, hV, show (n : Int) + 1 - ((n + 1 : Nat) : Int) = 0 by omega,
      show (-3 : Int) + 1 - ((n + 1 : Nat) : Int) = -((n + 3 : Nat) : Int) by omega, zpow_zero,
      zpow_neg, zpow_natCast, pow_zero, mul_one, mul_one, one_mul, one_mul, ← mul_assoc,
      ← div_eq_mul_inv, div_eq_iff (by positivity)] at hN
    have hZ : ((V : Int) * 10000 + 9999) * (V * 10000 + 9999) = N * 10000 ^ (n + 3) := by
      exact_mod_cast hN
    have ho : Odd ((V : Int) * 10000 + 9999) := ⟨V * 5000 + 4999, by ring⟩
    have he : Even (N * (10000 : Int) ^ (n + 3)) :=
      ((show Even (10000 : Int) by decide).pow_of_ne_zero (by omega)).mul_left N
    rw [← hZ] at he
    exact Int.not_even_iff_odd.mpr (ho.mul ho) he

end Far

end Numeric
end AthenaPG
