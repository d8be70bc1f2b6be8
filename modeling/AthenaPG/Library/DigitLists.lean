import Mathlib.Data.Nat.Digits.Lemmas
import Mathlib.Algebra.Order.Floor.Semifield
import Mathlib.Data.Rat.Floor

/-!
Numbers as lists of digits, the most significant digit first.

* `valueOf`: the number that a list of digits denotes;
* `leading`: the number of the first digits, filled up with zeros;
* `increment`: a carry into a list of digits, the least significant digit first.
-/

namespace DigitLists
open List Nat

variable {b : Nat}

/-! ## Values -/

/-- The number of a list of digits, the most significant one first. -/
def valueOf (b : Nat) (ds : List Nat) : Nat := Nat.ofDigits b ds.reverse

@[simp] theorem valueOf_nil : valueOf b [] = 0 := rfl

theorem valueOf_reverse (ds : List Nat) : valueOf b ds.reverse = Nat.ofDigits b ds := by
  rw [valueOf, reverse_reverse]

theorem valueOf_append (xs ys : List Nat) :
    valueOf b (xs ++ ys) = valueOf b xs * b ^ ys.length + valueOf b ys := by
  unfold valueOf
  rw [reverse_append, ofDigits_append, length_reverse]
  ring

theorem valueOf_cons (d : Nat) (ds : List Nat) :
    valueOf b (d :: ds) = d * b ^ ds.length + valueOf b ds := by
  have := valueOf_append (b := b) [d] ds
  rw [singleton_append] at this
  rw [this]
  simp [valueOf]

theorem valueOf_concat (ds : List Nat) (d : Nat) :
    valueOf b (ds ++ [d]) = valueOf b ds * b + d := by
  rw [valueOf_append]
  simp [valueOf]

theorem valueOf_replicate_zero (k : Nat) : valueOf b (List.replicate k 0) = 0 := by
  induction k with
  | zero => rfl
  | succ k ih => rw [replicate_succ, valueOf_cons, ih, Nat.zero_mul]

theorem valueOf_lt (hb : 1 < b) {ds : List Nat} (h : ∀ d ∈ ds, d < b) :
    valueOf b ds < b ^ ds.length := by
  have := ofDigits_lt_base_pow_length (b := b) (l := ds.reverse) hb (by simpa using h)
  rwa [length_reverse] at this

theorem valueOf_take_drop (ds : List Nat) (k : Nat) :
    valueOf b ds = valueOf b (ds.take k) * b ^ (ds.length - k) + valueOf b (ds.drop k) := by
  have := valueOf_append (b := b) (ds.take k) (ds.drop k)
  rwa [take_append_drop, length_drop] at this

theorem mul_add_lt {a c low P : Nat} (ha : a < c) (hl : low < P) : a * P + low < c * P := by
  calc a * P + low < a * P + P := Nat.add_lt_add_left hl _
    _ = (a + 1) * P := by ring
    _ ≤ c * P := mul_le_mul_right P ha

theorem rebase_le {d e v v' u u' P Q : Nat} (hv' : v' < P) (hu : u < Q)
    (hi : v ≤ v' → u ≤ u') (hle : d * P + v ≤ e * P + v') : d * Q + u ≤ e * Q + u' := by
  obtain hlt | heq | hgt := lt_trichotomy d e
  · exact le_of_lt (lt_of_lt_of_le (mul_add_lt hlt hu) (le_add_right _ _))
  · subst heq
    exact Nat.add_le_add_left (hi (Nat.le_of_add_le_add_left hle)) _
  have := mul_add_lt hgt hv'
  omega

/-- The first digits of a list, as a number; zeros are added if there are not enough. -/
def leading (b k : Nat) (ds : List Nat) : Nat := valueOf b ds * b ^ k / b ^ ds.length

theorem leading_nil (k : Nat) : leading b k [] = 0 := by simp [leading]

variable {ds : List Nat}

theorem leading_zero (hb : 1 < b) (h : ∀ d ∈ ds, d < b) : leading b 0 ds = 0 := by
  unfold leading
  rw [pow_zero, mul_one, div_eq_of_lt (valueOf_lt hb h)]

theorem leading_cons (hb : 0 < b) (k d : Nat) (ds : List Nat) :
    leading b (k + 1) (d :: ds) = d * b ^ k + leading b k ds := by
  unfold leading
  rw [valueOf_cons, length_cons, pow_succ, pow_succ, ← mul_assoc,
    Nat.mul_div_mul_right _ _ hb, Nat.add_mul, Nat.mul_right_comm, Nat.add_comm,
    add_mul_div_right _ _ (Nat.pow_pos hb), Nat.add_comm]

theorem leading_headD_tail (hb : 0 < b) (k : Nat) (ds : List Nat) :
    leading b (k + 1) ds = ds.headD 0 * b ^ k + leading b k ds.tail := by
  cases ds with
  | nil => simp [leading_nil]
  | cons d ds => exact leading_cons hb k d ds

theorem valueOf_take_append_zeros (hb : 1 < b) (h : ∀ d ∈ ds, d < b) {k z : Nat}
    (hk : k ≤ ds.length + z) : valueOf b ((ds ++ List.replicate z 0).take k) = leading b k ds := by
  unfold leading
  obtain hle | hle := le_total k ds.length
  · have hlt := valueOf_lt hb fun d hd => h d (mem_of_mem_drop (i := k) hd)
    rw [length_drop] at hlt
    have hp : b ^ ds.length = b ^ (ds.length - k) * b ^ k := by
      rw [← pow_add, Nat.sub_add_cancel hle]
    rw [take_append_of_le_length hle, hp, Nat.mul_div_mul_right _ _ (by positivity),
      valueOf_take_drop ds k, add_comm, add_mul_div_right _ _ (by positivity),
      div_eq_of_lt hlt, zero_add]
  have hp : b ^ k = b ^ (k - ds.length) * b ^ ds.length := by rw [← pow_add, Nat.sub_add_cancel hle]
  rw [take_append, take_of_length_le hle, take_replicate, valueOf_append,
    valueOf_replicate_zero, length_replicate, min_eq_left (by omega), add_zero, hp,
    ← Nat.mul_assoc, Nat.mul_div_cancel _ (by positivity)]

/-! ## Carries -/

/-- A carry of one into digits, the least significant one first; a new digit takes the last one. -/
def increment (b : Nat) : List Nat → List Nat
  | [] => [1]
  | d :: ds => if b ≤ 1 + d then (1 + d - b) :: increment b ds else (1 + d) :: ds

theorem ofDigits_increment (h : ∀ d ∈ ds, d < b) :
    Nat.ofDigits b (increment b ds) = Nat.ofDigits b ds + 1 := by
  induction ds with
  | nil => simp [increment]
  | cons d ds ih =>
    have hd := h d mem_cons_self
    rw [increment]
    split
    · rw [ofDigits_cons, ofDigits_cons, ih fun x hx => h x (mem_cons_of_mem _ hx)]
      have : 1 + d - b = 0 := by omega
      rw [this]
      nlinarith
    rw [ofDigits_cons, ofDigits_cons]
    ring

theorem increment_lt (hb : 1 < b) (h : ∀ d ∈ ds, d < b) : ∀ d ∈ increment b ds, d < b := by
  induction ds with
  | nil =>
    intro d hd
    rw [mem_singleton.mp hd]
    exact hb
  | cons d ds ih =>
    intro x hx
    rw [increment] at hx
    split at hx
    · obtain rfl | hx := mem_cons.mp hx
      · have := h d mem_cons_self
        omega
      exact ih (fun y hy => h y (mem_cons_of_mem _ hy)) x hx
    obtain rfl | hx := mem_cons.mp hx
    · omega
    · exact h x (mem_cons_of_mem _ hx)

theorem length_increment (ds : List Nat) :
    (increment b ds).length = ds.length ∨ (increment b ds).length = ds.length + 1 := by
  induction ds with
  | nil => simp [increment]
  | cons d ds ih =>
    rw [increment]
    split
    · simpa using ih
    · simp

end DigitLists
