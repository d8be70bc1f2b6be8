import Mathlib.Data.Nat.Bitwise
import Mathlib.Data.Nat.ModEq
import Mathlib.Data.Nat.Prime.Basic
import Mathlib.Order.Interval.Finset.Nat

/-!
The pseudorandom permutation of pgbench (`src/bin/pgbench/pgbench.c`).

* `scramble`, `permuteRound`: a half of the range, and one round;
* `permute_bijOn`: the rounds are a permutation, whatever the generator returns.
-/

namespace AthenaPG.Pgbench
open Nat Set

/-- What the generator returns in a round. -/
structure Draws where
  lowerMultiplier : Nat
  lowerXor : Nat
  upperMultiplier : Nat
  upperXor : Nat
  offset : Nat

/-- Multiply, XOR and rotate, for a half of `mask + 1` values. -/
def scramble (masklen mask multiplier xor v : Nat) : Nat :=
  let m := multiplier &&& mask ||| 1
  let r := xor &&& mask
  let v := (v * m % 2 ^ 64 ^^^ r) &&& mask
  (v <<< 1 % 2 ^ 64) &&& mask ||| v >>> (masklen - 1)

def permuteRound (size : Nat) (draws : Draws) (v : Nat) : Nat :=
  let masklen := log2 size
  let mask := 1 <<< masklen - 1
  let v := if v ≤ mask then scramble masklen mask draws.lowerMultiplier draws.lowerXor v else v
  let t := size - 1 - v
  let v := if t ≤ mask then
      size - 1 - scramble masklen mask draws.upperMultiplier draws.upperXor t
    else v
  (v + draws.offset) % 2 ^ 64 % size

/-- `draws` are what the generator returns after it is seeded. -/
def permute (draws : Nat → Draws) (val isize : Nat) : Nat :=
  if isize < 2 then 0
  else (List.range 6).foldl (fun v i => permuteRound isize (draws i) v) (val % isize)

abbrev Permutes (f : Nat → Nat) (n : Nat) : Prop := BijOn f (Iio n) (Iio n)

variable {f : Nat → Nat} {k n : Nat}

theorem permutes (hm : ∀ v < n, f v < n) (hi : InjOn f (Iio n)) : Permutes f n :=
  ((finite_Iio n).injOn_iff_bijOn_of_mapsTo hm).mp hi

theorem permutes_mul {m : Nat} (hm : Coprime n m) (hn : 0 < n) : Permutes (· * m % n) n :=
  permutes (fun _ _ => mod_lt _ hn) fun _ hv _ hv' h =>
    (ModEq.cancel_right_of_coprime hm h).eq_of_lt_of_lt hv hv'

theorem permutes_add (offset : Nat) (hn : 0 < n) : Permutes (fun v => (v + offset) % n) n :=
  permutes (fun _ _ => mod_lt _ hn) fun _ hv _ hv' h =>
    (ModEq.add_right_cancel' offset h).eq_of_lt_of_lt hv hv'

theorem permutes_rotate (p : Nat) : Permutes (fun a => 2 * (a % p) + a / p) (2 * p) := by
  have hq : ∀ a < 2 * p, a / p < 2 := fun a ha => Nat.div_lt_of_lt_mul (by omega)
  refine permutes (fun a ha => ?_) fun a ha b hb h => ?_
  · have := hq a ha
    have := mod_lt a (show 0 < p by omega)
    generalize a / p = q at *
    omega
  have := hq a ha
  have := hq b hb
  have he := div_add_mod a p
  rw [← he, ← div_add_mod b p]
  generalize a / p = qa at *
  generalize b / p = qb at *
  obtain rfl : qa = qb := by grind
  grind

/-- The multiplier is odd, so nothing is lost. -/
theorem permutes_scramble (hk : k + 1 < 64) (multiplier xor : Nat) :
    Permutes (scramble (k + 1) (2 ^ (k + 1) - 1) multiplier xor) (2 ^ (k + 1)) := by
  have hd : 2 ^ (k + 1) ∣ 2 ^ 64 := Nat.pow_dvd_pow 2 hk.le
  have hp := Nat.two_pow_pos (k + 1)
  have hr := mod_lt xor hp
  have hodd : Coprime (2 ^ (k + 1)) (multiplier % 2 ^ (k + 1) ||| 1) := by
    refine Coprime.pow_left _ (coprime_two_left.mpr (odd_iff.mpr ?_))
    rw [or_mod_two_eq_one]
    exact .inr rfl
  have hx : Permutes (· ^^^ xor % 2 ^ (k + 1)) (2 ^ (k + 1)) :=
    permutes (fun _ hv => xor_lt_two_pow hv hr) xor_left_injective.injOn
  have hxm := hx.comp (permutes_mul hodd hp)
  have hrot := permutes_rotate (2 ^ k)
  rw [← Nat.pow_succ'] at hrot
  refine (hrot.comp hxm).congr fun v hv => ?_
  have ha := hxm.mapsTo hv
  simp only [scramble, and_two_pow_sub_one_eq_mod, xor_mod_two_pow (n := k + 1), mod_mod, mod_mod_of_dvd _ hd,
    shiftLeft_eq, shiftRight_eq_div_pow, Nat.add_sub_cancel, Function.comp_apply, mem_Iio] at ha ⊢
  generalize v * (multiplier % 2 ^ (k + 1) ||| 1) % 2 ^ (k + 1) ^^^ xor % 2 ^ (k + 1) = a at *
  rw [Nat.pow_succ'] at ha
  have hb : a / 2 ^ k < 2 ^ 1 := Nat.div_lt_of_lt_mul (by omega)
  rw [pow_one, Nat.pow_succ', mul_comm a 2, mul_mod_mul_left]
  exact two_pow_add_eq_or_of_lt hb _

/-- A lower half that is permuted; the rest stays. -/
theorem Permutes.half {m : Nat} (hf : Permutes f (m + 1)) (hn : m + 1 ≤ n) :
    Permutes (fun v => if v ≤ m then f v else v) n := by
  have hl : ∀ v ≤ m, f v ≤ m := fun v hv => le_of_lt_succ (hf.mapsTo (lt_succ_of_le hv))
  refine permutes (fun v hv => ?_) fun v hv v' hv' h => ?_
  · grind
  split at h <;> split at h
  · exact hf.injOn (by grind) (by grind) h
  all_goals grind

/-- One round: the upper half is a lower half that is read backwards. -/
theorem permutes_permuteRound (hn : 2 ≤ n) (hn63 : n < 2 ^ 63) {draws : Draws}
    (ho : draws.offset < n) : Permutes (permuteRound n draws) n := by
  obtain ⟨k, hk⟩ : ∃ k, log2 n = k + 1 :=
    exists_eq_succ_of_ne_zero (Nat.pos_iff_ne_zero.mp ((le_log2 (by omega)).mpr hn))
  have hle : 2 ^ (k + 1) ≤ n := hk ▸ log2_self_le (by omega)
  have hk64 : k + 1 < 63 := hk ▸ (log2_lt (by omega)).mpr hn63
  have hb : Permutes (n - 1 - ·) n := permutes (fun v _ => by omega) fun v _ v' _ h => by grind
  have hp := Nat.two_pow_pos (k + 1)
  have half : ∀ multiplier xor, Permutes (fun v => if v ≤ 2 ^ (k + 1) - 1 then
      scramble (k + 1) (2 ^ (k + 1) - 1) multiplier xor v else v) n := by
    intro multiplier xor
    have := permutes_scramble (by omega : k + 1 < 64) multiplier xor
    exact Permutes.half (by rwa [Nat.sub_add_cancel hp]) (by omega)
  have hw := half draws.lowerMultiplier draws.lowerXor
  refine (((permutes_add draws.offset (by omega)).comp ((hb.comp (half draws.upperMultiplier
    draws.upperXor)).comp hb)).comp hw).congr fun v hv => ?_
  have hw := hw.mapsTo hv
  unfold permuteRound
  simp only [hk, one_shiftLeft, Function.comp_apply, mem_Iio] at hw ⊢
  generalize (if v ≤ 2 ^ (k + 1) - 1 then _ else v) = w at *
  split
  · rw [mod_eq_of_lt (b := 2 ^ 64) (by omega)]
  · rw [mod_eq_of_lt (b := 2 ^ 64) (by omega), show n - 1 - (n - 1 - w) = w by omega]

/-- **`permute` is a permutation** of `0, …, isize - 1`. -/
theorem permute_bijOn {isize : Nat} (hsize : 2 ≤ isize) (hmax : isize ≤ 2 ^ 63 - 1)
    {draws : Nat → Draws} (hrange : ∀ i, (draws i).offset ≤ isize - 1) :
    BijOn (permute draws · isize) (Iio isize) (Iio isize) := by
  have hr : ∀ l : List Nat,
      Permutes (fun v => l.foldl (fun v i => permuteRound isize (draws i) v) v) isize := by
    intro l
    induction l with
    | nil => exact bijOn_id _
    | cons i l ih =>
      have ho := hrange i
      exact ih.comp (permutes_permuteRound hsize (by omega) (by omega))
  refine (hr (List.range 6)).congr fun v hv => ?_
  rw [permute, if_neg (by omega), mod_eq_of_lt hv]

/-- Ten values, and a generator that returns something else in each round. -/
theorem permute_bijOn_ten :
    BijOn (permute (fun i => ⟨3 * i + 5, i + 6, 7 * i + 3, 2 * i + 1, (i + 4) % 10⟩) · 10) (Iio 10)
      (Iio 10) :=
  permute_bijOn (by decide) (by decide) fun i => le_of_lt_succ (mod_lt (i + 4) (by decide))

end AthenaPG.Pgbench
