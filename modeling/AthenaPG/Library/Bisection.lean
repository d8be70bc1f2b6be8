import Mathlib.Data.List.GetD
import Mathlib.Tactic

/-!
Bisection over a sorted sequence of which several elements may equal the probe.

`cmp i` compares the `i`-th element with the probe.  The search stops at the first
equal element it meets, which may be any of them; `walk` then moves to a
neighbouring one while a guard allows it.

* `bsearch_found`, `bsearch_missed`: where the search ends;
* `bsearch_congr`: equal signs give equal results;
* `bsearch_zero_iff`: when it ends at the first element although the second is
  equal too;
* `walk_up`, `walk_down`: where a walk ends;
* `partitionPoint_eq`: halving down to one position, for an array that a predicate cuts in two.
-/

namespace AthenaPG.Bisection
open List

/-! ## Sorted sequences -/

/-- The first `below` elements are less than the probe, the first `upto` at most
equal to it. -/
structure SignProfile (n : Nat) (cmp : Nat → Int) (below upto : Nat) : Prop where
  below_le : below ≤ upto
  upto_le : upto ≤ n
  neg : ∀ i < n, cmp i < 0 ↔ i < below
  nonpos : ∀ i < n, cmp i ≤ 0 ↔ i < upto

variable {n below upto : Nat} {cmp : Nat → Int}

theorem SignProfile.eq_zero_iff (h : SignProfile n cmp below upto) {i : Nat} (hi : i < n) :
    cmp i = 0 ↔ below ≤ i ∧ i < upto := by
  have h1 := h.neg i hi
  have h2 := h.nonpos i hi
  omega

theorem lt_countP_iff {α : Type} {p : α → Bool} {l : List α}
    (h : l.Pairwise fun a b => p b = true → p a = true) (i : Nat) (hi : i < l.length) :
    p l[i] = true ↔ i < l.countP p := by
  induction l generalizing i with
  | nil => simp at hi
  | cons a l ih =>
    obtain ⟨ha, hl⟩ := pairwise_cons.mp h
    cases hpa : p a with
    | true =>
      rw [countP_cons_of_pos hpa]
      cases i with
      | zero => simp [hpa]
      | succ i =>
        have hr := ih hl i (by simpa using hi)
        simp only [getElem_cons_succ, hr]
        omega
    | false =>
      have hn : ∀ b ∈ a :: l, ¬ p b = true := by
        intro b hb hpb
        obtain rfl | hb := mem_cons.mp hb
        · simp [hpa] at hpb
        · simp [ha b hb hpb] at hpa
      rw [countP_eq_zero.mpr hn]
      simp only [Nat.not_lt_zero, iff_false]
      exact hn _ (getElem_mem hi)

theorem signProfile_of_pairwise {α : Type} {c : α → Int} {l : List α} (fal : α)
    (h : l.Pairwise fun a b => (c b ≤ 0 → c a ≤ 0) ∧ (c b < 0 → c a < 0)) :
    SignProfile l.length (fun i => c (l.getD i fal)) (l.countP fun a => c a < 0)
      (l.countP fun a => c a ≤ 0) where
  below_le := countP_mono_left fun a _ ha => by
    simp only [decide_eq_true_eq] at ha ⊢
    exact ha.le
  upto_le := countP_le_length
  neg i hi := by
    have hp : l.Pairwise fun a b => decide (c b < 0) = true → decide (c a < 0) = true :=
      h.imp fun hab => by simpa using hab.2
    rw [← lt_countP_iff hp i hi, getD_eq_getElem l fal hi, decide_eq_true_eq]
  nonpos i hi := by
    have hp : l.Pairwise fun a b => decide (c b ≤ 0) = true → decide (c a ≤ 0) = true :=
      h.imp fun hab => by simpa using hab.1
    rw [← lt_countP_iff hp i hi, getD_eq_getElem l fal hi, decide_eq_true_eq]

/-! ## The search -/

/-- The loop; `hi - lo` steps are enough. -/
def bsearchLoop (cmp : Nat → Int) : Nat → Int → Int → Bool → Int × Bool
  | 0, lo, _, isEqual => (lo, isEqual)
  | fuel + 1, lo, hi, isEqual =>
    if lo < hi then
      let mid := (lo + hi + 1) / 2
      let cmpval := cmp mid.toNat
      if cmpval ≤ 0 then
        if cmpval = 0 then (mid, true)
        else bsearchLoop cmp fuel mid hi false
      else bsearchLoop cmp fuel lo (mid - 1) isEqual
    else (lo, isEqual)

/-- The greatest position whose element is at most the probe, or `-1`; and whether
the element there is equal. -/
def bsearch (n : Nat) (cmp : Nat → Int) : Int × Bool := bsearchLoop cmp n (-1) (n - 1) false

section

variable (h : SignProfile n cmp below upto)
include h

theorem bsearchLoop_spec (fuel : Nat) :
    ∀ lo hi : Int, -1 ≤ lo → lo < below → upto ≤ hi + 1 → hi < n → lo ≤ hi → hi - lo ≤ fuel →
      (below = upto → bsearchLoop cmp fuel lo hi false = ((below : Int) - 1, false)) ∧
      (below < upto → ∃ off : Nat, bsearchLoop cmp fuel lo hi false = ((off : Int), true) ∧
        below ≤ off ∧ off < upto ∧ (off + 1 = n → off = below)) := by
  have hle := h.below_le
  induction fuel with
  | zero =>
    intro lo hi hlo hb hu hhi hlh hf
    have hl : lo = below - 1 := by omega
    refine ⟨fun _ => by rw [bsearchLoop, hl], fun hlt => by omega⟩
  | succ fuel ih =>
    intro lo hi hlo hb hu hhi hlh hf
    rw [bsearchLoop]
    by_cases hlt : lo < hi
    · simp only [hlt, if_true]
      obtain ⟨mid, hmd⟩ : ∃ mid : Nat, (lo + hi + 1) / 2 = (mid : Int) :=
        ⟨((lo + hi + 1) / 2).toNat, by omega⟩
      have hm : mid < n := by omega
      have hng := h.neg mid hm
      have hn := h.nonpos mid hm
      rw [hmd, Int.toNat_natCast]
      by_cases hle0 : cmp mid ≤ 0
      · rw [if_pos hle0]
        by_cases heq : cmp mid = 0
        · rw [if_pos heq]
          refine ⟨fun _ => by omega, fun _ => ⟨mid, rfl, by omega, by omega, by omega⟩⟩
        rw [if_neg heq]
        exact ih mid hi (by omega) (by omega) hu hhi (by omega) (by omega)
      rw [if_neg hle0]
      exact ih lo (mid - 1) hlo hb (by omega) (by omega) (by omega) (by omega)
    simp only [hlt, if_false]
    have hl : lo = below - 1 := by omega
    exact ⟨fun _ => by rw [hl], fun _ => by omega⟩

/-- No element equals the probe. -/
theorem bsearch_missed (heq : below = upto) : bsearch n cmp = ((below : Int) - 1, false) := by
  have hle := h.upto_le
  exact (bsearchLoop_spec h n (-1) (n - 1) (by omega) (by omega) (by omega) (by omega) (by omega)
    (by omega)).1 heq

/-- Some element does; at the end of the sequence only if no element before does. -/
theorem bsearch_found (hlt : below < upto) :
    ∃ off : Nat, bsearch n cmp = ((off : Int), true) ∧ below ≤ off ∧ off < upto ∧
      (off + 1 = n → off = below) := by
  have hle := h.upto_le
  exact (bsearchLoop_spec h n (-1) (n - 1) (by omega) (by omega) (by omega) (by omega) (by omega)
    (by omega)).2 hlt

end

/-- The search sees only the signs of the comparisons. -/
theorem bsearch_congr {cmp' : Nat → Int}
    (h : ∀ i, (cmp i ≤ 0 ↔ cmp' i ≤ 0) ∧ (cmp i = 0 ↔ cmp' i = 0)) :
    bsearch n cmp = bsearch n cmp' := by
  have hl (fuel : Nat) : ∀ lo hi isEqual,
      bsearchLoop cmp fuel lo hi isEqual = bsearchLoop cmp' fuel lo hi isEqual := by
    induction fuel with
    | zero => intro lo hi isEqual; rfl
    | succ fuel ih =>
      intro lo hi isEqual
      simp only [bsearchLoop, (h _).1, (h _).2, ih]
  exact hl _ _ _ _

/-! ## Ending at the first element -/

/-- The lengths for which halving the sequence from the right leads to its first
two elements together. -/
def StopsAtFirst (n : Nat) : Prop := ∃ j, 3 * 2 ^ j ≤ n + 1 ∧ n + 2 ≤ 2 ^ (j + 2)

theorem stopsAtFirst_small {n : Nat} (h : 2 ≤ n) (h4 : n ≤ 4) : StopsAtFirst n ↔ n = 2 := by
  constructor
  · rintro ⟨j, h1, h2⟩
    cases j with
    | zero => omega
    | succ j =>
      have hp : 0 < 2 ^ j := by positivity
      omega
  · rintro rfl
    exact ⟨0, by norm_num, by norm_num⟩

theorem stopsAtFirst_half {n : Nat} (h : 5 ≤ n) : StopsAtFirst n ↔ StopsAtFirst ((n - 1) / 2) := by
  refine Nat.or_exists_add_one.symm.trans ((or_iff_right ?_).trans (exists_congr fun j => ?_))
  · omega
  rw [pow_succ, show j + 1 + 2 = j + 2 + 1 by omega, pow_succ _ (j + 2)]
  omega

theorem bsearchLoop_zero_iff (h : SignProfile n cmp 0 upto) (ht : 2 ≤ upto) (fuel : Nat) :
    ∀ m : Nat, upto ≤ m → m ≤ n → m ≤ fuel →
      ((bsearchLoop cmp fuel (-1) (m - 1) false).1 = 0 ↔ upto = 2 ∧ StopsAtFirst m) := by
  induction fuel with
  | zero => intro m h1 _ h3; omega
  | succ fuel ih =>
    intro m hm hmn hf
    obtain ⟨mid, hmd⟩ : ∃ mid : Nat, ((-1 : Int) + (m - 1) + 1) / 2 = (mid : Int) :=
      ⟨(((-1 : Int) + (m - 1) + 1) / 2).toNat, by omega⟩
    have hz := h.eq_zero_iff (show mid < n by omega)
    have hn := h.nonpos mid (by omega)
    rw [bsearchLoop, if_pos (by omega)]
    simp only [hmd, Int.toNat_natCast]
    by_cases hlt : mid < upto
    · -- the middle is equal, and the search ends there
      rw [if_pos (hn.mpr hlt), if_pos (hz.mpr ⟨Nat.zero_le _, hlt⟩)]
      constructor
      · intro h0
        obtain rfl : m = 2 := by omega
        exact ⟨by omega, (stopsAtFirst_small le_rfl (by omega)).mpr rfl⟩
      · rintro ⟨hu, hs⟩
        have h2 := (stopsAtFirst_small (by omega) (by omega)).mp hs
        omega
    rw [if_neg (by omega)]
    have hr := ih mid (by omega) (by omega) (by omega)
    rw [hr, stopsAtFirst_half (show 5 ≤ m by omega)]
    rw [show (m - 1) / 2 = mid by omega]

/-- The search ends at the first element although the second is equal too: only
these two are equal, and the length is one of a kind. -/
theorem bsearch_zero_iff (h : SignProfile n cmp 0 upto) (ht : 2 ≤ upto) :
    (bsearch n cmp).1 = 0 ↔ upto = 2 ∧ StopsAtFirst n :=
  bsearchLoop_zero_iff h ht n n h.upto_le le_rfl le_rfl

/-! ## Walking -/

/-- `while (guard) { if (cmp of the next element != 0) break; move to it }`. -/
def walk (guard : Nat → Bool) (next : Nat → Nat) (cmp : Nat → Int) : Nat → Nat → Nat
  | 0, off => off
  | fuel + 1, off =>
    if guard off then
      if cmp (next off) ≠ 0 then off else walk guard next cmp fuel (next off)
    else off

variable {guard : Nat → Bool}

theorem walk_of_stop {next : Nat → Nat} (fuel : Nat) {off : Nat}
    (h : guard off = true → cmp (next off) ≠ 0) : walk guard next cmp fuel off = off := by
  cases fuel with
  | zero => rfl
  | succ fuel =>
    rw [walk]
    split
    next hg => rw [if_pos (h hg)]
    · rfl

theorem walk_up {last : Nat} (fuel : Nat) :
    ∀ off, off ≤ last → last - off ≤ fuel →
      (∀ i, off ≤ i → i < last → guard i = true ∧ cmp (i + 1) = 0) →
      (guard last = true → cmp (last + 1) ≠ 0) →
      walk guard (· + 1) cmp fuel off = last := by
  induction fuel with
  | zero =>
    intro off hle hf _ _
    rw [walk]
    omega
  | succ fuel ih =>
    intro off hle hf hs hst
    by_cases heq : off = last
    · rw [heq]
      exact walk_of_stop _ hst
    obtain ⟨hg, hc⟩ := hs off le_rfl (by omega)
    rw [walk, if_pos hg, if_neg (not_not.mpr hc)]
    exact ih (off + 1) (by omega) (by omega) (fun i hi => hs i (by omega)) hst

theorem walk_down {first : Nat} (fuel : Nat) :
    ∀ off, first ≤ off → off - first ≤ fuel →
      (∀ i, first < i → i ≤ off → guard i = true ∧ cmp (i - 1) = 0) →
      (guard first = true → cmp (first - 1) ≠ 0) →
      walk guard (· - 1) cmp fuel off = first := by
  induction fuel with
  | zero =>
    intro off hle hf _ _
    rw [walk]
    omega
  | succ fuel ih =>
    intro off hle hf hs hst
    by_cases heq : off = first
    · rw [heq]
      exact walk_of_stop _ hst
    obtain ⟨hg, hc⟩ := hs off (by omega) le_rfl
    rw [walk, if_pos hg, if_neg (not_not.mpr hc)]
    exact ih (off - 1) (by omega) (by omega) (fun i hi hio => hs i hi (by omega)) hst

/-! ## Halving -/

/-- `while (high > low) { mid = …; if (before(mid)) low = mid + 1; else high = mid }`;
`high - low` steps are enough. -/
def partitionPoint (before : Nat → Bool) : Nat → Nat → Nat → Nat
  | 0, low, _ => low
  | steps + 1, low, high =>
    if high > low then
      let mid := low + (high - low) / 2
      if before mid then partitionPoint before steps (mid + 1) high
      else partitionPoint before steps low mid
    else low

/-- The loop ends where the positions that are `before` end. -/
theorem partitionPoint_eq {before : Nat → Bool} {cut : Nat}
    (h : ∀ i < n, before i = true ↔ i < cut) {steps low high : Nat} (hs : high - low ≤ steps)
    (hl : low ≤ cut) (hc : cut ≤ high) (hh : high ≤ n) :
    partitionPoint before steps low high = cut := by
  induction steps generalizing low high with
  | zero =>
    rw [partitionPoint]
    omega
  | succ steps ih =>
    rw [partitionPoint]
    split
    · have hm := h (low + (high - low) / 2) (by omega)
      by_cases hlt : low + (high - low) / 2 < cut
      · exact (if_pos (hm.mpr hlt)).trans (ih (by omega) hlt hc hh)
      · exact (if_neg (mt hm.mp hlt)).trans (ih (by omega) hl (by omega) (by omega))
    · omega

end AthenaPG.Bisection
