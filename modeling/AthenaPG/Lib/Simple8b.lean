import Mathlib.Data.Nat.Bitwise
import Mathlib.Tactic

/-!
Simple-8b codewords (`src/backend/lib/integerset.c`).

A codeword packs the gaps between the integers of an increasing sequence: a selector of
four bits and as many gaps of equal width as its mode says.  The `uint64` variables are
numbers; the subtractions are of a smaller value, as the assertions of the source say.

* `selectMode_fits`: the gaps fit the mode that the encoder selects.
* `decodeLoop_pack`: the decoder reads packed gaps back.
* `simple8bEncode_decode`, `simple8bContains_iff`, `simple8b_round_trip`: the codec.
-/

namespace AthenaPG
open List Nat

/-! ## The code -/

def simple8bMaxValuesPerCodeword : Nat := 240

structure Simple8bMode where
  bitsPerInt : Nat
  numInts : Nat
  deriving DecidableEq

/-- `simple8b_modes`, with the sentinel. -/
def simple8bModes : List Simple8bMode :=
  [⟨0, 240⟩, ⟨0, 120⟩, ⟨1, 60⟩, ⟨2, 30⟩, ⟨3, 20⟩, ⟨4, 15⟩, ⟨5, 12⟩, ⟨6, 10⟩, ⟨7, 8⟩, ⟨8, 7⟩,
    ⟨10, 6⟩, ⟨12, 5⟩, ⟨15, 4⟩, ⟨20, 3⟩, ⟨30, 2⟩, ⟨60, 1⟩, ⟨0, 0⟩]

/-- `simple8b_modes[selector]`. -/
def simple8bMode (selector : Nat) : Simple8bMode := simple8bModes.getD selector ⟨0, 0⟩

def emptyCodeword : Nat := 0x0FFFFFFFFFFFFFFF

/-- The first loop of `simple8b_encode`, which selects the mode; each step takes the next
mode or accepts a gap. -/
def selectMode (ints : List Nat) : Nat → Nat → Nat → Nat → Nat → Nat
  | 0, selector, _, _, _ => selector
  | steps + 1, selector, i, diff, lastVal =>
    if diff ≥ 1 <<< (simple8bMode selector).bitsPerInt then
      -- too large, step up to the next mode
      if i ≥ (simple8bMode (selector + 1)).numInts then selector + 1
      else selectMode ints steps (selector + 1) i diff lastVal
    else if i + 1 ≥ (simple8bMode selector).numInts then selector
    else
      selectMode ints steps selector (i + 1) (ints.getD (i + 1) 0 - lastVal - 1)
        (ints.getD (i + 1) 0)

/-- The second loop of `simple8b_encode`, from index `i` down to 1. -/
def encodeLoop (ints : List Nat) (bits : Nat) : Nat → Nat → Nat
  | 0, codeword => codeword
  | i + 1, codeword =>
    encodeLoop ints bits i
      (((codeword ||| (ints.getD (i + 1) 0 - ints.getD i 0 - 1)) <<< bits) % 2 ^ 64)

/-- The mode that `simple8b_encode` selects. -/
def selectedMode (ints : List Nat) (base : Nat) : Nat :=
  selectMode ints (16 + simple8bMaxValuesPerCodeword) 0 0 (ints.getD 0 0 - base - 1) (ints.getD 0 0)

/-- `simple8b_encode`: the codeword and `num_encoded`. -/
def simple8bEncode (ints : List Nat) (base : Nat) : Nat × Nat :=
  let selector := selectedMode ints base
  let nints := (simple8bMode selector).numInts
  let bits := (simple8bMode selector).bitsPerInt
  if nints = 0 then (emptyCodeword, 0)
  else
    let codeword :=
      if bits > 0 then encodeLoop ints bits (nints - 1) 0 ||| (ints.getD 0 0 - base - 1) else 0
    (codeword ||| (selector <<< 60) % 2 ^ 64, nints)

/-- The loop of `simple8b_decode`, with the number of integers left. -/
def decodeLoop (bits : Nat) : Nat → Nat → Nat → List Nat
  | 0, _, _ => []
  | left + 1, codeword, currValue =>
    let diff := codeword &&& (1 <<< bits - 1)
    let currValue := (currValue + (1 + diff)) % 2 ^ 64
    currValue :: decodeLoop bits left (codeword >>> bits) currValue

def simple8bDecode (codeword base : Nat) : List Nat :=
  let mode := simple8bMode (codeword >>> 60)
  if codeword = emptyCodeword then [] else decodeLoop mode.bitsPerInt mode.numInts codeword base

/-- The loop of `simple8b_contains`. -/
def containsLoop (bits key : Nat) : Nat → Nat → Nat → Bool
  | 0, _, _ => false
  | left + 1, codeword, currValue =>
    let diff := codeword &&& (1 <<< bits - 1)
    let currValue := (currValue + (1 + diff)) % 2 ^ 64
    if currValue ≥ key then decide (currValue = key)
    else containsLoop bits key left (codeword >>> bits) currValue

def simple8bContains (codeword key base : Nat) : Bool :=
  let mode := simple8bMode (codeword >>> 60)
  if codeword = emptyCodeword then false
  else if mode.bitsPerInt = 0 then decide (key - base ≤ mode.numInts)
  else containsLoop mode.bitsPerInt key mode.numInts codeword base

/-! ## Gaps -/

/-- The numbers that are encoded: what lies between each integer and the one before. -/
def gaps : Nat → List Nat → List Nat
  | _, [] => []
  | base, x :: xs => (x - base - 1) :: gaps x xs

def fromGaps : Nat → List Nat → List Nat
  | _, [] => []
  | base, gap :: rest => (base + (1 + gap)) :: fromGaps (base + (1 + gap)) rest

theorem length_gaps (base : Nat) (xs : List Nat) : (gaps base xs).length = xs.length := by
  induction xs generalizing base with
  | nil => rfl
  | cons x xs ih => simp [gaps, ih]

variable {base : Nat} {ints : List Nat} {i bits cw : Nat}

theorem fromGaps_gaps {xs : List Nat} (h : (base :: xs).Pairwise (· < ·)) :
    fromGaps base (gaps base xs) = xs := by
  induction xs generalizing base with
  | nil => rfl
  | cons x xs ih =>
    obtain ⟨hb, ht⟩ := pairwise_cons.mp h
    have hlt := hb x mem_cons_self
    have hx : base + (1 + (x - base - 1)) = x := by omega
    rw [gaps, fromGaps, hx, ih ht]

theorem gaps_take (base : Nat) (xs : List Nat) (n : Nat) :
    gaps base (xs.take n) = (gaps base xs).take n := by
  induction xs generalizing base n with
  | nil => simp [gaps]
  | cons x xs ih =>
    cases n with
    | zero => rfl
    | succ n => simp [gaps, ih]

theorem getD_gaps_succ (base : Nat) (xs : List Nat) (i : Nat) (hi : i + 1 < xs.length) :
    (gaps base xs).getD (i + 1) 0 = xs.getD (i + 1) 0 - xs.getD i 0 - 1 := by
  induction xs generalizing base i with
  | nil => simp at hi
  | cons x xs ih =>
    cases i with
    | zero =>
      cases xs with
      | nil => simp at hi
      | cons y xs => simp [gaps]
    | succ i =>
      have hr := ih x i (by simpa using hi)
      simpa [gaps] using hr

theorem getD_gaps_zero (base : Nat) {xs : List Nat} (h : xs ≠ []) :
    (gaps base xs).getD 0 0 = xs.getD 0 0 - base - 1 := by
  cases xs with
  | nil => exact absurd rfl h
  | cons x xs => rfl

/-! ## Selecting a mode -/

/-- What the table of modes is used for: a wider mode has fewer integers, and they fit in 60
bits. -/
theorem simple8bMode_table :
    (∀ sel < 16, (simple8bMode sel).numInts ≤ simple8bMaxValuesPerCodeword ∧
      (simple8bMode sel).bitsPerInt * (simple8bMode sel).numInts ≤ 60) ∧
    (∀ sel < 15, (simple8bMode sel).bitsPerInt ≤ (simple8bMode (sel + 1)).bitsPerInt) ∧
    (∀ sel < 16, 0 < (simple8bMode sel).numInts) ∧ (simple8bMode 16).numInts = 0 := by
  decide

/-- The gaps that the codeword is going to hold fit the selected mode, and the sentinel is
reached only when the first gap does not fit the widest mode. -/
theorem selectMode_fits (hlen : simple8bMaxValuesPerCodeword ≤ ints.length) {steps sel : Nat}
    (hst : 16 + simple8bMaxValuesPerCodeword ≤ steps + sel + i) (hs : sel < 16)
    (hi : i < (simple8bMode sel).numInts)
    (hf : ∀ j < i, (gaps base ints).getD j 0 < 2 ^ (simple8bMode sel).bitsPerInt) :
    selectMode ints steps sel i ((gaps base ints).getD i 0) (ints.getD i 0) ≤ 16 ∧
      (selectMode ints steps sel i ((gaps base ints).getD i 0) (ints.getD i 0) = 16 →
        2 ^ 60 ≤ (gaps base ints).getD 0 0) ∧
      ∀ j < (simple8bMode (selectMode ints steps sel i ((gaps base ints).getD i 0)
          (ints.getD i 0))).numInts,
        (gaps base ints).getD j 0 < 2 ^ (simple8bMode (selectMode ints steps sel i
          ((gaps base ints).getD i 0) (ints.getD i 0))).bitsPerInt := by
  obtain ⟨ht, hw, _, hsn⟩ := simple8bMode_table
  have hm := (ht sel hs).1
  induction steps generalizing sel i with
  | zero => omega
  | succ steps ih =>
    rw [selectMode]
    split
    · -- step up to the next mode
      by_cases hls : sel = 15
      · subst hls
        rename_i hl
        have hfr : i = 0 := lt_one_iff.mp hi
        rw [hfr] at hl
        rw [if_pos (by rw [hsn]; omega)]
        refine ⟨le_refl _, fun _ => hl, fun j hj => ?_⟩
        rw [hsn] at hj
        omega
      have hb := hw sel (by omega)
      have hf' : ∀ j < i,
          (gaps base ints).getD j 0 < 2 ^ (simple8bMode (sel + 1)).bitsPerInt :=
        fun j hj => (hf j hj).trans_le (Nat.pow_le_pow_right (by decide) hb)
      split
      next hfl => exact ⟨by omega, by omega, fun j hj => hf' j (by omega)⟩
      · exact ih (by omega) (by omega) (by omega) hf' (ht _ (by omega)).1
    next hsm =>
      have hsm' : (gaps base ints).getD i 0 < 2 ^ (simple8bMode sel).bitsPerInt := by omega
      have hf' : ∀ j < i + 1, (gaps base ints).getD j 0 < 2 ^ (simple8bMode sel).bitsPerInt := by
        intro j hj
        obtain hj | rfl := Nat.lt_succ_iff_lt_or_eq.mp hj
        · exact hf j hj
        · exact hsm'
      split
      · exact ⟨by omega, by omega, fun j hj => hf' j (by omega)⟩
      rw [← getD_gaps_succ base ints i (by omega)]
      exact ih (by omega) hs (by omega) hf' hm

/-! ## Packing -/

/-- The number that gaps of the given width make up, the first in the low bits. -/
def pack (bits : Nat) : List Nat → Nat
  | [] => 0
  | gap :: rest => gap + 2 ^ bits * pack bits rest

theorem pack_lt {ds : List Nat} (h : ∀ d ∈ ds, d < 2 ^ bits) :
    pack bits ds < 2 ^ (bits * ds.length) := by
  induction ds with
  | nil => simp [pack]
  | cons d ds ih =>
    have hd := h d mem_cons_self
    have hr := ih fun d' hd' => h d' (mem_cons_of_mem d hd')
    have hp : 2 ^ (bits * (ds.length + 1)) = 2 ^ bits * 2 ^ (bits * ds.length) := by
      rw [← pow_add]
      ring_nf
    rw [pack, length_cons, hp]
    calc d + 2 ^ bits * pack bits ds < 2 ^ bits * (pack bits ds + 1) := by
          rw [mul_add]
          omega
      _ ≤ 2 ^ bits * 2 ^ (bits * ds.length) := mul_le_mul_left _ hr

theorem shifted_or {gap : Nat} (rest : Nat) (h : gap < 2 ^ bits) :
    2 ^ bits * rest ||| gap = gap + 2 ^ bits * rest := by
  rw [← two_pow_add_eq_or_of_lt h, add_comm]

/-- What the decoder reads out of packed gaps, whatever stands in the bits above. -/
theorem decodeLoop_pack {ds : List Nat} (h : ∀ d ∈ ds, d < 2 ^ bits) (above base : Nat)
    (hlt : ∀ x ∈ fromGaps base ds, x < 2 ^ 64) :
    decodeLoop bits ds.length (pack bits ds + 2 ^ (bits * ds.length) * above) base =
      fromGaps base ds := by
  induction ds generalizing base with
  | nil => rfl
  | cons d ds ih =>
    have hd := h d mem_cons_self
    have hr : ∀ d' ∈ ds, d' < 2 ^ bits := fun d' hd' => h d' (mem_cons_of_mem d hd')
    have hv := hlt _ mem_cons_self
    have hw : pack bits (d :: ds) + 2 ^ (bits * (d :: ds).length) * above =
        d + 2 ^ bits * (pack bits ds + 2 ^ (bits * ds.length) * above) := by
      rw [pack, length_cons, mul_succ, pow_add]
      ring
    have hl : (d + 2 ^ bits * (pack bits ds + 2 ^ (bits * ds.length) * above)) &&&
        (1 <<< bits - 1) = d := by
      rw [one_shiftLeft, and_two_pow_sub_one_eq_mod, add_mul_mod_self_left, mod_eq_of_lt hd]
    have hh : (d + 2 ^ bits * (pack bits ds + 2 ^ (bits * ds.length) * above)) >>> bits =
        pack bits ds + 2 ^ (bits * ds.length) * above := by
      rw [shiftRight_eq_div_pow, add_mul_div_left _ _ (Nat.two_pow_pos bits),
        div_eq_of_lt hd, zero_add]
    rw [hw, length_cons, decodeLoop, hl, hh, mod_eq_of_lt hv, fromGaps]
    exact congrArg _ (ih hr _ fun x hx => hlt x (mem_cons_of_mem _ hx))

/-- The loop of `simple8b_contains` stops at the first value that is not below the key, so
it finds the key among increasing values. -/
theorem containsLoop_eq (bits key : Nat) {left : Nat}
    (h : (decodeLoop bits left cw base).Pairwise (· < ·)) :
    containsLoop bits key left cw base = decide (key ∈ decodeLoop bits left cw base) := by
  induction left generalizing cw base with
  | zero => simp [containsLoop, decodeLoop]
  | succ left ih =>
    obtain ⟨hf, hr⟩ := pairwise_cons.mp h
    rw [containsLoop]
    by_cases hge : (base + (1 + (cw &&& (1 <<< bits - 1)))) % 2 ^ 64 ≥ key
    · rw [if_pos hge]
      have hn : key ∉ decodeLoop bits left (cw >>> bits)
          ((base + (1 + (cw &&& (1 <<< bits - 1)))) % 2 ^ 64) := by
        intro hm
        have := hf key hm
        omega
      rw [decide_eq_decide]
      constructor
      · intro heq
        exact heq ▸ mem_cons_self
      · intro hm
        exact ((mem_cons.mp hm).resolve_right hn).symm
    rw [if_neg hge, ih hr, decide_eq_decide]
    constructor
    · exact mem_cons_of_mem _
    · intro hm
      refine (mem_cons.mp hm).resolve_left fun heq => hge ?_
      exact heq.le

theorem encodeLoop_pack (base : Nat) {n : Nat} (hn : n ≤ ints.length)
    (hf : ∀ j < n, (gaps base ints).getD j 0 < 2 ^ bits) (hb : bits * n ≤ 60) (hi : i < n) :
    encodeLoop ints bits i (2 ^ bits * pack bits (((gaps base ints).take n).drop (i + 1))) =
      2 ^ bits * pack bits (((gaps base ints).take n).drop 1) := by
  have hlen : ((gaps base ints).take n).length = n := by
    rw [length_take, length_gaps]
    omega
  have hm : ∀ d ∈ (gaps base ints).take n, d < 2 ^ bits := by
    intro d hd
    obtain ⟨j, hj, rfl⟩ := mem_iff_getElem.mp hd
    rw [hlen] at hj
    have hg := hf j hj
    rw [getD_eq_getElem _ _ (by rw [length_gaps]; omega)] at hg
    rwa [getElem_take]
  induction i with
  | zero => rfl
  | succ i ih =>
    have hst : ((gaps base ints).take n).drop (i + 1) =
        (ints.getD (i + 1) 0 - ints.getD i 0 - 1) :: ((gaps base ints).take n).drop (i + 2) := by
      rw [drop_eq_getElem_cons (by omega), ← getD_gaps_succ base ints i (by omega),
        getD_eq_getElem _ _ (by rw [length_gaps]; omega), getElem_take]
    have hgp : ints.getD (i + 1) 0 - ints.getD i 0 - 1 < 2 ^ bits := by
      rw [← getD_gaps_succ base ints i (by omega)]
      exact hf (i + 1) hi
    have hs : pack bits (((gaps base ints).take n).drop (i + 1)) * 2 ^ bits < 2 ^ 64 := by
      have hlt := pack_lt fun d hd => hm d (mem_of_mem_drop (i := i + 1) hd)
      rw [length_drop, hlen] at hlt
      have hsm : bits * (n - (i + 1)) + bits ≤ 60 := by
        calc bits * (n - (i + 1)) + bits = bits * (n - (i + 1) + 1) := by ring
          _ ≤ bits * n := mul_le_mul_left _ (by omega)
          _ ≤ 60 := hb
      calc pack bits (((gaps base ints).take n).drop (i + 1)) * 2 ^ bits
          < 2 ^ (bits * (n - (i + 1))) * 2 ^ bits :=
            mul_lt_mul_of_pos_right hlt (Nat.two_pow_pos bits)
        _ = 2 ^ (bits * (n - (i + 1)) + bits) := (pow_add _ _ _).symm
        _ < 2 ^ 64 := Nat.pow_lt_pow_right (by decide) (by omega)
    have hp := congrArg (pack bits) hst
    rw [pack] at hp
    rw [encodeLoop, shifted_or _ hgp, ← hp, shiftLeft_eq, mod_eq_of_lt hs, mul_comm]
    exact ih (by omega)

theorem mem_decodeLoop_zero {left key : Nat}
    (h : (base :: decodeLoop 0 left cw base).Pairwise (· < ·)) :
    key ∈ decodeLoop 0 left cw base ↔ base < key ∧ key - base ≤ left := by
  induction left generalizing cw base with
  | zero =>
    simp only [decodeLoop, not_mem_nil, false_iff]
    omega
  | succ left ih =>
    rw [decodeLoop] at h ⊢
    simp only [shiftLeft_zero, Nat.sub_self, and_zero, Nat.add_zero] at h ⊢
    obtain ⟨hf, hr⟩ := pairwise_cons.mp h
    have hn := hf _ mem_cons_self
    rw [mem_cons, ih hr]
    omega

/-! ## The codec -/

section Codec

variable {ints : List Nat} {base : Nat} (hlen : simple8bMaxValuesPerCodeword ≤ ints.length)

include hlen

theorem selectedMode_fits (base : Nat) : selectedMode ints base ≤ 16 ∧
    (selectedMode ints base = 16 → 2 ^ 60 ≤ (gaps base ints).getD 0 0) ∧
    ∀ j < (simple8bMode (selectedMode ints base)).numInts,
      (gaps base ints).getD j 0 < 2 ^ (simple8bMode (selectedMode ints base)).bitsPerInt := by
  have hne : ints ≠ [] := by
    rintro rfl
    exact absurd hlen (by decide)
  rw [selectedMode, ← getD_gaps_zero base hne]
  exact selectMode_fits hlen (by omega) (by decide) (by decide) (by omega)

theorem encodedGaps_fit {n : Nat} (hn : (simple8bMode (selectedMode ints base)).numInts = n)
    (hle : n ≤ ints.length) : ((gaps base ints).take n).length = n ∧
      ∀ d ∈ (gaps base ints).take n,
        d < 2 ^ (simple8bMode (selectedMode ints base)).bitsPerInt := by
  have hl : ((gaps base ints).take n).length = n := by
    rw [length_take, length_gaps]
    omega
  refine ⟨hl, fun d hd => ?_⟩
  obtain ⟨j, hj, rfl⟩ := mem_iff_getElem.mp hd
  have hg := (selectedMode_fits hlen base).2.2 j (by omega)
  rw [getD_eq_getElem _ _ (by rw [length_gaps]; omega)] at hg
  rwa [getElem_take]

theorem simple8bEncode_word (hs : selectedMode ints base < 16) :
    simple8bEncode ints base =
      (pack (simple8bMode (selectedMode ints base)).bitsPerInt
          ((gaps base ints).take (simple8bMode (selectedMode ints base)).numInts) +
        2 ^ 60 * selectedMode ints base,
      (simple8bMode (selectedMode ints base)).numInts) := by
  obtain ⟨ht, _, hps, _⟩ := simple8bMode_table
  obtain ⟨hm, hb⟩ := ht _ hs
  have hn := hps _ hs
  have hle := hm.trans hlen
  obtain ⟨hd, hds⟩ := encodedGaps_fit hlen rfl hle
  have hf := (selectedMode_fits hlen base).2.2
  rw [simple8bEncode]
  generalize selectedMode ints base = sel at *
  generalize (simple8bMode sel).numInts = n at *
  generalize (simple8bMode sel).bitsPerInt = bits at *
  have hne : ints ≠ [] := by
    rintro rfl
    simp at hle
    omega
  have hp := pack_lt hds
  rw [hd] at hp
  have hp60 := hp.trans_le (Nat.pow_le_pow_right (by decide) hb)
  have hsh : (sel <<< 60) % 2 ^ 64 = 2 ^ 60 * sel := by
    rw [shiftLeft_eq, mul_comm]
    omega
  have hw : (if bits > 0 then encodeLoop ints bits (n - 1) 0 ||| (ints.getD 0 0 - base - 1)
      else 0) = pack bits ((gaps base ints).take n) := by
    split
    next hwd =>
      have hl := encodeLoop_pack base hle hf hb (i := n - 1) (by omega)
      have hnl : ((gaps base ints).take n).drop (n - 1 + 1) = [] := by
        rw [drop_eq_nil_iff, hd]
        omega
      rw [hnl, pack, Nat.mul_zero] at hl
      have hfr : ints.getD 0 0 - base - 1 < 2 ^ bits := by
        rw [← getD_gaps_zero base hne]
        exact hf 0 hn
      have hc : (gaps base ints).take n =
          (ints.getD 0 0 - base - 1) :: ((gaps base ints).take n).drop 1 := by
        rw [← getD_gaps_zero base hne, getD_eq_getElem _ _ (by rw [length_gaps]; omega)]
        have hdr := drop_eq_getElem_cons (l := (gaps base ints).take n) (i := 0) (by omega)
        rwa [drop_zero, getElem_take] at hdr
      rw [hl, shifted_or _ hfr]
      conv_rhs => rw [hc]
      rfl
    next hnr =>
      have hz : bits = 0 := by omega
      subst hz
      rw [Nat.zero_mul, pow_zero] at hp
      omega
  simp only [hw, hsh, if_neg hn.ne']
  rw [Nat.or_comm, shifted_or _ hp60]

/-- **The decoder returns the integers that the encoder took.** -/
theorem simple8bEncode_decode (hsr : (base :: ints).Pairwise (· < ·))
    (hlt : ∀ x ∈ ints, x < 2 ^ 64) :
    (simple8bEncode ints base).2 ≤ simple8bMaxValuesPerCodeword ∧
      ((simple8bEncode ints base).1 = emptyCodeword ↔ (simple8bEncode ints base).2 = 0) ∧
      simple8bDecode (simple8bEncode ints base).1 base =
        ints.take (simple8bEncode ints base).2 := by
  obtain ⟨ht, _, hps, hsn⟩ := simple8bMode_table
  obtain hs | hs := lt_or_eq_of_le (selectedMode_fits hlen base).1
  · obtain ⟨hm, hb⟩ := ht _ hs
    have hle := hm.trans hlen
    obtain ⟨hd, hds⟩ := encodedGaps_fit hlen rfl hle
    have hp := pack_lt hds
    rw [hd] at hp
    have hp60 := hp.trans_le (Nat.pow_le_pow_right (by decide) hb)
    have hnn := hps _ hs
    rw [simple8bEncode_word hlen hs]
    generalize selectedMode ints base = sel at *
    have hf : fromGaps base
        ((gaps base ints).take (simple8bMode sel).numInts) =
        ints.take (simple8bMode sel).numInts := by
      rw [← gaps_take]
      refine fromGaps_gaps (List.Pairwise.sublist ?_ hsr)
      exact (take_sublist _ _).cons_cons base
    have htp : (pack (simple8bMode sel).bitsPerInt
        ((gaps base ints).take (simple8bMode sel).numInts) + 2 ^ 60 * sel) >>> 60 =
          sel := by
      rw [shiftRight_eq_div_pow]
      omega
    have hn : pack (simple8bMode sel).bitsPerInt
        ((gaps base ints).take (simple8bMode sel).numInts) + 2 ^ 60 * sel ≠
          emptyCodeword := by
      have hv : emptyCodeword = 2 ^ 60 - 1 := rfl
      by_cases hz : sel = 0
      · -- a mode-0 codeword has zeroes in the unused bits
        rw [hz] at hp ⊢
        have : (simple8bMode 0).bitsPerInt = 0 := rfl
        rw [this, Nat.zero_mul, pow_zero] at hp
        rw [hv, this]
        omega
      rw [hv]
      omega
    refine ⟨hm, iff_of_false hn hnn.ne', ?_⟩
    rw [simple8bDecode, htp, if_neg hn]
    have hr := decodeLoop_pack hds
      (2 ^ (60 - (simple8bMode sel).bitsPerInt * (simple8bMode sel).numInts) * sel)
      base
      (by rw [hf]; exact fun x hx => hlt x (mem_of_mem_take hx))
    rwa [hd, ← mul_assoc, ← pow_add, Nat.add_sub_cancel' hb, hf] at hr
  rw [simple8bEncode, hs, hsn, if_pos rfl]
  exact ⟨by decide, by decide, by simp [simple8bDecode]⟩

/-- The codeword holds no integer exactly when the first gap is too large for every mode. -/
theorem simple8bEncode_eq_zero_iff :
    (simple8bEncode ints base).2 = 0 ↔ 2 ^ 60 ≤ ints.getD 0 0 - base - 1 := by
  obtain ⟨ht, _, hp, hsn⟩ := simple8bMode_table
  obtain ⟨hle, hl, hft⟩ := selectedMode_fits hlen base
  have hne : ints ≠ [] := by
    rintro rfl
    exact absurd hlen (by decide)
  rw [← getD_gaps_zero base hne]
  obtain hs | hs := lt_or_eq_of_le hle
  · have hn := hp _ hs
    have hb := (Nat.le_mul_of_pos_right _ hn).trans (ht _ hs).2
    have hf := (hft 0 hn).trans_le (Nat.pow_le_pow_right (by decide) hb)
    rw [simple8bEncode_word hlen hs]
    exact iff_of_false hn.ne' hf.not_ge
  rw [simple8bEncode, hs, hsn, if_pos rfl]
  exact iff_of_true rfl (hl hs)

end Codec

/-- **`simple8b_contains` finds the integers that the codeword holds**, if they increase from
the base. -/
theorem simple8bContains_iff {key : Nat}
    (h : (base :: simple8bDecode cw base).Pairwise (· < ·)) (hk : base < key) :
    simple8bContains cw key base = true ↔ key ∈ simple8bDecode cw base := by
  rw [simple8bDecode] at h ⊢
  rw [simple8bContains]
  by_cases he : cw = emptyCodeword
  · simp [he]
  rw [if_neg he] at h ⊢
  rw [if_neg he]
  split
  next hb =>
    rw [hb] at h ⊢
    rw [mem_decodeLoop_zero h]
    simp [hk]
  · rw [containsLoop_eq _ _ h.of_cons, decide_eq_true_iff]

/-- **The round trip**: the codeword holds the first `n` of the integers, whether it is decoded
or searched, and it is the escape value exactly when the first gap needs more than 60 bits. -/
theorem simple8b_round_trip (base : Nat) (ints : List Nat)
    (hlen : simple8bMaxValuesPerCodeword ≤ ints.length)
    (hsorted : (base :: ints).Pairwise (· < ·)) (hlt : ∀ x ∈ ints, x < 2 ^ 64) :
    ∃ codeword n, simple8bEncode ints base = (codeword, n) ∧ n ≤ ints.length ∧
      simple8bDecode codeword base = ints.take n ∧
      (∀ key > base, simple8bContains codeword key base = true ↔ key ∈ ints.take n) ∧
      (n = 0 ↔ 2 ^ 60 ≤ ints.getD 0 0 - base - 1) ∧ (codeword = emptyCodeword ↔ n = 0) := by
  obtain ⟨hm, he, hd⟩ := simple8bEncode_decode hlen hsorted hlt
  have hz := @simple8bEncode_eq_zero_iff ints base hlen
  generalize simple8bEncode ints base = encoded at *
  obtain ⟨codeword, n⟩ := encoded
  refine ⟨codeword, n, rfl, hm.trans hlen, hd, fun key hk => ?_, hz, he⟩
  rw [← hd]
  refine simple8bContains_iff ?_ hk
  rw [hd]
  exact List.Pairwise.sublist ((take_sublist _ _).cons_cons base) hsorted

theorem simple8b_round_trip_consecutive :
    ∃ codeword n, simple8bEncode (range' 1 240) 0 = (codeword, n) ∧ n ≠ 0 ∧
      simple8bDecode codeword 0 = (range' 1 240).take n := by
  obtain ⟨codeword, n, he, _, hd, _, hz, _⟩ := simple8b_round_trip 0
    (range' 1 240) (by decide +kernel) (by decide +kernel) (by decide +kernel)
  exact ⟨codeword, n, he, mt hz.mp (by decide), hd⟩

/-! ## Consecutive integers -/

theorem selectMode_zero {steps : Nat}
    (hz : ∀ j < simple8bMaxValuesPerCodeword, (gaps base ints).getD j 0 = 0)
    (hlen : simple8bMaxValuesPerCodeword ≤ ints.length)
    (hs : simple8bMaxValuesPerCodeword ≤ steps + i) (hi : i < simple8bMaxValuesPerCodeword) :
    selectMode ints steps 0 i ((gaps base ints).getD i 0) (ints.getD i 0) = 0 := by
  have hm : simple8bMode 0 = ⟨0, simple8bMaxValuesPerCodeword⟩ := rfl
  induction steps generalizing i with
  | zero => omega
  | succ steps ih =>
    rw [selectMode, hm, hz i hi, if_neg (by decide)]
    by_cases hl : i + 1 ≥ simple8bMaxValuesPerCodeword
    · exact if_pos hl
    rw [if_neg hl, ← getD_gaps_succ base ints i (by omega)]
    exact ih (by omega) (by omega)

theorem simple8bEncode_consecutive (hlen : simple8bMaxValuesPerCodeword ≤ ints.length)
    (hz : ∀ j < simple8bMaxValuesPerCodeword, (gaps base ints).getD j 0 = 0) :
    (simple8bEncode ints base).2 = simple8bMaxValuesPerCodeword := by
  have hne : ints ≠ [] := by
    rintro rfl
    exact absurd hlen (by decide)
  have hs : selectedMode ints base = 0 := by
    rw [selectedMode, ← getD_gaps_zero base hne]
    exact selectMode_zero hz hlen (by omega) (by decide)
  rw [simple8bEncode_word hlen (by omega), hs]
  rfl

end AthenaPG
