import AthenaPG.Nodes.Bitmapset
import AthenaPG.Library.Comparator
import Mathlib.Data.List.GetD

/-!
The other operations of `src/backend/nodes/bitmapset.c`: intersection and
difference, the membership class and the index of a member, the comparator, the
hash value, and the searches for the next and the previous member.

Members, and the results of the searches, are C `int`s; a word array that only
holds such members has at most `maxWords` words (`Addressable`).

* `mem_bmsIntersect`, `mem_bmsDifference`, `bmsMembership_eq`, `bmsMemberIndex_eq`;
* `isComparator_bmsCompare`, `bmsCompare_eq_zero_iff`, `bmsHashValue_congr`;
* `bmsNextMember_spec`, `bmsPrevMember_spec`, and what loops over them list:
  `nextLoop_eq`, `prevLoop_eq`;
* **`bitmapset_refines_iff`**: the operations are those of finite sets of
  naturals, for every set without the member `INT_MAX`.
-/

namespace AthenaPG
open List Nat

open AthenaPG.Comparator
open BitVec (getLsbD getLsbD_and getLsbD_not getLsbD_zero lt_def)
open List (range zipWith)

/-! ## C integers -/

/-- `INT_MAX`. -/
def bmsIntMax : Nat := 2 ^ 31 - 1

/-- A value stored in an `int`, in two's complement. -/
def wrapInt (x : Int) : Int := Int.bmod x (2 ^ 32)

variable {x : Int} {a : Relids} {w : Bitmapword} {b : List Bitmapword} {n : Nat}
  {ws : List Bitmapword} {bd : Nat}

theorem wrapInt_of_lt (hl : -2 ^ 31 ≤ x) (hh : x < 2 ^ 31) : wrapInt x = x := by
  unfold wrapInt
  rw [Int.bmod_def]
  split <;> omega

/-- `WORDNUM(INT_MAX) + 1`: the words that `int` members can need. -/
def maxWords : Nat := 2 ^ 25

/-- `a->nwords`, nothing being allocated for `NULL`. -/
def nwords : Relids → Nat
  | none => 0
  | some s => s.words.length

/-- The array has no word beyond the one of `INT_MAX`. -/
def Addressable (a : Relids) : Prop := nwords a ≤ maxWords

instance (a : Relids) : Decidable (Addressable a) :=
  inferInstanceAs (Decidable (nwords a ≤ maxWords))

theorem Addressable.member_le (h : Addressable a) {x : Nat} (hx : x ∈ a) : x ≤ bmsIntMax := by
  cases a with
  | none => exact absurd hx (not_mem_none x)
  | some s =>
    have hl : s.words.length ≤ 2 ^ 25 := h
    have hlt := mem_lt_length hx
    have hm : bmsIntMax = 2 ^ 31 - 1 := rfl
    omega

/-! ## Intersection and difference -/

/-- The loop of `bms_intersect`: the longer array is and-ed into a copy of the
shorter. -/
def intersectWords (a b : List Bitmapword) : List Bitmapword :=
  if a.length ≤ b.length then zipWith (· &&& ·) a b else zipWith (· &&& ·) b a

theorem wordBit_zipWith_and (a b : List Bitmapword) (x : Nat) :
    wordBit (zipWith (· &&& ·) a b) x = (wordBit a x && wordBit b x) := by
  induction a generalizing b x with
  | nil => simp
  | cons v a ih =>
    cases b with
    | nil => simp
    | cons w b =>
      simp only [zipWith_cons_cons, wordBit_cons]
      split
      · simp
      · exact ih b _

theorem wordBit_intersectWords (a b : List Bitmapword) (x : Nat) :
    wordBit (intersectWords a b) x = (wordBit a x && wordBit b x) := by
  unfold intersectWords
  split
  · exact wordBit_zipWith_and a b x
  · rw [wordBit_zipWith_and, Bool.and_comm]

def bmsIntersect : Relids → Relids → Relids
  | none, _ => none
  | _, none => none
  | some a, some b => ofWords (intersectWords a.words b.words)

@[simp] theorem mem_bmsIntersect (x : Nat) (a b : Relids) :
    x ∈ bmsIntersect a b ↔ x ∈ a ∧ x ∈ b := by
  cases a with
  | none => simp [bmsIntersect]
  | some a =>
    cases b with
    | none => simp [bmsIntersect]
    | some b => simp [bmsIntersect, mem_ofWords, mem_some_iff, wordBit_intersectWords]

/-- The loops of `bms_nonempty_difference`. -/
def nonemptyDifferenceWords : List Bitmapword → List Bitmapword → Bool
  | [], _ => false
  | x :: a, [] => x != 0 || nonemptyDifferenceWords a []
  | x :: a, y :: b => (x &&& ~~~y) != 0 || nonemptyDifferenceWords a b

def bmsNonemptyDifference : Relids → Relids → Bool
  | none, _ => false
  | some _, none => true
  | some a, some b => nonemptyDifferenceWords a.words b.words

theorem nonemptyDifferenceWords_iff (a b : List Bitmapword) :
    nonemptyDifferenceWords a b = true ↔ ∃ x, wordBit a x = true ∧ wordBit b x = false := by
  have hs : nonemptyDifferenceWords a b = !subsetWords a b := by
    induction a, b using nonemptyDifferenceWords.induct with
    | case1 b => simp [nonemptyDifferenceWords, subsetWords]
    | case2 x a ih =>
      rw [nonemptyDifferenceWords, ih]
      cases a <;> simp [subsetWords, bne]
    | case3 x a y b ih => simp [nonemptyDifferenceWords, subsetWords, ih, bne]
  rw [hs, Bool.not_eq_true', ← Bool.not_eq_true, subsetWords_iff]
  push Not
  simp

theorem bmsNonemptyDifference_iff (a b : Relids) :
    bmsNonemptyDifference a b = true ↔ ∃ x, x ∈ a ∧ ¬ x ∈ b := by
  cases a with
  | none => simp [bmsNonemptyDifference]
  | some a =>
    cases b with
    | none =>
      obtain ⟨x, hx⟩ := exists_mem_some a
      simpa [bmsNonemptyDifference] using ⟨x, hx⟩
    | some b => simp [bmsNonemptyDifference, nonemptyDifferenceWords_iff, mem_some_iff]

/-- `bms_difference`.  An empty result is noticed before the copy is made. -/
def bmsDifference : Relids → Relids → Relids
  | none, _ => none
  | a, none => a
  | some a, some b =>
    if h : nonemptyDifferenceWords a.words b.words = true then some
      { words := delWords a.words b.words
        hasMember := by
          obtain ⟨x, hxa, hxb⟩ := (nonemptyDifferenceWords_iff _ _).mp h
          exact (exists_word_ne_zero_iff _).mpr ⟨x, by rw [wordBit_delWords, hxa, hxb]; rfl⟩ }
    else none

@[simp] theorem mem_bmsDifference (x : Nat) (a b : Relids) :
    x ∈ bmsDifference a b ↔ x ∈ a ∧ ¬ x ∈ b := by
  cases a with
  | none => simp [bmsDifference]
  | some a =>
    cases b with
    | none => simp [bmsDifference]
    | some b =>
      rw [bmsDifference]
      split
      · simp [mem_some_iff, wordBit_delWords]
      next he =>
        rw [nonemptyDifferenceWords_iff] at he
        push Not at he
        simpa [mem_some_iff] using he x

/-- `bms_join`, which differs from `bms_union` in what it recycles. -/
def bmsJoin (a b : Relids) : Relids := bmsUnion a b

/-! ## Counting and indexing members -/

/-- `HAS_MULTIPLE_ONES(x)`: the word is not its own rightmost one-bit. -/
def hasMultipleOnes (w : Bitmapword) : Bool := (w &&& -w) != w

inductive BmsMembership
  | emptySet
  | singleton
  | multiple
  deriving DecidableEq, Repr

/-- The loop of `bms_membership`, with the class of the words seen so far. -/
def membershipWords (result : BmsMembership) : List Bitmapword → BmsMembership
  | [] => result
  | w :: ws =>
    if w ≠ 0 then
      if result ≠ .emptySet ∨ hasMultipleOnes w = true then .multiple
      else membershipWords .singleton ws
    else membershipWords result ws

def bmsMembership : Relids → BmsMembership
  | none => .emptySet
  | some a => membershipWords .emptySet a.words

def BmsMembership.ofCount : Nat → BmsMembership
  | 0 => .emptySet
  | 1 => .singleton
  | _ => .multiple

theorem getLsbD_and_neg (w : Bitmapword) {i : Nat} (hi : i < 64) :
    (w &&& -w).getLsbD i = (w.getLsbD i && !decide (∃ j < i, w.getLsbD j = true)) := by
  rw [getLsbD_and, BitVec.getLsbD_neg]
  cases w.getLsbD i <;> simp [hi]

theorem bmwPopcount_eq_card (w : Bitmapword) :
    bmwPopcount w = ((Finset.range 64).filter fun i => w.getLsbD i = true).card := by
  rw [bmwPopcount, countP_eq_length_filter, ← toFinset_card_of_nodup
    (nodup_range.filter _)]
  congr 1
  ext i
  simp

theorem hasMultipleOnes_iff (w : Bitmapword) : hasMultipleOnes w = true ↔ 1 < bmwPopcount w := by
  rw [bmwPopcount_eq_card, Finset.one_lt_card, hasMultipleOnes, bne_iff_ne]
  simp only [Finset.mem_filter, Finset.mem_range]
  constructor
  · intro hne
    by_contra ho
    refine hne (BitVec.eq_of_getLsbD_eq fun i hi => ?_)
    rw [getLsbD_and_neg w hi]
    cases hb : w.getLsbD i with
    | false => rfl
    | true =>
      have hlw : ¬ ∃ j < i, w.getLsbD j = true := by
        rintro ⟨j, hj, hjb⟩
        exact ho ⟨j, ⟨by omega, hjb⟩, i, ⟨hi, hb⟩, by omega⟩
      simp [hlw]
  · rintro ⟨i, ⟨hi, hib⟩, j, ⟨hj, hjb⟩, hij⟩ heq
    -- the higher of the two bits is lost
    have hl : ∀ i j, i < j → j < 64 → w.getLsbD i = true → w.getLsbD j = true → False := by
      intro i j hij hj hi' hj'
      have hb := congrArg (getLsbD · j) heq
      simp only [getLsbD_and_neg w hj, hj', Bool.true_and, Bool.not_eq_true',
        decide_eq_false_iff_not] at hb
      exact hb ⟨i, hij, hi'⟩
    obtain h | h := lt_or_gt_of_ne hij
    · exact hl i j h hj hib hjb
    · exact hl j i h hi hjb hib

theorem bmwPopcount_pos (hw : w ≠ 0) : 0 < bmwPopcount w := by
  obtain ⟨i, hi, hb⟩ := (word_ne_zero_iff w).mp hw
  rw [bmwPopcount, countP_pos_iff]
  exact ⟨i, mem_range.mpr hi, hb⟩

variable (ws)

theorem membershipWords_eq {count : Nat} (h : count ≤ 1) :
    membershipWords (.ofCount count) ws = .ofCount (count + countWords ws) := by
  induction ws generalizing count with
  | nil => rfl
  | cons w ws ih =>
    rw [membershipWords, countWords]
    by_cases hw : w = 0
    · rw [if_neg (not_not.mpr hw), if_neg (not_not.mpr hw), ih h, zero_add]
    have hp := bmwPopcount_pos hw
    have hmn := hasMultipleOnes_iff w
    rw [if_pos hw, if_pos hw]
    by_cases hm : BmsMembership.ofCount count ≠ .emptySet ∨ hasMultipleOnes w = true
    · rw [if_pos hm]
      have ht : 2 ≤ count + bmwPopcount w := by
        obtain hc | ho := hm
        · have : count ≠ 0 := by
            rintro rfl
            exact hc rfl
          omega
        have := hmn.mp ho
        omega
      obtain ⟨rest, hr⟩ := Nat.exists_eq_add_of_le ht
      rw [show count + (bmwPopcount w + countWords ws) = rest + countWords ws + 2 by omega]
      rfl
    rw [if_neg hm]
    push Not at hm
    have hz : count = 0 := by
      have hc := hm.1
      interval_cases count
      · rfl
      · cases hc
    have hon : bmwPopcount w = 1 := by
      have := mt hmn.mpr hm.2
      omega
    rw [hz, hon, zero_add]
    exact ih (le_refl 1)

/-- **`bms_membership`** classifies the number of members. -/
theorem bmsMembership_eq (a : Relids) : bmsMembership a = .ofCount (toFinset a).card := by
  rw [← bmsNumMembers_eq]
  cases a with
  | none => rfl
  | some a =>
    have h := membershipWords_eq a.words (zero_le 1)
    rwa [zero_add] at h

def bmsMemberIndex (a : Relids) (x : Nat) : Int := match a with
  | none => -1
  | some s =>
    if bmsIsMember x (some s) = true then
      (countWords (s.words.take (x / 64)) +
        bmwPopcount (s.words.getD (x / 64) 0 &&& ((1#64 <<< (x % 64)) - 1)) : Nat)
    else -1

theorem countWords_take_add {x : Nat} (hx : x / 64 < ws.length) :
    countWords (ws.take (x / 64)) +
        bmwPopcount (ws.getD (x / 64) 0 &&& ((1#64 <<< (x % 64)) - 1)) =
      (range x).countP (wordBit ws) := by
  have hb := mod_lt x (by decide : 64 > 0)
  have hlw : countWords (ws.take (x / 64)) = (range (64 * (x / 64))).countP (wordBit ws) := by
    rw [countWords_eq, length_take_of_le hx.le]
    refine countP_congr fun y hy => ?_
    have hy : y / 64 < x / 64 := by
      have := mem_range.mp hy
      omega
    rw [wordBit, wordBit, getD_eq_getElem?_getD, getD_eq_getElem?_getD, getElem?_take_of_lt hy]
  have hl : bmwPopcount (ws.getD (x / 64) 0 &&& ((1#64 <<< (x % 64)) - 1)) =
      (range (x % 64)).countP fun i => wordBit ws (64 * (x / 64) + i) := by
    have hs : range 64 = range (x % 64) ++ (range (64 - x % 64)).map (x % 64 + ·) := by
      rw [← range_add, Nat.add_sub_cancel' hb.le]
    have hm : ∀ j < 64, ((1#64 <<< (x % 64)) - 1).getLsbD j = decide (j < x % 64) := by
      intro j hj
      have hf := getLsbD_maskFrom hb hj
      rw [maskFrom, getLsbD_not, decide_eq_true hj, Bool.true_and] at hf
      rw [← Bool.not_not (getLsbD _ j), hf, ← decide_not, decide_eq_decide]
      omega
    rw [bmwPopcount, hs, countP_append]
    have hn : ((range (64 - x % 64)).map (x % 64 + ·)).countP
        (ws.getD (x / 64) 0 &&& ((1#64 <<< (x % 64)) - 1)).getLsbD = 0 := by
      rw [countP_eq_zero]
      intro i hi
      obtain ⟨j, hj, rfl⟩ := mem_map.mp hi
      have hj := mem_range.mp hj
      rw [getLsbD_and, hm _ (by omega), decide_eq_false (by omega), Bool.and_false]
      exact Bool.false_ne_true
    rw [hn, add_zero]
    refine countP_congr fun i hi => ?_
    have hi := mem_range.mp hi
    rw [getLsbD_and, hm i (by omega), decide_eq_true hi, Bool.and_true, wordBit,
      show (64 * (x / 64) + i) / 64 = x / 64 by omega, show (64 * (x / 64) + i) % 64 = i by omega]
  rw [hlw, hl]
  conv_rhs => rw [← div_add_mod x 64, range_add, countP_append, countP_map]
  rfl

/-- **`bms_member_index`**: the number of smaller members, or -1. -/
theorem bmsMemberIndex_eq (a : Relids) (x : Nat) :
    bmsMemberIndex a x = if x ∈ a then (((toFinset a).filter (· < x)).card : Int) else -1 := by
  cases a with
  | none => simp [bmsMemberIndex]
  | some s =>
    rw [bmsMemberIndex]
    refine if_ctx_congr Iff.rfl (fun hx => ?_) fun _ => rfl
    have hlt : x / 64 < s.words.length := by
      have := mem_lt_length hx
      omega
    rw [countWords_take_add _ hlt, countP_eq_length_filter,
      ← toFinset_card_of_nodup (nodup_range.filter _)]
    congr 2
    ext y
    simp only [List.mem_toFinset, mem_filter, mem_range, Finset.mem_filter, mem_toFinset,
      mem_some_iff]
    exact and_comm

/-! ## The comparator and the hash value -/

/-- The last loop of `bms_compare`: the first `count` words, from the top down. -/
def compareWords (a b : List Bitmapword) : Nat → Int
  | 0 => 0
  | i + 1 =>
    if a.getD i 0 ≠ b.getD i 0 then (if a.getD i 0 > b.getD i 0 then 1 else -1)
    else compareWords a b i

def bmsCompare : Relids → Relids → Int
  | none, none => 0
  | none, some _ => -1
  | some _, none => 1
  | some a, some b =>
    let shortlen := min a.words.length b.words.length
    if (a.words.drop shortlen).any (· != 0) then 1
    else if (b.words.drop shortlen).any (· != 0) then -1
    else compareWords a.words b.words shortlen

theorem word_lt_or_gt {v : Bitmapword} (h : v ≠ w) : v < w ∨ v > w := by
  have hne : v.toNat ≠ w.toNat := fun heq => h (BitVec.eq_of_toNat_eq heq)
  rw [gt_iff_lt, lt_def, lt_def]
  omega

/-- The number whose digits, in base `2 ^ 64`, are the first `n` words. -/
def wordsValue (ws : List Bitmapword) : Nat → Nat
  | 0 => 0
  | n + 1 => wordsValue ws n + 2 ^ (64 * n) * (ws.getD n 0).toNat

theorem wordsValue_lt (n : Nat) : wordsValue ws n < 2 ^ (64 * n) := by
  induction n with
  | zero => simp [wordsValue]
  | succ n ih =>
    have hw := (ws.getD n 0).isLt
    calc wordsValue ws n + 2 ^ (64 * n) * (ws.getD n 0).toNat
        < 2 ^ (64 * n) + 2 ^ (64 * n) * (ws.getD n 0).toNat := by omega
      _ = 2 ^ (64 * n) * ((ws.getD n 0).toNat + 1) := by ring
      _ ≤ 2 ^ (64 * n) * 2 ^ 64 := mul_le_mul_left _ hw
      _ = 2 ^ (64 * (n + 1)) := by rw [← pow_add, mul_succ]

variable {ws}

theorem wordsValue_lt_of_word {a : List Bitmapword} (h : a.getD n 0 < b.getD n 0) :
    wordsValue a (n + 1) < wordsValue b (n + 1) := by
  have ha := wordsValue_lt a n
  have hm : 2 ^ (64 * n) * ((a.getD n 0).toNat + 1) ≤ 2 ^ (64 * n) * (b.getD n 0).toNat :=
    mul_le_mul_left _ (lt_def.mp h)
  rw [mul_succ] at hm
  rw [wordsValue, wordsValue]
  omega

theorem wordsValue_of_length_le (h : ws.length ≤ n) :
    wordsValue ws n = wordsValue ws ws.length := by
  induction n, h using le_induction with
  | base => rfl
  | succ n hn ih =>
    rw [wordsValue, ih, getD_eq_default _ _ hn]
    simp

theorem wordsValue_of_zero_above (hn : n ≤ ws.length) (h : (ws.drop n).any (· != 0) = false) :
    wordsValue ws ws.length = wordsValue ws n := by
  have hz : ∀ i, n ≤ i → ws.getD i 0 = 0 := by
    intro i hi
    by_cases hlt : i < ws.length
    · rw [any_eq_false] at h
      have hmm : ws.getD i 0 ∈ ws.drop n := by
        rw [mem_iff_getElem?]
        refine ⟨i - n, ?_⟩
        rw [getElem?_drop, Nat.add_sub_cancel' hi, getD_eq_getElem _ _ hlt, getElem?_eq_getElem hlt]
      simpa using h _ hmm
    exact getD_eq_default _ _ (by omega)
  generalize ws.length = m at hn
  induction m, hn using le_induction with
  | base => rfl
  | succ m hm ih => rw [wordsValue, hz m hm, ih]; simp

theorem lt_wordsValue_of_above {a : List Bitmapword} (hb : b.length ≤ n)
    (h : (a.drop n).any (· != 0) = true) : wordsValue b b.length < wordsValue a a.length := by
  obtain ⟨w, hw, hne⟩ := any_eq_true.mp h
  obtain ⟨i, hi⟩ := mem_iff_getElem?.mp hw
  rw [getElem?_drop] at hi
  have hl := (List.getElem?_eq_some_iff.mp hi).1
  have hd : a.getD (n + i) 0 ≠ 0 := by
    rw [getD_eq_getElem?_getD, hi]
    simpa using hne
  have hp : 0 < (a.getD (n + i) 0).toNat := by
    refine pos_of_ne_zero fun h0 => hd (BitVec.eq_of_toNat_eq h0)
  -- the number reaches the digit, and the shorter array stays below it
  have hmn : ∀ m, n + i < m → 2 ^ (64 * (n + i)) ≤ wordsValue a m := by
    intro m hm
    induction m, hm using le_induction with
    | base =>
      rw [wordsValue]
      exact (Nat.le_mul_of_pos_right _ hp).trans (le_add_left _ _)
    | succ m _ ih => exact ih.trans (le_add_right _ _)
  calc wordsValue b b.length = wordsValue b (n + i) := (wordsValue_of_length_le (by omega)).symm
    _ < 2 ^ (64 * (n + i)) := wordsValue_lt b _
    _ ≤ wordsValue a a.length := hmn _ hl

theorem compareWords_spec (a b : List Bitmapword) (n : Nat) :
    (0 < compareWords a b n ↔ wordsValue b n < wordsValue a n) ∧
      (compareWords a b n < 0 ↔ wordsValue a n < wordsValue b n) := by
  induction n with
  | zero => simp [compareWords, wordsValue]
  | succ n ih =>
    rw [compareWords]
    by_cases heq : a.getD n 0 = b.getD n 0
    · rw [if_neg (not_not.mpr heq), wordsValue, wordsValue, heq]
      omega
    rw [if_pos heq]
    obtain hlt | hgt := word_lt_or_gt heq
    · rw [if_neg fun hgt => by rw [gt_iff_lt, lt_def] at *; omega]
      have := wordsValue_lt_of_word hlt
      omega
    rw [if_pos hgt]
    have := wordsValue_lt_of_word hgt
    omega

def bmsValue : Relids → Nat
  | none => 0
  | some a => wordsValue a.words a.words.length

theorem bmsValue_pos (a : Bitmapset) : 0 < bmsValue (some a) := by
  obtain ⟨w, hw, hne⟩ := a.hasMember
  have h : (a.words.drop 0).any (· != 0) = true := any_eq_true.mpr ⟨w, hw, by simpa using hne⟩
  exact lt_wordsValue_of_above (le_refl ([] : List Bitmapword).length) h

/-- **`bms_compare`** compares these numbers. -/
theorem bmsCompare_spec (a b : Relids) :
    (0 < bmsCompare a b ↔ bmsValue b < bmsValue a) ∧
      (bmsCompare a b < 0 ↔ bmsValue a < bmsValue b) := by
  cases a with
  | none =>
    cases b with
    | none => simp [bmsCompare]
    | some b =>
      have := bmsValue_pos b
      simpa [bmsCompare, bmsValue] using this
  | some a =>
    cases b with
    | none =>
      have := bmsValue_pos a
      simpa [bmsCompare, bmsValue] using this
    | some b =>
      rw [bmsCompare]
      by_cases ha : (a.words.drop (min a.words.length b.words.length)).any (· != 0) = true
      · have hle : b.words.length ≤ min a.words.length b.words.length := by
          by_contra hlt
          rw [drop_of_length_le (by omega)] at ha
          cases ha
        have hgt : bmsValue (some b) < bmsValue (some a) := lt_wordsValue_of_above hle ha
        simp only [ha, if_true]
        omega
      by_cases hb : (b.words.drop (min a.words.length b.words.length)).any (· != 0) = true
      · have hle : a.words.length ≤ min a.words.length b.words.length := by
          by_contra hlt
          rw [drop_of_length_le (by omega)] at hb
          cases hb
        have hgt : bmsValue (some a) < bmsValue (some b) := lt_wordsValue_of_above hle hb
        simp only [if_neg ha, if_pos hb]
        omega
      rw [Bool.not_eq_true] at ha hb
      have hva : bmsValue (some a) = _ := wordsValue_of_zero_above (min_le_left _ _) ha
      have hvb : bmsValue (some b) = _ := wordsValue_of_zero_above (min_le_right _ _) hb
      simp only [ha, hb, Bool.false_eq_true, if_false, hva, hvb]
      exact compareWords_spec a.words b.words _

/-- **`bms_compare`** is a total order of the sets. -/
theorem isComparator_bmsCompare : IsComparator bmsCompare where
  swap a b := by rw [(bmsCompare_spec a b).1, (bmsCompare_spec b a).2]
  trans a b c hab hbc := by
    have h1 := (bmsCompare_spec a b).1
    have h2 := (bmsCompare_spec b c).1
    have h3 := (bmsCompare_spec a c).1
    omega

theorem wordsValue_inj {a : List Bitmapword} (h : wordsValue a n = wordsValue b n) :
    ∀ i < n, a.getD i 0 = b.getD i 0 := by
  induction n with
  | zero => intro i hi; omega
  | succ n ih =>
    have hw : a.getD n 0 = b.getD n 0 := by
      by_contra hne
      obtain hlt | hgt := word_lt_or_gt hne
      · exact absurd h (wordsValue_lt_of_word hlt).ne
      · exact absurd h (wordsValue_lt_of_word hgt).ne'
    rw [wordsValue, wordsValue, hw, add_right_cancel_iff] at h
    intro i hi
    obtain hlt | rfl := Nat.lt_succ_iff_lt_or_eq.mp hi
    · exact ih h i hlt
    · exact hw

theorem getD_eq_of_wordBit {a : List Bitmapword} (h : ∀ x, wordBit a x = wordBit b x) (i : Nat) :
    a.getD i 0 = b.getD i 0 := by
  refine BitVec.eq_of_getLsbD_eq fun j hj => ?_
  have hx := h (64 * i + j)
  rwa [wordBit, wordBit, show (64 * i + j) / 64 = i by omega,
    show (64 * i + j) % 64 = j by omega] at hx

theorem wordsValue_congr {a : List Bitmapword} (h : ∀ i, a.getD i 0 = b.getD i 0) (n : Nat) :
    wordsValue a n = wordsValue b n := by
  induction n with
  | zero => rfl
  | succ n ih => rw [wordsValue, wordsValue, ih, h n]

/-- **`bms_compare`** reports 0 exactly for equal sets. -/
theorem bmsCompare_eq_zero_iff (a b : Relids) : bmsCompare a b = 0 ↔ bmsEqual a b = true := by
  have hs := bmsCompare_spec a b
  have hz : bmsCompare a b = 0 ↔ bmsValue a = bmsValue b := by omega
  rw [hz, bmsEqual_iff]
  cases a with
  | none =>
    cases b with
    | none => simp
    | some b =>
      obtain ⟨x, hx⟩ := exists_mem_some b
      exact iff_of_false (bmsValue_pos b).ne fun h => not_mem_none x ((h x).mpr hx)
  | some a =>
    cases b with
    | none =>
      obtain ⟨x, hx⟩ := exists_mem_some a
      exact iff_of_false (bmsValue_pos a).ne' fun h => not_mem_none x ((h x).mp hx)
    | some b =>
      have ha := wordsValue_of_length_le (le_max_left a.words.length b.words.length)
      have hb := wordsValue_of_length_le (le_max_right a.words.length b.words.length)
      rw [bmsValue, bmsValue, ← ha, ← hb]
      simp only [mem_some_iff]
      constructor
      · intro hv x
        rw [wordBit, wordBit]
        by_cases hx : x / 64 < max a.words.length b.words.length
        · rw [wordsValue_inj hv _ hx]
        · rw [getD_eq_default _ _ (by omega), getD_eq_default _ _ (by omega)]
      · intro hbt
        exact wordsValue_congr (getD_eq_of_wordBit fun x => Bool.eq_iff_iff.mpr (hbt x)) _

/-- The loop of `bms_hash_value`: `lastword + 1`, from `n` down. -/
def usedWords (ws : List Bitmapword) : Nat → Nat
  | 0 => 0
  | n + 1 => if ws.getD n 0 ≠ 0 then n + 1 else usedWords ws n

variable (hashAny : List Bitmapword → BitVec 32)

/-- `bms_hash_value`, with `hash_any` of the bytes of some words. -/
def bmsHashValue : Relids → BitVec 32
  | none => 0
  | some a =>
    let used := usedWords a.words a.words.length
    if used = 0 then 0 else hashAny (a.words.take used)

theorem usedWords_le (ws : List Bitmapword) (n : Nat) : usedWords ws n ≤ n := by
  induction n with
  | zero => exact le_refl 0
  | succ n ih =>
    rw [usedWords]
    split
    · exact le_refl _
    · exact ih.trans (le_succ n)

theorem usedWords_congr {a : List Bitmapword} (h : ∀ i, a.getD i 0 = b.getD i 0) (n : Nat) :
    usedWords a n = usedWords b n := by
  induction n with
  | zero => rfl
  | succ n ih => rw [usedWords, usedWords, ih, h n]

theorem usedWords_of_length_le (h : ws.length ≤ n) : usedWords ws n = usedWords ws ws.length := by
  induction n, h using le_induction with
  | base => rfl
  | succ n hn ih => rw [usedWords, getD_eq_default _ _ hn, if_neg (not_not.mpr rfl), ih]

/-- **`bms_hash_value`** depends on the members only. -/
theorem bmsHashValue_congr {b : Relids} (h : bmsEqual a b = true) :
    bmsHashValue hashAny a = bmsHashValue hashAny b := by
  rw [bmsEqual_iff] at h
  cases a with
  | none =>
    cases b with
    | none => rfl
    | some b =>
      obtain ⟨x, hx⟩ := exists_mem_some b
      exact absurd ((h x).mpr hx) (not_mem_none x)
  | some a =>
    cases b with
    | none =>
      obtain ⟨x, hx⟩ := exists_mem_some a
      exact absurd ((h x).mp hx) (not_mem_none x)
    | some b =>
      simp only [mem_some_iff] at h
      have hw := getD_eq_of_wordBit fun x => Bool.eq_iff_iff.mpr (h x)
      have hu : usedWords a.words a.words.length = usedWords b.words b.words.length := by
        rw [← usedWords_of_length_le (le_max_left a.words.length b.words.length),
          usedWords_congr hw, usedWords_of_length_le (le_max_right _ _)]
      have hla := usedWords_le a.words a.words.length
      have hlb := usedWords_le b.words b.words.length
      have ht : a.words.take (usedWords a.words a.words.length) =
          b.words.take (usedWords b.words b.words.length) := by
        refine ext_getElem (by simp only [length_take]; omega) fun i hia hib => ?_
        rw [length_take] at hia hib
        have hi := hw i
        rw [getD_eq_getElem _ _ (by omega), getD_eq_getElem _ _ (by omega)] at hi
        rwa [getElem_take, getElem_take]
      rw [bmsHashValue, bmsHashValue]
      simp only [ht]
      simp only [hu]

/-! ## The next and the previous member -/

def bmwRightmostOnePos (w : Bitmapword) : Nat := w.ctz.toNat

def bmwLeftmostOnePos (w : Bitmapword) : Nat := 63 - w.clz.toNat

theorem bmwRightmostOnePos_spec (hw : w ≠ 0) :
    bmwRightmostOnePos w < 64 ∧ w.getLsbD (bmwRightmostOnePos w) = true ∧
      ∀ j < bmwRightmostOnePos w, w.getLsbD j = false := by
  have hb := BitVec.getLsbD_true_ctz_of_ne_zero hw
  exact ⟨BitVec.lt_of_getLsbD hb, hb, fun j hj => BitVec.getLsbD_false_of_lt_ctz hj⟩

theorem bmwLeftmostOnePos_spec (hw : w ≠ 0) :
    bmwLeftmostOnePos w < 64 ∧ w.getLsbD (bmwLeftmostOnePos w) = true ∧
      ∀ j, bmwLeftmostOnePos w < j → w.getLsbD j = false := by
  have hb := BitVec.getLsbD_true_clz_of_ne_zero (by decide) hw
  refine ⟨BitVec.lt_of_getLsbD hb, hb, fun j hj => ?_⟩
  have hlt : w.toNat < 2 ^ j := by
    refine BitVec.toNat_lt_two_pow_sub_clz.trans_le (Nat.pow_le_pow_right (by decide) ?_)
    unfold bmwLeftmostOnePos at hj
    omega
  exact testBit_lt_two_pow hlt

/-- The loop of `bms_next_member`, over the words from number `wordnum` on. -/
def nextWord : List Bitmapword → Nat → Bitmapword → Int
  | [], _, _ => -2
  | w :: ws, wordnum, mask =>
    if w &&& mask ≠ 0 then (wordnum * 64 + bmwRightmostOnePos (w &&& mask) : Nat)
    else nextWord ws (wordnum + 1) (~~~0#64)

/-- `bms_next_member`; `none` if it reads a word in front of the array. -/
def bmsNextMember (a : Relids) (prevbit : Int) : Option Int := match a with
  | none => some (-2)
  | some a =>
    let prevbit := wrapInt (prevbit + 1)
    let wordnum := prevbit.tdiv 64
    if wordnum < 0 then none
    else some (nextWord (a.words.drop wordnum.toNat) wordnum.toNat
      (~~~0#64 <<< (prevbit.tmod 64).toNat))

/-- The loop of `bms_prev_member`, from word `wordnum` down, `wordnum + 1` being
counted; `none` if it reads a word behind the array. -/
def prevWord (ws : List Bitmapword) : Nat → Bitmapword → Option Int
  | 0, _ => some (-2)
  | wordnum + 1, mask =>
    match ws[wordnum]? with
    | none => none
    | some w =>
      if w &&& mask ≠ 0 then some ((wordnum * 64 + bmwLeftmostOnePos (w &&& mask) : Nat) : Int)
      else prevWord ws wordnum (~~~0#64)

def bmsPrevMember (a : Relids) (prevbit : Int) : Option Int := match a with
  | none => some (-2)
  | some a =>
    if prevbit = 0 then some (-2)
    else
      let prevbit :=
        if prevbit = -1 then wrapInt (wrapInt (a.words.length * 64) - 1) else wrapInt (prevbit - 1)
      prevWord a.words (prevbit.tdiv 64 + 1).toNat (maskUpTo (prevbit.tmod 64).toNat)

theorem getLsbD_all_ones {j : Nat} (hj : j < 64) : (~~~0#64 : Bitmapword).getLsbD j = true := by
  rw [getLsbD_not, getLsbD_zero, decide_eq_true hj]
  rfl

variable (ws)

theorem nextWord_spec (wn : Nat) {mask : Bitmapword} {low : Nat}
    (hm : ∀ j < 64, mask.getLsbD j = decide (low ≤ j)) (hl : low < 64) :
    (nextWord ws wn mask = -2 ∧ ∀ x, low ≤ x → wordBit ws x = false) ∨
      ∃ x : Nat, nextWord ws wn mask = (64 * wn + x : Nat) ∧ low ≤ x ∧
        wordBit ws x = true ∧ ∀ y, low ≤ y → y < x → wordBit ws y = false := by
  induction ws generalizing wn mask low with
  | nil => exact .inl ⟨rfl, fun x _ => wordBit_nil x⟩
  | cons w ws ih =>
    rw [nextWord]
    have hb : ∀ j < 64, (w &&& mask).getLsbD j = (w.getLsbD j && decide (low ≤ j)) := by
      intro j hj
      rw [getLsbD_and, hm j hj]
    by_cases hz : w &&& mask = 0
    · rw [if_neg (not_not.mpr hz)]
      have hs : ∀ x, low ≤ x → x < 64 → wordBit (w :: ws) x = false := by
        intro x hx hlt
        have h0 := hb x hlt
        rw [hz, decide_eq_true hx, Bool.and_true] at h0
        rw [wordBit_cons_low w ws hlt, ← h0]
        exact getLsbD_zero
      have hn : ∀ x, 64 ≤ x → wordBit (w :: ws) x = wordBit ws (x - 64) := by
        intro x hx
        rw [← Nat.sub_add_cancel hx, wordBit_cons_high, Nat.add_sub_cancel]
      rcases @ih (wn + 1) (~~~0#64) 0 (fun j hj => by rw [getLsbD_all_ones hj]; rfl)
        (by decide) with ⟨heq, hnn⟩ | ⟨x, heq, -, hx, hf⟩
      · refine .inl ⟨heq, fun x hx => ?_⟩
        by_cases hlt : x < 64
        · exact hs x hx hlt
        rw [hn x (by omega)]
        exact hnn _ (zero_le _)
      refine .inr ⟨x + 64, ?_, by omega, by rwa [wordBit_cons_high], fun y hy hlt => ?_⟩
      · rw [heq]
        congr 1
        omega
      by_cases hl : y < 64
      · exact hs y hy hl
      rw [hn y (by omega)]
      exact hf _ (zero_le _) (by omega)
    rw [if_pos hz]
    obtain ⟨hlt, hst, hf⟩ := bmwRightmostOnePos_spec hz
    rw [hb _ hlt, Bool.and_eq_true, decide_eq_true_eq] at hst
    refine .inr ⟨_, by rw [mul_comm], hst.2, by rw [wordBit_cons_low w ws hlt, hst.1], ?_⟩
    intro y hy hyl
    have h0 := hf y hyl
    rw [hb y (by omega), decide_eq_true hy, Bool.and_true] at h0
    rwa [wordBit_cons_low w ws (by omega)]

theorem wordBit_drop (k x : Nat) : wordBit (ws.drop k) x = wordBit ws (64 * k + x) := by
  rw [wordBit, wordBit, getD_eq_getElem?_getD, getD_eq_getElem?_getD, getElem?_drop,
    show (64 * k + x) / 64 = k + x / 64 by omega, show (64 * k + x) % 64 = x % 64 by omega]

/-- **`bms_next_member`** reports the smallest member above `pb`. -/
theorem bmsNextMember_spec (a : Relids) {pb : Int} (hl : -1 ≤ pb) (hh : pb < bmsIntMax) :
    (bmsNextMember a pb = some (-2) ∧ ∀ x : Nat, pb < x → ¬ x ∈ a) ∨
      ∃ x : Nat, bmsNextMember a pb = some (x : Int) ∧ pb < x ∧ x ∈ a ∧
        ∀ y : Nat, pb < y → y < x → ¬ y ∈ a := by
  cases a with
  | none => exact .inl ⟨rfl, fun x _ => not_mem_none x⟩
  | some a =>
    have hmx : (bmsIntMax : Int) = 2 ^ 31 - 1 := by decide
    obtain ⟨start, hs⟩ := Int.eq_ofNat_of_zero_le (show 0 ≤ pb + 1 by omega)
    have hw : wrapInt (pb + 1) = (start : Int) := by rw [wrapInt_of_lt (by omega) (by omega), hs]
    have hd : (start : Int).tdiv 64 = ((start / 64 : Nat) : Int) := rfl
    have hmd : (start : Int).tmod 64 = ((start % 64 : Nat) : Int) := rfl
    have hb := mod_lt start (by decide : 64 > 0)
    have hm : ∀ j < 64, (~~~0#64 <<< (start % 64) : Bitmapword).getLsbD j =
        decide (start % 64 ≤ j) := by
      intro j hj
      rw [BitVec.getLsbD_shiftLeft, decide_eq_true hj, Bool.true_and]
      by_cases hlt : j < start % 64
      · rw [decide_eq_true hlt, decide_eq_false (by omega)]
        rfl
      rw [decide_eq_false hlt, getLsbD_all_ones (by omega), decide_eq_true (by omega)]
      rfl
    have hr : bmsNextMember (some a) pb = some (nextWord (a.words.drop (start / 64))
        (start / 64) (~~~0#64 <<< (start % 64))) := by
      rw [bmsNextMember]
      simp only [hw, hd, hmd, Int.toNat_natCast]
      rw [if_neg (by omega)]
    rw [hr]
    simp only [mem_some_iff, Bool.not_eq_true]
    rcases nextWord_spec (a.words.drop (start / 64)) (start / 64) hm hb with
      ⟨heq, hn⟩ | ⟨x, heq, hx, hst, hf⟩
    · refine .inl ⟨by rw [heq], fun x hx => ?_⟩
      have h0 := hn (x - 64 * (start / 64)) (by omega)
      rwa [wordBit_drop, Nat.add_sub_cancel' (by omega)] at h0
    refine .inr ⟨64 * (start / 64) + x, by rw [heq], by omega, ?_, fun y hy hlt => ?_⟩
    · rwa [wordBit_drop] at hst
    have h0 := hf (y - 64 * (start / 64)) (by omega) (by omega)
    rwa [wordBit_drop, Nat.add_sub_cancel' (by omega)] at h0

theorem prevWord_succ {high : Nat} {mask : Bitmapword} (hn : n < ws.length)
    (hm : ∀ j < 64, mask.getLsbD j = decide (j ≤ high)) :
    (prevWord ws (n + 1) mask = prevWord ws n (~~~0#64) ∧
        ∀ j ≤ high, j < 64 → wordBit ws (64 * n + j) = false) ∨
      ∃ j ≤ high, j < 64 ∧ prevWord ws (n + 1) mask = some ((64 * n + j : Nat) : Int) ∧
        wordBit ws (64 * n + j) = true ∧
        ∀ k ≤ high, k < 64 → j < k → wordBit ws (64 * n + k) = false := by
  have hw : ∀ j < 64, wordBit ws (64 * n + j) = ws[n].getLsbD j := by
    intro j hj
    rw [wordBit, show (64 * n + j) / 64 = n by omega, show (64 * n + j) % 64 = j by omega,
      getD_eq_getElem _ _ hn]
  have hb : ∀ j < 64, (ws[n] &&& mask).getLsbD j = (ws[n].getLsbD j && decide (j ≤ high)) := by
    intro j hj
    rw [getLsbD_and, hm j hj]
  rw [prevWord, getElem?_eq_getElem hn]
  simp only
  by_cases hz : ws[n] &&& mask = 0
  · rw [if_neg (not_not.mpr hz)]
    refine .inl ⟨rfl, fun j hj hlt => ?_⟩
    have h0 := hb j hlt
    rw [hz, decide_eq_true hj, Bool.and_true] at h0
    rw [hw j hlt, ← h0]
    exact getLsbD_zero
  rw [if_pos hz]
  obtain ⟨hlt, hs, hl⟩ := bmwLeftmostOnePos_spec hz
  rw [hb _ hlt, Bool.and_eq_true, decide_eq_true_eq] at hs
  refine .inr ⟨_, hs.2, hlt, by rw [mul_comm], by rw [hw _ hlt, hs.1], ?_⟩
  intro k hk hk64 hjk
  have h0 := hl k hjk
  rw [hb k hk64, decide_eq_true hk, Bool.and_true] at h0
  rwa [hw k hk64]

theorem prevWord_spec {n high : Nat} {mask : Bitmapword} (hn : n < ws.length)
    (hm : ∀ j < 64, mask.getLsbD j = decide (j ≤ high)) (hh : high < 64) :
    (prevWord ws (n + 1) mask = some (-2) ∧ ∀ x ≤ 64 * n + high, wordBit ws x = false) ∨
      ∃ x ≤ 64 * n + high, prevWord ws (n + 1) mask = some (x : Int) ∧ wordBit ws x = true ∧
        ∀ y ≤ 64 * n + high, x < y → wordBit ws y = false := by
  induction n generalizing high mask with
  | zero =>
    obtain ⟨heq, hnn⟩ | ⟨j, hj, hlt, heq, hs, hl⟩ := prevWord_succ ws hn hm
    · refine .inl ⟨heq, fun x hx => ?_⟩
      simpa using hnn x (by omega) (by omega)
    refine .inr ⟨j, by omega, by simpa using heq, by simpa using hs, fun y hy hjy => ?_⟩
    simpa using hl y (by omega) (by omega) hjy
  | succ n ih =>
    obtain ⟨heq, hnn⟩ | ⟨j, hj, hlt, heq, hs, hl⟩ := prevWord_succ ws hn hm
    · have hsk : ∀ x, 64 * (n + 1) ≤ x → x ≤ 64 * (n + 1) + high → wordBit ws x = false := by
        intro x hx hxh
        have h0 := hnn (x - 64 * (n + 1)) (by omega) (by omega)
        rwa [Nat.add_sub_cancel' hx] at h0
      rcases @ih 63 (~~~0#64) (by omega)
        (fun j hj => by rw [getLsbD_all_ones hj, decide_eq_true (by omega)]) (by decide) with
        ⟨heq', hnn'⟩ | ⟨x, hx, heq', hs, hl⟩
      · refine .inl ⟨heq.trans heq', fun x hx => ?_⟩
        by_cases hlw : x < 64 * (n + 1)
        · exact hnn' x (by omega)
        · exact hsk x (by omega) hx
      refine .inr ⟨x, by omega, heq.trans heq', hs, fun y hy hxy => ?_⟩
      by_cases hlw : y < 64 * (n + 1)
      · exact hl y (by omega) hxy
      · exact hsk y (by omega) hy
    refine .inr ⟨_, by omega, heq, hs, fun y hy hjy => ?_⟩
    have h0 := hl (y - 64 * (n + 1)) (by omega) (by omega) (by omega)
    rwa [Nat.add_sub_cancel' (by omega)] at h0

/-- **`bms_prev_member`** reports the largest member below `pb`, and for -1
the largest member. -/
theorem bmsPrevMember_spec (ha : Addressable a) {pb : Int}
    (hp : pb = -1 ∧ bd = 64 * nwords a ∨ pb = bd ∧ bd ≤ bmsIntMax ∧ bd ≤ 64 * nwords a) :
    (bmsPrevMember a pb = some (-2) ∧ ∀ x < bd, ¬ x ∈ a) ∨
      ∃ x < bd, bmsPrevMember a pb = some (x : Int) ∧ x ∈ a ∧ ∀ y < bd, x < y → ¬ y ∈ a := by
  cases a with
  | none => exact .inl ⟨rfl, fun x _ => not_mem_none x⟩
  | some a =>
    have hln : a.words.length ≤ 2 ^ 25 := ha
    have hnw : nwords (some a) = a.words.length := rfl
    have hps := length_pos_of_ne_nil a.words_ne_nil
    by_cases hz : pb = 0
    · refine .inl ⟨by rw [bmsPrevMember, if_pos hz], fun x hx => ?_⟩
      omega
    have ht : (if pb = -1 then wrapInt (wrapInt (a.words.length * 64) - 1)
        else wrapInt (pb - 1)) = ((bd - 1 : Nat) : Int) := by
      split
      · rw [wrapInt, wrapInt, Int.bmod_sub_bmod, ← wrapInt, wrapInt_of_lt (by omega) (by omega)]
        omega
      rw [wrapInt_of_lt (by omega) (by omega)]
      omega
    have hr : bmsPrevMember (some a) pb =
        prevWord a.words ((bd - 1) / 64 + 1) (maskUpTo ((bd - 1) % 64)) := by
      rw [bmsPrevMember, if_neg hz]
      simp only [ht]
      rfl
    have hb := mod_lt (bd - 1) (by decide : 64 > 0)
    rw [hr]
    simp only [mem_some_iff, Bool.not_eq_true]
    rcases prevWord_spec a.words (n := (bd - 1) / 64) (by omega)
      (fun j _ => getLsbD_maskUpTo hb) hb with ⟨heq, hn⟩ | ⟨x, hx, heq, hs, hl⟩
    · exact .inl ⟨heq, fun x hx => hn x (by omega)⟩
    · exact .inr ⟨x, by omega, heq, hs, fun y hy hxy => hl y (by omega) hxy⟩

/-- The loop `while ((x = bms_next_member(a, x)) >= 0)`: the members it lists,
`none` if it does not end within `fuel` calls. -/
def nextLoop (a : Relids) : Nat → Int → Option (List Nat)
  | 0, _ => none
  | fuel + 1, x =>
    match bmsNextMember a x with
    | none => none
    | some x => if 0 ≤ x then (nextLoop a fuel x).map (x.toNat :: ·) else some []

/-- The loop `while ((x = bms_prev_member(a, x)) >= 0)`. -/
def prevLoop (a : Relids) : Nat → Int → Option (List Nat)
  | 0, _ => none
  | fuel + 1, x =>
    match bmsPrevMember a x with
    | none => none
    | some x => if 0 ≤ x then (prevLoop a fuel x).map (x.toNat :: ·) else some []

theorem pairwise_bmsMembers (a : Relids) : (bmsMembers a).Pairwise (· < ·) := by
  cases a with
  | none => exact List.Pairwise.nil
  | some a => exact pairwise_lt_range.filter _

/-- The members above `x`, in increasing order. -/
def membersAbove (a : Relids) (x : Int) : List Nat :=
  (bmsMembers a).filter fun y : Nat => decide (x < (y : Int))

/-- The members below `bound`, in decreasing order. -/
def membersBelow (a : Relids) (bound : Nat) : List Nat :=
  ((bmsMembers a).filter fun y => decide (y < bound)).reverse

@[simp] theorem mem_membersAbove {y : Nat} : y ∈ membersAbove a x ↔ y ∈ a ∧ x < y := by
  simp [membersAbove]

@[simp] theorem mem_membersBelow {y : Nat} : y ∈ membersBelow a bd ↔ y ∈ a ∧ y < bd := by
  simp [membersBelow]

theorem pairwise_membersAbove (a : Relids) (x : Int) : (membersAbove a x).Pairwise (· < ·) :=
  (pairwise_bmsMembers a).filter _

theorem pairwise_membersBelow (a : Relids) (bd : Nat) :
    (membersBelow a bd).Pairwise (· > ·) :=
  pairwise_reverse.mpr ((pairwise_bmsMembers a).filter _)

theorem membersAbove_cons {m : Nat} (hxm : x < m) (hm : m ∈ a)
    (hf : ∀ y : Nat, x < y → y < m → ¬ y ∈ a) : membersAbove a x = m :: membersAbove a m := by
  refine List.Pairwise.eq_of_mem_iff (pairwise_membersAbove a x)
    (pairwise_cons.mpr ⟨fun y hy => ?_, pairwise_membersAbove a m⟩) fun y => ?_
  · exact Int.ofNat_lt.mp (mem_membersAbove.mp hy).2
  rw [mem_membersAbove, mem_cons, mem_membersAbove]
  constructor
  · rintro ⟨hy, hxy⟩
    by_cases hle : y ≤ m
    · exact .inl (by_contra fun hne => hf y hxy (by omega) hy)
    · exact .inr ⟨hy, by omega⟩
  · rintro (rfl | ⟨hy, hmy⟩)
    · exact ⟨hm, hxm⟩
    · exact ⟨hy, by omega⟩

theorem membersBelow_cons {m : Nat} (hmb : m < bd) (hm : m ∈ a)
    (hl : ∀ y < bd, m < y → ¬ y ∈ a) : membersBelow a bd = m :: membersBelow a m := by
  refine List.Pairwise.eq_of_mem_iff (pairwise_membersBelow a bd)
    (pairwise_cons.mpr ⟨fun y hy => ?_, pairwise_membersBelow a m⟩) fun y => ?_
  · exact (mem_membersBelow.mp hy).2
  rw [mem_membersBelow, mem_cons, mem_membersBelow]
  constructor
  · rintro ⟨hy, hyb⟩
    by_cases hle : m ≤ y
    · exact .inl (by_contra fun hne => hl y hyb (by omega) hy)
    · exact .inr ⟨hy, by omega⟩
  · rintro (rfl | ⟨hy, hym⟩)
    · exact ⟨hm, hmb⟩
    · exact ⟨hy, by omega⟩

/-- **The loop over `bms_next_member`** lists the members in increasing order,
unless `INT_MAX` is one. -/
theorem nextLoop_eq (ha : Addressable a) (hmx : ¬ bmsIntMax ∈ a) {fuel : Nat} (hl : -1 ≤ x)
    (hh : x < bmsIntMax) (hfl : (membersAbove a x).length < fuel) :
    nextLoop a fuel x = some (membersAbove a x) := by
  induction fuel generalizing x with
  | zero => omega
  | succ fuel ih =>
    obtain ⟨heq, hn⟩ | ⟨m, heq, hxm, hm, hf⟩ := bmsNextMember_spec a hl hh
    · have hnl := eq_nil_iff_forall_not_mem.mpr fun y hy =>
        hn y (mem_membersAbove.mp hy).2 (mem_membersAbove.mp hy).1
      rw [nextLoop, heq, hnl]
      rfl
    have hc := membersAbove_cons hxm hm hf
    have hml : (m : Int) < bmsIntMax := by
      have hle := ha.member_le hm
      have hne : m ≠ bmsIntMax := by
        rintro rfl
        exact hmx hm
      omega
    rw [hc, length_cons] at hfl
    rw [nextLoop, heq, hc]
    simp only [Int.natCast_nonneg, if_true, Int.toNat_natCast]
    rw [ih (by omega) hml (by omega), Option.map_some]

theorem nextLoop_of_intMax (ha : Addressable a) (hmx : bmsIntMax ∈ a) (fuel : Nat) (hl : -1 ≤ x)
    (hh : x ≤ bmsIntMax) : nextLoop a fuel x = none := by
  induction fuel generalizing x with
  | zero => rfl
  | succ fuel ih =>
    obtain hlt | rfl := hh.lt_or_eq
    · obtain ⟨_, hn⟩ | ⟨m, heq, hxm, hm, _⟩ := bmsNextMember_spec a hl hlt
      · exact absurd hmx (hn bmsIntMax hlt)
      have hle := ha.member_le hm
      rw [nextLoop, heq]
      simp only [Int.natCast_nonneg, if_true]
      rw [ih (by omega) (by omega), Option.map_none]
    cases a with
    | none => exact absurd hmx (not_mem_none _)
    | some a =>
      -- `INT_MAX + 1` is `INT_MIN`, and so the word number is negative
      have ho : bmsNextMember (some a) bmsIntMax = none := rfl
      rw [nextLoop, ho]

/-- **The loop over `bms_prev_member`** lists the members in decreasing order. -/
theorem prevLoop_eq {a : Relids} (ha : Addressable a) {fuel bd : Nat} {pb : Int}
    (hp : pb = -1 ∧ bd = 64 * nwords a ∨ pb = bd ∧ bd ≤ bmsIntMax ∧ bd ≤ 64 * nwords a)
    (hf : (membersBelow a bd).length < fuel) :
    prevLoop a fuel pb = some (membersBelow a bd) := by
  induction fuel generalizing pb bd with
  | zero => omega
  | succ fuel ih =>
    obtain ⟨heq, hn⟩ | ⟨m, hmb, heq, hm, hl⟩ := bmsPrevMember_spec ha hp
    · have hnl := eq_nil_iff_forall_not_mem.mpr fun y hy =>
        hn y (mem_membersBelow.mp hy).2 (mem_membersBelow.mp hy).1
      rw [prevLoop, heq, hnl]
      rfl
    have hc := membersBelow_cons hmb hm hl
    have hle := ha.member_le hm
    rw [hc, length_cons] at hf
    rw [prevLoop, heq, hc]
    simp only [Int.natCast_nonneg, if_true, Int.toNat_natCast]
    rw [@ih m (m : Int) (.inr ⟨rfl, hle, by omega⟩) (by omega), Option.map_some]

/-! ## Refinement of finite sets -/

/-- The pointer `r` stands for the set `s`: its words hold `s`, it is `NULL`
exactly for the empty set, and `int` members reach every word. -/
structure DenotesSet (r : Relids) (s : Finset Nat) : Prop where
  members : toFinset r = s
  null_iff : r = none ↔ s = ∅
  addressable : Addressable r

theorem DenotesSet.of_mem {r : Relids} {s : Finset Nat} (h : ∀ x, x ∈ r ↔ x ∈ s)
    (hr : Addressable r) : DenotesSet r s := by
  have hm : toFinset r = s := by
    ext x
    rw [mem_toFinset, h x]
  refine ⟨hm, ?_, hr⟩
  rw [← hm, eq_none_iff, Finset.eq_empty_iff_forall_notMem]
  simp

structure OperationsDenote (a b : Relids) : Prop where
  union : DenotesSet (bmsUnion a b) (toFinset a ∪ toFinset b)
  intersect : DenotesSet (bmsIntersect a b) (toFinset a ∩ toFinset b)
  difference : DenotesSet (bmsDifference a b) (toFinset a \ toFinset b)
  addMember : ∀ x ≤ bmsIntMax, DenotesSet (bmsAddMember a x) (insert x (toFinset a))
  addMembers : DenotesSet (bmsAddMembers a b) (toFinset a ∪ toFinset b)
  delMember : ∀ x ≤ bmsIntMax, DenotesSet (bmsDelMember a x) ((toFinset a).erase x)
  delMembers : DenotesSet (bmsDelMembers a b) (toFinset a \ toFinset b)
  intMembers : DenotesSet (bmsIntMembers a b) (toFinset a ∩ toFinset b)
  join : DenotesSet (bmsJoin a b) (toFinset a ∪ toFinset b)
  addRange : ∀ lower upper, upper ≤ bmsIntMax →
    DenotesSet (bmsAddRange a lower upper) (toFinset a ∪ Finset.Icc lower upper)

structure PredicatesAgree (hashAny : List Bitmapword → BitVec 32) (a b : Relids) : Prop where
  equal : bmsEqual a b = true ↔ toFinset a = toFinset b
  isSubset : bmsIsSubset a b = true ↔ toFinset a ⊆ toFinset b
  overlap : bmsOverlap a b = true ↔ (toFinset a ∩ toFinset b).Nonempty
  nonemptyDifference : bmsNonemptyDifference a b = true ↔ (toFinset a \ toFinset b).Nonempty
  subsetCompare : bmsSubsetCompare a b =
    ofInclusions (decide (toFinset a ⊆ toFinset b)) (decide (toFinset b ⊆ toFinset a))
  membership : bmsMembership a = .ofCount (toFinset a).card
  numMembers : wrapInt (bmsNumMembers a) = (toFinset a).card
  memberIndex : ∀ x ≤ bmsIntMax, bmsMemberIndex a x =
    if x ∈ toFinset a then (((toFinset a).filter (· < x)).card : Int) else -1
  compare : bmsCompare a b = 0 ↔ bmsEqual a b = true
  hashValue : toFinset a = toFinset b → bmsHashValue hashAny a = bmsHashValue hashAny b

/-- `a` behaves as the finite set that it denotes. -/
structure SetSemantics (hashAny : List Bitmapword → BitVec 32) (a : Relids) : Prop where
  operations : ∀ b, Addressable b → OperationsDenote a b
  predicates : ∀ b, Addressable b → PredicatesAgree hashAny a b
  order : IsComparator bmsCompare
  ascending : ∃ fuel members, nextLoop a fuel (-1) = some members ∧
    members.Pairwise (· < ·) ∧ members.toFinset = toFinset a
  descending : ∃ fuel members, prevLoop a fuel (-1) = some members ∧
    members.Pairwise (· > ·) ∧ members.toFinset = toFinset a

section Addressable

variable {a b : Relids}

theorem nwords_ofWords_le : nwords (ofWords ws) ≤ ws.length := by
  unfold ofWords
  split
  · exact le_refl _
  · exact zero_le _

theorem Addressable.bmsUnion (ha : Addressable a) (hb : Addressable b) :
    Addressable (bmsUnion a b) := by
  cases a with
  | none => exact hb
  | some a =>
    cases b with
    | none => exact ha
    | some b =>
      rw [Addressable, AthenaPG.bmsUnion, nwords, length_orWords]
      exact Nat.max_le.mpr ⟨ha, hb⟩

theorem Addressable.bmsIntersect (ha : Addressable a) : Addressable (bmsIntersect a b) := by
  cases a with
  | none => exact ha
  | some a =>
    cases b with
    | none => exact zero_le _
    | some b =>
      refine (nwords_ofWords_le _).trans (le_trans ?_ ha)
      unfold intersectWords
      split <;> simp only [length_zipWith, nwords] <;> omega

theorem length_delWords (a b : List Bitmapword) : (delWords a b).length = a.length := by
  induction a, b using delWords.induct with
  | case1 b => rfl
  | case2 a ha => rw [delWords.eq_2 _ ha]
  | case3 x a y b ih => simp [delWords, ih]

section

variable (ha : Addressable a)
include ha

theorem Addressable.bmsDifference : Addressable (bmsDifference a b) := by
  cases a with
  | none => exact ha
  | some a =>
    cases b with
    | none => exact ha
    | some b =>
      rw [AthenaPG.bmsDifference]
      split
      · rw [Addressable, nwords, length_delWords]
        exact ha
      · exact zero_le _

theorem Addressable.bmsDelMembers : Addressable (bmsDelMembers a b) := by
  cases a with
  | none => exact ha
  | some a =>
    cases b with
    | none => exact ha
    | some b =>
      refine (nwords_ofWords_le _).trans ?_
      rw [length_delWords]
      exact ha

theorem Addressable.bmsIntMembers : Addressable (bmsIntMembers a b) := by
  cases a with
  | none => exact ha
  | some a =>
    cases b with
    | none => exact zero_le _
    | some b =>
      refine (nwords_ofWords_le _).trans ?_
      rw [length_intWords]
      exact ha

theorem Addressable.bmsDelMember (x : Nat) : Addressable (bmsDelMember a x) := by
  cases a with
  | none => exact ha
  | some a =>
    refine (nwords_ofWords_le _).trans ?_
    rw [length_modify]
    exact ha

end

theorem length_enlargeWords_le {ws : List Bitmapword} {x : Nat} (h : ws.length ≤ maxWords)
    (hx : x ≤ bmsIntMax) : (enlargeWords ws (x / 64)).length ≤ maxWords := by
  have hm : bmsIntMax = 2 ^ 31 - 1 := rfl
  have hw : maxWords = 2 ^ 25 := rfl
  rw [enlargeWords, length_append, length_replicate]
  omega

theorem Addressable.bmsAddMember (ha : Addressable a) {x : Nat} (hx : x ≤ bmsIntMax) :
    Addressable (bmsAddMember a x) := by
  cases a with
  | none =>
    have hm : bmsIntMax = 2 ^ 31 - 1 := rfl
    have hw : maxWords = 2 ^ 25 := rfl
    rw [Addressable, AthenaPG.bmsAddMember, bmsMakeSingleton, nwords, length_append,
      length_replicate, length_singleton]
    omega
  | some a =>
    change (orWordAt _ _ _).length ≤ maxWords
    rw [orWordAt, length_modify]
    exact length_enlargeWords_le ha hx

theorem length_rangeWords (lower upper : Nat) : (rangeWords ws lower upper).length = ws.length := by
  unfold rangeWords
  simp only
  split <;> simp [orWordAt]

variable {ws}

theorem Addressable.bmsAddRange (ha : Addressable a) (lower : Nat) {upper : Nat}
    (hu : upper ≤ bmsIntMax) : Addressable (bmsAddRange a lower upper) := by
  unfold AthenaPG.bmsAddRange
  split
  · exact ha
  rw [Addressable, nwords, length_rangeWords]
  refine length_enlargeWords_le ?_ hu
  cases a with
  | none => exact zero_le _
  | some a => exact ha

end Addressable

theorem operationsDenote {b : Relids} (ha : Addressable a) (hb : Addressable b) :
    OperationsDenote a b where
  union := .of_mem (by simp) (ha.bmsUnion hb)
  intersect := .of_mem (by simp) ha.bmsIntersect
  difference := .of_mem (by simp) ha.bmsDifference
  addMember x hx := .of_mem (by simp [or_comm]) (ha.bmsAddMember hx)
  addMembers := .of_mem (by simp [bmsAddMembers]) (ha.bmsUnion hb)
  delMember x _ := .of_mem (by simp [and_comm]) (ha.bmsDelMember x)
  delMembers := .of_mem (by simp) ha.bmsDelMembers
  intMembers := .of_mem (by simp) ha.bmsIntMembers
  join := .of_mem (by simp [bmsJoin]) (ha.bmsUnion hb)
  addRange lower upper hu := .of_mem (by simp) (ha.bmsAddRange lower hu)

theorem card_le_intMax (ha : Addressable a) (hm : ¬ bmsIntMax ∈ a) :
    (toFinset a).card ≤ bmsIntMax := by
  have hs : toFinset a ⊆ Finset.range bmsIntMax := by
    intro x hx
    rw [mem_toFinset] at hx
    have hle := ha.member_le hx
    have hne : x ≠ bmsIntMax := by
      rintro rfl
      exact hm hx
    rw [Finset.mem_range]
    omega
  simpa using Finset.card_le_card hs

theorem predicatesAgree {b : Relids} (ha : Addressable a) (hm : ¬ bmsIntMax ∈ a) :
    PredicatesAgree hashAny a b where
  equal := by rw [bmsEqual_iff, toFinset_eq_iff]
  isSubset := by simp [bmsIsSubset_iff, Finset.subset_iff]
  overlap := by simp [bmsOverlap_iff, Finset.Nonempty]
  nonemptyDifference := by simp [bmsNonemptyDifference_iff, Finset.Nonempty]
  subsetCompare := by
    have hd : ∀ a b : Relids, bmsIsSubset a b = decide (toFinset a ⊆ toFinset b) := by
      intro a b
      rw [Bool.eq_iff_iff, bmsIsSubset_iff, decide_eq_true_eq, Finset.subset_iff]
      simp
    rw [bmsSubsetCompare_eq, hd, hd]
  membership := bmsMembership_eq a
  numMembers := by
    have hc := card_le_intMax ha hm
    have hint : bmsIntMax = 2 ^ 31 - 1 := rfl
    rw [bmsNumMembers_eq, wrapInt_of_lt (by omega) (by omega)]
  memberIndex x _ := by
    rw [bmsMemberIndex_eq]
    simp
  compare := bmsCompare_eq_zero_iff a b
  hashValue h := bmsHashValue_congr hashAny ((bmsEqual_iff a b).mpr ((toFinset_eq_iff a b).mp h))

/-- **Bitmapsets refine finite sets of naturals**, except that a loop over
`bms_next_member` overruns `int` on a set with the member `INT_MAX`. -/
theorem bitmapset_refines_iff (hashAny : List Bitmapword → BitVec 32) (a : Relids)
    (ha : Addressable a) : SetSemantics hashAny a ↔ ¬ bmsIntMax ∈ a := by
  constructor
  · rintro h hm
    obtain ⟨fuel, members, hl, -⟩ := h.ascending
    rw [nextLoop_of_intMax ha hm fuel (Int.le_refl _) (by decide)] at hl
    cases hl
  intro hm
  have hn : (-1 : Int) < bmsIntMax := by decide
  refine ⟨fun b hb => operationsDenote ha hb, fun b _ => predicatesAgree hashAny ha hm,
    isComparator_bmsCompare, ?_, ?_⟩
  · refine ⟨_, _, nextLoop_eq ha hm (Int.le_refl _) hn (lt_succ_self _),
      pairwise_membersAbove a _, ?_⟩
    ext x
    simp only [List.mem_toFinset, mem_membersAbove, mem_toFinset]
    exact ⟨And.left, fun hx => ⟨hx, by omega⟩⟩
  refine ⟨_, _, prevLoop_eq ha (.inl ⟨rfl, rfl⟩) (lt_succ_self _), pairwise_membersBelow a _, ?_⟩
  ext x
  simp only [List.mem_toFinset, mem_membersBelow, mem_toFinset]
  refine ⟨And.left, fun hx => ⟨hx, ?_⟩⟩
  cases a with
  | none => exact absurd hx (not_mem_none x)
  | some a => exact mem_lt_length hx

/-- The set {3, 70, 200}, in four words, is such a set. -/
theorem bitmapset_refines_fourWords :
    SetSemantics (fun _ => 0) (bmsAddMember (bmsAddMember (bmsMakeSingleton 200) 70) 3) :=
  (bitmapset_refines_iff _ (bmsAddMember (bmsAddMember (bmsMakeSingleton 200) 70) 3)
    (by decide)).mpr (by decide)

/-- The loop over the set {`INT_MAX`} reads word number -33554432 after its only
member. -/
theorem bitmapset_loop_overruns :
    Addressable (bmsMakeSingleton bmsIntMax) ∧
      bmsNextMember (bmsMakeSingleton bmsIntMax) (-1) = some (bmsIntMax : Int) ∧
      bmsNextMember (bmsMakeSingleton bmsIntMax) bmsIntMax = none ∧
      ¬ SetSemantics (fun _ => 0) (bmsMakeSingleton bmsIntMax) := by
  have ha : Addressable (bmsMakeSingleton bmsIntMax) := by
    have h : Addressable none := zero_le _
    exact h.bmsAddMember (le_refl bmsIntMax)
  have hm : bmsIntMax ∈ bmsMakeSingleton bmsIntMax := (mem_bmsMakeSingleton _ _).mpr rfl
  refine ⟨ha, ?_, rfl, fun h => ?_⟩
  · rcases bmsNextMember_spec (bmsMakeSingleton bmsIntMax) (Int.le_refl (-1)) (by decide) with
      ⟨_, hn⟩ | ⟨x, heq, -, hx, -⟩
    · exact absurd hm (hn bmsIntMax (by decide))
    · rw [heq, (mem_bmsMakeSingleton _ _).mp hx]
  obtain ⟨fuel, members, hl, -⟩ := h.ascending
  rw [nextLoop_of_intMax ha hm fuel (Int.le_refl _) (by decide)] at hl
  cases hl

end AthenaPG
