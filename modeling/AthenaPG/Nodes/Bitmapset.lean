import Mathlib.Tactic

/-!
Bitmapsets (`src/backend/nodes/bitmapset.c`), on a build with 64-bit words.

A set is a pointer: `none` is `NULL`, the empty set, and `some s` carries an
array of words with at least one bit set.  Trailing zero words are allowed, so
two arrays can denote one set; `mem` is membership, `toFinset` the denotation,
and every operation below is specified by its members:

* `mem_bmsUnion`, `mem_bmsDelMembers`, `mem_bmsIntMembers`, `mem_bmsAddMember`,
  `mem_bmsAddRange`, `mem_bmsMakeSingleton`, `mem_bmsDelMember`;
* `bmsEqual_iff`, `bmsIsSubset_iff`, `bmsOverlap_iff`;
* `bmsSubsetCompare_eq`: one pass decides both inclusions;
* `bmsNumMembers_eq`: the number of members.
-/

namespace AthenaPG
open List
open BitVec (getLsbD_and getLsbD_not getLsbD_one getLsbD_zero)
open Option (getD_some some)
open Nat (mod_lt)

abbrev Bitmapword := BitVec 64

/-- A palloc'd `Bitmapset`.  The empty set is always the `NULL` pointer, so an
allocated one has a member. -/
structure Bitmapset where
  words : List Bitmapword
  hasMember : ∃ w ∈ words, w ≠ 0
  deriving DecidableEq

namespace Bitmapset

theorem words_ne_nil (s : Bitmapset) : s.words ≠ [] := by
  obtain ⟨w, hw, _⟩ := s.hasMember
  exact ne_nil_of_mem hw

/-- `words[0]`, which every allocated set has. -/
def firstWord (s : Bitmapset) : Bitmapword := s.words.head s.words_ne_nil

end Bitmapset

/-- `Relids`: a pointer to a `Bitmapset`, `none` being `NULL`. -/
abbrev Relids := Option Bitmapset

/-! ## Word arrays -/

/-- Bit `x` of a word array, false beyond its end. -/
def wordBit (ws : List Bitmapword) (x : Nat) : Bool := (ws.getD (x / 64) 0).getLsbD (x % 64)

variable (ws a b : List Bitmapword) (x : Nat) (w : Bitmapword)

@[simp] theorem wordBit_nil : wordBit [] x = false := by simp [wordBit]

theorem wordBit_cons (ws : List Bitmapword) (x : Nat) :
    wordBit (w :: ws) x = if x < 64 then w.getLsbD x else wordBit ws (x - 64) := by
  unfold wordBit
  split
  · have hq : x / 64 = 0 := by omega
    have hr : x % 64 = x := by omega
    simp [hq, hr]
  obtain ⟨q, hq⟩ : ∃ q, x / 64 = q + 1 := ⟨x / 64 - 1, by omega⟩
  have hq' : (x - 64) / 64 = q := by omega
  have hr' : (x - 64) % 64 = x % 64 := by omega
  simp [hq, hq', hr']

@[simp] theorem wordBit_cons_low (ws : List Bitmapword) {x : Nat} (h : x < 64) :
    wordBit (w :: ws) x = w.getLsbD x := by simp [wordBit_cons, h]

@[simp] theorem wordBit_cons_high (ws : List Bitmapword) (x : Nat) :
    wordBit (w :: ws) (x + 64) = wordBit ws x := by simp [wordBit_cons]

theorem forall_wordBit_cons {P : Nat → Prop} : (∀ x, P x) ↔ (∀ x < 64, P x) ∧ ∀ x, P (x + 64) := by
  constructor
  · intro h; exact ⟨fun x _ => h x, fun x => h _⟩
  · rintro ⟨hlo, hhi⟩ x
    by_cases hx : x < 64
    · exact hlo x hx
    have := hhi (x - 64)
    rwa [Nat.sub_add_cancel (by omega)] at this

theorem word_ne_zero_iff : w ≠ 0 ↔ ∃ i < 64, w.getLsbD i = true := by
  constructor
  · intro h
    by_contra hc
    push Not at hc
    apply h
    apply BitVec.eq_of_getLsbD_eq
    intro i hi
    simpa using hc i hi
  · rintro ⟨i, _, hi⟩ rfl
    simp at hi

theorem word_eq_zero_iff : w = 0 ↔ ∀ i < 64, w.getLsbD i = false := by
  have := word_ne_zero_iff w
  constructor
  · rintro rfl i _; simp
  · intro h
    by_contra hc
    obtain ⟨i, hi, hb⟩ := this.mp hc
    rw [h i hi] at hb
    exact Bool.false_ne_true hb

theorem words_zero_iff : (∀ w ∈ ws, w = 0) ↔ ∀ x, wordBit ws x = false := by
  induction ws with
  | nil => simp
  | cons w ws ih =>
    rw [forall_wordBit_cons (P := fun x => wordBit (w :: ws) x = false)]
    simp only [mem_cons, forall_eq_or_imp, word_eq_zero_iff w, ih, wordBit_cons_high]
    exact and_congr_left' (forall₂_congr fun x hx => by rw [wordBit_cons_low _ _ hx])

theorem exists_word_ne_zero_iff : (∃ w ∈ ws, w ≠ 0) ↔ ∃ x, wordBit ws x = true := by
  have := (words_zero_iff ws).not
  push Not at this
  simpa using this

/-! ## Members -/

/-- `bms_is_member`; a member is a `Nat`, so the source's negative-member
error cannot arise. -/
def bmsIsMember (x : Nat) : Relids → Bool
  | none => false
  | some a =>
    if x / 64 ≥ a.words.length then false
    else (a.words.getD (x / 64) 0 &&& (1#64 <<< (x % 64))) != 0

def Bms.mem (x : Nat) (a : Relids) : Prop := bmsIsMember x a = true

instance : Membership Nat Relids := ⟨fun a x => Bms.mem x a⟩

instance (x : Nat) (a : Relids) : Decidable (x ∈ a) :=
  inferInstanceAs (Decidable (bmsIsMember x a = true))

theorem and_shift_ne_zero {i : Nat} (hi : i < 64) : ((w &&& (1#64 <<< i)) != 0) = w.getLsbD i := by
  rw [Bool.eq_iff_iff, bne_iff_ne, word_ne_zero_iff]
  constructor
  · rintro ⟨j, hj, hb⟩
    simp only [getLsbD_and, BitVec.getLsbD_shiftLeft, Bool.and_eq_true,
      decide_eq_true_eq, Bool.not_eq_eq_eq_not, Bool.not_true, decide_eq_false_iff_not,
      getLsbD_one] at hb
    have : j = i := by omega
    rw [← this]; exact hb.1
  · intro h
    refine ⟨i, hi, ?_⟩
    simp [h, hi]

theorem mem_some_iff (a : Bitmapset) : x ∈ (some a : Relids) ↔ wordBit a.words x = true := by
  change bmsIsMember x (some a) = true ↔ _
  simp only [bmsIsMember, wordBit, and_shift_ne_zero _ (mod_lt x (by decide : 64 > 0))]
  split
  next h =>
    rw [getD_eq_getElem?_getD, getElem?_eq_none h]
    simp
  · rfl

@[simp] theorem not_mem_none : ¬ x ∈ (none : Relids) := by
  change ¬ (bmsIsMember x none = true)
  simp [bmsIsMember]

theorem exists_mem_some (a : Bitmapset) : ∃ x, x ∈ (some a : Relids) := by
  obtain ⟨x, hx⟩ := (exists_word_ne_zero_iff a.words).mp a.hasMember
  exact ⟨x, (mem_some_iff x a).mpr hx⟩

theorem eq_none_iff (a : Relids) : a = none ↔ ∀ x, ¬ x ∈ a := by
  cases a with
  | none => simp
  | some a =>
    obtain ⟨x, hx⟩ := exists_mem_some a
    simp only [reduceCtorEq, false_iff, not_forall, not_not]
    exact ⟨x, hx⟩

theorem wordBit_lt_length {ws : List Bitmapword} {x : Nat} (h : wordBit ws x = true) :
    x < 64 * ws.length := by
  by_contra hc
  have : ws.length ≤ x / 64 := by omega
  simp [wordBit, this] at h

theorem mem_lt_length {x : Nat} {a : Bitmapset} (h : x ∈ (some a : Relids)) :
    x < 64 * a.words.length :=
  wordBit_lt_length ((mem_some_iff x a).mp h)

/-- The members in increasing order: what a `bms_next_member` loop visits. -/
def bmsMembers : Relids → List Nat
  | none => []
  | some a => (List.range (64 * a.words.length)).filter (fun x => bmsIsMember x (some a))

@[simp] theorem mem_bmsMembers (a : Relids) : x ∈ bmsMembers a ↔ x ∈ a := by
  cases a with
  | none => simp [bmsMembers]
  | some a =>
    simp only [bmsMembers, mem_filter, mem_range]
    exact ⟨fun h => h.2, fun h => ⟨mem_lt_length h, h⟩⟩

def toFinset (a : Relids) : Finset Nat := (bmsMembers a).toFinset

@[simp] theorem mem_toFinset (a : Relids) : x ∈ toFinset a ↔ x ∈ a := by simp [toFinset]

theorem toFinset_eq_iff (a b : Relids) : toFinset a = toFinset b ↔ ∀ x, x ∈ a ↔ x ∈ b := by
  simp [Finset.ext_iff]

/-! ## Comparisons -/

/-- The loops of `bms_equal` over the common and the extra words. -/
def equalWords : List Bitmapword → List Bitmapword → Bool
  | [], b => b.all (· == 0)
  | a, [] => a.all (· == 0)
  | x :: a, y :: b => x == y && equalWords a b

def bmsEqual : Relids → Relids → Bool
  | none, none => true
  | none, some _ => false
  | some _, none => false
  | some a, some b => equalWords a.words b.words

private theorem all_zero_iff : ws.all (· == 0) = true ↔ ∀ x, wordBit ws x = false := by
  rw [← words_zero_iff]
  simp

private theorem word_eq_iff (v w : Bitmapword) : v = w ↔ ∀ i < 64, v.getLsbD i = w.getLsbD i := by
  constructor
  · rintro rfl i _; rfl
  · intro h; exact BitVec.eq_of_getLsbD_eq h

theorem equalWords_iff : equalWords a b = true ↔ ∀ x, wordBit a x = wordBit b x := by
  induction a, b using equalWords.induct with
  | case1 b =>
    rw [equalWords, all_zero_iff]
    simp only [wordBit_nil]
    exact forall_congr' fun x => eq_comm
  | case2 a ha =>
    rw [equalWords.eq_2 _ ha, all_zero_iff]
    simp
  | case3 x a y b ih =>
    rw [forall_wordBit_cons (P := fun z => wordBit (x :: a) z = wordBit (y :: b) z)]
    simp only [equalWords, Bool.and_eq_true, beq_iff_eq, ih, wordBit_cons_high, word_eq_iff x y]
    refine and_congr_left' (forall₂_congr fun z hz => ?_)
    rw [wordBit_cons_low _ _ hz, wordBit_cons_low _ _ hz]

theorem bmsEqual_iff (a b : Relids) : bmsEqual a b = true ↔ ∀ x, x ∈ a ↔ x ∈ b := by
  cases a with
  | none =>
    cases b with
    | none => simp [bmsEqual]
    | some b =>
      obtain ⟨x, hx⟩ := exists_mem_some b
      simp only [bmsEqual, Bool.false_eq_true, not_mem_none, false_iff, not_forall, not_not]
      exact ⟨x, hx⟩
  | some a =>
    cases b with
    | none =>
      obtain ⟨x, hx⟩ := exists_mem_some a
      simp only [bmsEqual, Bool.false_eq_true, not_mem_none, iff_false, false_iff, not_forall,
        not_not]
      exact ⟨x, hx⟩
    | some b =>
      rw [bmsEqual, equalWords_iff]
      exact forall_congr' fun x => by rw [mem_some_iff, mem_some_iff, Bool.eq_iff_iff]

/-- The loops of `bms_is_subset`. -/
def subsetWords : List Bitmapword → List Bitmapword → Bool
  | [], _ => true
  | a, [] => a.all (· == 0)
  | x :: a, y :: b => (x &&& ~~~y) == 0 && subsetWords a b

def bmsIsSubset : Relids → Relids → Bool
  | none, _ => true
  | some _, none => false
  | some a, some b => subsetWords a.words b.words

private theorem and_not_eq_zero_iff (v w : Bitmapword) :
    v &&& ~~~w = 0 ↔ ∀ i < 64, v.getLsbD i = true → w.getLsbD i = true := by
  rw [word_eq_zero_iff]
  constructor
  · intro h i hi hv
    have := h i hi
    simpa [hi, hv] using this
  · intro h i hi
    cases hv : v.getLsbD i with
    | false => simp [hv]
    | true => simp [hi, h i hi hv]

theorem subsetWords_iff :
    subsetWords a b = true ↔ ∀ x, wordBit a x = true → wordBit b x = true := by
  induction a, b using subsetWords.induct with
  | case1 b => simp [subsetWords]
  | case2 a ha =>
    rw [subsetWords.eq_2 _ ha, all_zero_iff]
    simp
  | case3 x a y b ih =>
    rw [forall_wordBit_cons (P := fun z => wordBit (x :: a) z = true → wordBit (y :: b) z = true)]
    simp only [subsetWords, Bool.and_eq_true, beq_iff_eq, ih, wordBit_cons_high,
      and_not_eq_zero_iff]
    exact and_congr_left' (forall₂_congr fun z hz => by simp [hz])

theorem bmsIsSubset_iff (a b : Relids) : bmsIsSubset a b = true ↔ ∀ x, x ∈ a → x ∈ b := by
  cases a with
  | none => simp [bmsIsSubset]
  | some a =>
    cases b with
    | none =>
      obtain ⟨x, hx⟩ := exists_mem_some a
      simp only [bmsIsSubset, Bool.false_eq_true, not_mem_none, imp_false, false_iff, not_forall,
        not_not]
      exact ⟨x, hx⟩
    | some b => simp only [bmsIsSubset, subsetWords_iff, mem_some_iff]

/-- The loop of `bms_overlap`. -/
def overlapWords : List Bitmapword → List Bitmapword → Bool
  | x :: a, y :: b => (x &&& y) != 0 || overlapWords a b
  | _, _ => false

def bmsOverlap : Relids → Relids → Bool
  | some a, some b => overlapWords a.words b.words
  | _, _ => false

theorem overlapWords_eq_false_iff :
    overlapWords a b = false ↔ ∀ x, ¬ (wordBit a x = true ∧ wordBit b x = true) := by
  induction a, b using overlapWords.induct with
  | case1 x a y b ih =>
    rw [forall_wordBit_cons (P := fun z => ¬ (wordBit (x :: a) z = true ∧
      wordBit (y :: b) z = true))]
    simp only [overlapWords, Bool.or_eq_false_iff, ih, wordBit_cons_high, bne_eq_false_iff_eq,
      word_eq_zero_iff, getLsbD_and, Bool.and_eq_false_iff]
    refine and_congr_left' (forall₂_congr fun z hz => ?_)
    rw [wordBit_cons_low _ _ hz, wordBit_cons_low _ _ hz, not_and_or, Bool.not_eq_true,
      Bool.not_eq_true]
  | case2 a b hne =>
    rw [overlapWords.eq_2 _ _ hne]
    cases a with
    | nil => simp
    | cons x a =>
      cases b with
      | nil => simp
      | cons y b => exact absurd rfl (hne x a y b rfl)

theorem bmsOverlap_eq_false_iff (a b : Relids) : bmsOverlap a b = false ↔ ∀ x, x ∈ a → ¬ x ∈ b := by
  cases a with
  | none => simp [bmsOverlap]
  | some a =>
    cases b with
    | none => simp [bmsOverlap]
    | some b => simp only [bmsOverlap, overlapWords_eq_false_iff, mem_some_iff, not_and]

theorem bmsOverlap_iff (a b : Relids) : bmsOverlap a b = true ↔ ∃ x, x ∈ a ∧ x ∈ b := by
  have := (bmsOverlap_eq_false_iff a b).not
  push Not at this
  simpa using this

inductive BmsComparison
  | equal
  | subset1
  | subset2
  | different
  deriving DecidableEq, Repr

/-- `a` turned out not to be a subset of `b`: the new status, or `none` where
the source returns `BMS_DIFFERENT` at once. -/
def noteNotSubset1 : BmsComparison → Option BmsComparison
  | .subset1 => none
  | _ => some .subset2

/-- `b` turned out not to be a subset of `a`. -/
def noteNotSubset2 : BmsComparison → Option BmsComparison
  | .subset2 => none
  | _ => some .subset1

/-- The loops of `bms_subset_compare`, with the status so far. -/
def subsetCompareWords (result : BmsComparison) :
    List Bitmapword → List Bitmapword → BmsComparison
  | [], [] => result
  | x :: a, [] =>
    match (if x != 0 then noteNotSubset1 result else some result) with
    | none => .different
    | some result => subsetCompareWords result a []
  | [], y :: b =>
    match (if y != 0 then noteNotSubset2 result else some result) with
    | none => .different
    | some result => subsetCompareWords result [] b
  | x :: a, y :: b =>
    match (if (x &&& ~~~y) != 0 then noteNotSubset1 result else some result) with
    | none => .different
    | some result =>
      match (if (y &&& ~~~x) != 0 then noteNotSubset2 result else some result) with
      | none => .different
      | some result => subsetCompareWords result a b

def bmsSubsetCompare : Relids → Relids → BmsComparison
  | none, none => .equal
  | none, some _ => .subset1
  | some _, none => .subset2
  | some a, some b => subsetCompareWords .equal a.words b.words

def ofInclusions : Bool → Bool → BmsComparison
  | true, true => .equal
  | true, false => .subset1
  | false, true => .subset2
  | false, false => .different

/-- Before `BMS_DIFFERENT` is returned, the status is the verdict on the words
seen so far: at least one inclusion still stands. -/
private theorem noteNotSubset1_eq (p q : Bool) (h : (p || q) = true) (c : Bool) :
    (if !c then noteNotSubset1 (ofInclusions p q) else some (ofInclusions p q)) =
      if (p && c) || q then some (ofInclusions (p && c) q) else none := by
  cases p <;> cases q <;> cases c <;> first | rfl | simp at h

private theorem noteNotSubset2_eq (p q : Bool) (h : (p || q) = true) (c : Bool) :
    (if !c then noteNotSubset2 (ofInclusions p q) else some (ofInclusions p q)) =
      if p || (q && c) then some (ofInclusions p (q && c)) else none := by
  cases p <;> cases q <;> cases c <;> first | rfl | simp at h

private theorem subsetWords_cons_nil (x : Bitmapword) (a : List Bitmapword) :
    subsetWords (x :: a) [] = ((x == 0) && subsetWords a []) := by
  cases a <;> simp [subsetWords]

private theorem subsetCompareWords_eq (p q : Bool) (h : (p || q) = true) :
    subsetCompareWords (ofInclusions p q) a b =
      ofInclusions (p && subsetWords a b) (q && subsetWords b a) := by
  have hd (r s : Bool) (hrs : (r || s) = false) (t u : Bool) :
      BmsComparison.different = ofInclusions (r && t) (s && u) := by
    cases r <;> cases s <;> first | rfl | simp at hrs
  induction a generalizing b p q with
  | nil =>
    induction b generalizing p q with
    | nil => simp [subsetCompareWords, subsetWords]
    | cons y b ihb =>
      rw [subsetCompareWords, bne, noteNotSubset2_eq p q h, subsetWords_cons_nil, subsetWords,
        ← Bool.and_assoc]
      split
      next hn => exact hd _ _ (by simpa using hn) _ _
      rename_i r hs
      split at hs
      next hpq => rw [← some.inj hs, ihb _ _ hpq, subsetWords]
      · exact absurd hs (by simp)
  | cons x a iha =>
    cases b with
    | nil =>
      rw [subsetCompareWords, bne, noteNotSubset1_eq p q h, subsetWords_cons_nil, subsetWords,
        ← Bool.and_assoc]
      split
      next hn => exact hd _ _ (by simpa using hn) _ _
      rename_i r hs
      split at hs
      next hpq => rw [← some.inj hs, iha _ _ _ hpq, subsetWords]
      · exact absurd hs (by simp)
    | cons y b =>
      rw [subsetCompareWords, bne, noteNotSubset1_eq p q h, subsetWords, subsetWords,
        ← Bool.and_assoc, ← Bool.and_assoc]
      split
      next hn => exact hd _ _ (by cases q <;> simp_all) _ _
      rename_i r hs
      split at hs
      next hpq =>
        rw [← some.inj hs, bne, noteNotSubset2_eq _ _ hpq]
        split
        next hn => exact hd _ _ (by simpa using hn) _ _
        rename_i r' hs'
        split at hs'
        next hpq' => rw [← some.inj hs', iha _ _ _ hpq']
        · exact absurd hs' (by simp)
      · exact absurd hs (by simp)

/-- **`bms_subset_compare`** gives the verdict of the two inclusion tests. -/
theorem bmsSubsetCompare_eq (a b : Relids) :
    bmsSubsetCompare a b = ofInclusions (bmsIsSubset a b) (bmsIsSubset b a) := by
  cases a with
  | none => cases b <;> rfl
  | some a =>
    cases b with
    | none => rfl
    | some b => exact subsetCompareWords_eq a.words b.words true true rfl

theorem bmsSubsetCompare_subset1_iff (a b : Relids) :
    (bmsSubsetCompare a b = .equal ∨ bmsSubsetCompare a b = .subset1) ↔ ∀ x, x ∈ a → x ∈ b := by
  rw [bmsSubsetCompare_eq, ← bmsIsSubset_iff]
  cases bmsIsSubset a b <;> cases bmsIsSubset b a <;> simp [ofInclusions]

theorem bmsSubsetCompare_subset2_iff (a b : Relids) :
    (bmsSubsetCompare a b = .equal ∨ bmsSubsetCompare a b = .subset2) ↔ ∀ x, x ∈ b → x ∈ a := by
  rw [bmsSubsetCompare_eq, ← bmsIsSubset_iff]
  cases bmsIsSubset a b <;> cases bmsIsSubset b a <;> simp [ofInclusions]

/-! ## Building sets -/

/-- `bms_union`'s loop: the shorter array is or-ed into a copy of the longer. -/
def orWords : List Bitmapword → List Bitmapword → List Bitmapword
  | [], b => b
  | a, [] => a
  | x :: a, y :: b => (x ||| y) :: orWords a b

theorem wordBit_orWords : wordBit (orWords a b) x = (wordBit a x || wordBit b x) := by
  induction a, b using orWords.induct generalizing x with
  | case1 b => simp [orWords]
  | case2 a ha => simp [orWords.eq_2 _ ha]
  | case3 v a w b ih =>
    simp only [orWords, wordBit_cons]
    split
    · simp
    · exact ih _

theorem length_orWords : (orWords a b).length = max a.length b.length := by
  induction a, b using orWords.induct with
  | case1 b => simp [orWords]
  | case2 a ha => simp [orWords.eq_2 _ ha]
  | case3 v a w b ih => simp [orWords, ih]

def bmsUnion : Relids → Relids → Relids
  | none, b => b
  | a, none => a
  | some a, some b => some
    { words := orWords a.words b.words
      hasMember := by
        obtain ⟨x, hx⟩ := (exists_word_ne_zero_iff a.words).mp a.hasMember
        exact (exists_word_ne_zero_iff _).mpr ⟨x, by simp [wordBit_orWords, hx]⟩ }

@[simp] theorem mem_bmsUnion (a b : Relids) : x ∈ bmsUnion a b ↔ x ∈ a ∨ x ∈ b := by
  cases a with
  | none => simp [bmsUnion]
  | some a =>
    cases b with
    | none => simp [bmsUnion]
    | some b => simp [bmsUnion, mem_some_iff, wordBit_orWords]

@[simp] theorem toFinset_bmsUnion (a b : Relids) :
    toFinset (bmsUnion a b) = toFinset a ∪ toFinset b := by
  ext x; simp

/-- `bms_add_members`, which differs from `bms_union` in what it recycles. -/
def bmsAddMembers (a b : Relids) : Relids := bmsUnion a b

/-- The loop of `bms_del_members`. -/
def delWords : List Bitmapword → List Bitmapword → List Bitmapword
  | [], _ => []
  | a, [] => a
  | x :: a, y :: b => (x &&& ~~~y) :: delWords a b

theorem wordBit_delWords : wordBit (delWords a b) x = (wordBit a x && !wordBit b x) := by
  induction a, b using delWords.induct generalizing x with
  | case1 b => simp [delWords]
  | case2 a ha => simp [delWords.eq_2 _ ha]
  | case3 v a w b ih =>
    simp only [delWords, wordBit_cons]
    split
    next hx => simp [hx]
    · exact ih _

/-- The words as a set; an empty result is `NULL`. -/
def ofWords (ws : List Bitmapword) : Relids := if h : ∃ w ∈ ws, w ≠ 0 then some ⟨ws, h⟩ else none

theorem mem_ofWords (ws : List Bitmapword) : x ∈ ofWords ws ↔ wordBit ws x = true := by
  unfold ofWords
  split
  · exact mem_some_iff x _
  next h =>
    rw [exists_word_ne_zero_iff, not_exists] at h
    simp [h x]

def bmsDelMembers : Relids → Relids → Relids
  | none, _ => none
  | a, none => a
  | some a, some b => ofWords (delWords a.words b.words)

@[simp] theorem mem_bmsDelMembers (a b : Relids) : x ∈ bmsDelMembers a b ↔ x ∈ a ∧ ¬ x ∈ b := by
  cases a with
  | none => simp [bmsDelMembers]
  | some a =>
    cases b with
    | none => simp [bmsDelMembers]
    | some b => simp [bmsDelMembers, mem_ofWords, mem_some_iff, wordBit_delWords]

/-- The loops of `bms_int_members`; the words that only `a` has become zero. -/
def intWords : List Bitmapword → List Bitmapword → List Bitmapword
  | [], _ => []
  | _ :: a, [] => 0 :: intWords a []
  | x :: a, y :: b => (x &&& y) :: intWords a b

theorem wordBit_intWords : wordBit (intWords a b) x = (wordBit a x && wordBit b x) := by
  induction a, b using intWords.induct generalizing x with
  | case1 b => simp [intWords]
  | case2 v a ih =>
    simp only [intWords, wordBit_cons]
    split
    · simp
    · simpa using ih (x - 64)
  | case3 v a w b ih =>
    simp only [intWords, wordBit_cons]
    split
    · simp
    · exact ih _

theorem length_intWords : (intWords a b).length = a.length := by
  induction a, b using intWords.induct with
  | case1 b => rfl
  | case2 v a ih => simp [intWords, ih]
  | case3 v a w b ih => simp [intWords, ih]

def bmsIntMembers : Relids → Relids → Relids
  | none, _ => none
  | _, none => none
  | some a, some b => ofWords (intWords a.words b.words)

@[simp] theorem mem_bmsIntMembers (a b : Relids) : x ∈ bmsIntMembers a b ↔ x ∈ a ∧ x ∈ b := by
  cases a with
  | none => simp [bmsIntMembers]
  | some a =>
    cases b with
    | none => simp [bmsIntMembers]
    | some b => simp [bmsIntMembers, mem_ofWords, mem_some_iff, wordBit_intWords]

/-- A word array is or-ed with `mask` at index `i`. -/
def orWordAt (ws : List Bitmapword) (i : Nat) (mask : Bitmapword) : List Bitmapword :=
  ws.modify i (· ||| mask)

/-- The array enlarged with zero words to hold word `wordnum`. -/
def enlargeWords (ws : List Bitmapword) (wordnum : Nat) : List Bitmapword :=
  ws ++ List.replicate (wordnum + 1 - ws.length) 0

theorem wordBit_enlargeWords (n x : Nat) : wordBit (enlargeWords ws n) x = wordBit ws x := by
  unfold wordBit enlargeWords
  simp only [getD_eq_getElem?_getD, getElem?_append]
  split
  · rfl
  next h =>
    rw [getElem?_eq_none (l := ws) (by omega), getElem?_replicate]
    split <;> simp

theorem length_enlargeWords (n : Nat) : n < (enlargeWords ws n).length := by
  simp only [enlargeWords, length_append, length_replicate]
  omega

theorem wordBit_orWordAt (i : Nat) (mask : Bitmapword) (hi : i < ws.length) (x : Nat) :
    wordBit (orWordAt ws i mask) x =
      (wordBit ws x || (decide (x / 64 = i) && mask.getLsbD (x % 64))) := by
  unfold wordBit orWordAt
  by_cases h : x / 64 = i
  · simp [h, getElem?_eq_getElem hi]
  have h' : i ≠ x / 64 := fun e => h e.symm
  simp [h, h']

def bmsMakeSingleton (x : Nat) : Relids := some
  { words := List.replicate (x / 64) 0 ++ [1#64 <<< (x % 64)]
    hasMember := by
      refine ⟨1#64 <<< (x % 64), by simp, (word_ne_zero_iff _).mpr ⟨x % 64, ?_, ?_⟩⟩
      · exact mod_lt _ (by decide)
      · simp [mod_lt x (by decide : 64 > 0)] }

theorem getLsbD_one_shift (i j : Nat) (hi : i < 64) : (1#64 <<< i).getLsbD j = decide (j = i) := by
  by_cases h : j = i
  · subst h; simp [hi]
  by_cases hlt : j < i
  · simp [hlt, h]
  have : j - i ≠ 0 := by omega
  simp [this, h]

@[simp] theorem mem_bmsMakeSingleton (y : Nat) : x ∈ bmsMakeSingleton y ↔ x = y := by
  rw [bmsMakeSingleton, mem_some_iff, wordBit, getD_eq_getElem?_getD, getElem?_append]
  simp only [length_replicate, getElem?_replicate]
  have hy := mod_lt y (by decide : 64 > 0)
  obtain h | h | h := lt_trichotomy (x / 64) (y / 64)
  · simp only [h, if_true, getD_some, BitVec.ofNat_eq_ofNat, getLsbD_zero,
      Bool.false_eq_true, false_iff]
    intro e; subst e; omega
  · simp only [h, Nat.lt_irrefl, if_false, Nat.sub_self, getElem?_cons_zero,
      getD_some, getLsbD_one_shift _ _ hy, decide_eq_true_eq]
    omega
  have h0 : ¬ x / 64 < y / 64 := by omega
  have h1 : x / 64 - y / 64 ≠ 0 := by omega
  obtain ⟨k, hk⟩ := Nat.exists_eq_succ_of_ne_zero h1
  simp only [h0, if_false, hk, getElem?_cons_succ, getElem?_nil,
    Option.getD_none, BitVec.ofNat_eq_ofNat, getLsbD_zero, Bool.false_eq_true, false_iff]
  intro e; subst e; omega

def bmsAddMember (a : Relids) (x : Nat) : Relids := match a with
  | none => bmsMakeSingleton x
  | some a => some
    { words := orWordAt (enlargeWords a.words (x / 64)) (x / 64) (1#64 <<< (x % 64))
      hasMember := by
        obtain ⟨y, hy⟩ := (exists_word_ne_zero_iff a.words).mp a.hasMember
        refine (exists_word_ne_zero_iff _).mpr ⟨y, ?_⟩
        rw [wordBit_orWordAt _ _ _ (length_enlargeWords _ _), wordBit_enlargeWords, hy]
        rfl }

@[simp] theorem mem_bmsAddMember (y : Nat) (a : Relids) (x : Nat) :
    y ∈ bmsAddMember a x ↔ y ∈ a ∨ y = x := by
  cases a with
  | none => simp [bmsAddMember]
  | some a =>
    rw [bmsAddMember, mem_some_iff, mem_some_iff,
      wordBit_orWordAt _ _ _ (length_enlargeWords _ _), wordBit_enlargeWords,
      getLsbD_one_shift _ _ (mod_lt x (by decide)), Bool.or_eq_true, Bool.and_eq_true,
      decide_eq_true_eq, decide_eq_true_eq]
    have : (y / 64 = x / 64 ∧ y % 64 = x % 64) ↔ y = x := by omega
    rw [this]

/-- Bit `i` of a word and all bits left of it. -/
def maskFrom (i : Nat) : Bitmapword := ~~~((1#64 <<< i) - 1)

/-- Bit `i` of a word and all bits right of it. -/
def maskUpTo (i : Nat) : Bitmapword := ~~~(0#64) >>> (64 - (i + 1))

theorem getLsbD_maskFrom {i j : Nat} (hi : i < 64) (hj : j < 64) :
    (maskFrom i).getLsbD j = decide (i ≤ j) := by
  have hp : ((1#64 <<< i) - 1).toNat = 2 ^ i - 1 := by
    have h1 : (1#64 <<< i).toNat = 2 ^ i := by
      rw [BitVec.toNat_shiftLeft, BitVec.toNat_ofNat, Nat.shiftLeft_eq]
      simp only [Nat.one_mod_two_pow_eq_one.mpr (by decide : 0 < 64), one_mul]
      exact Nat.mod_eq_of_lt (Nat.pow_lt_pow_right (by decide) hi)
    have h2 : (1 : Bitmapword) ≤ 1#64 <<< i := by
      rw [BitVec.le_def, h1]
      exact Nat.one_le_two_pow
    rw [BitVec.toNat_sub_of_le h2, h1]
    rfl
  have hb : ((1#64 <<< i) - 1).getLsbD j = decide (j < i) := by
    rw [← BitVec.testBit_toNat, hp, Nat.testBit_two_pow_sub_one]
  rw [maskFrom, getLsbD_not, hb]
  by_cases h : j < i
  · have : ¬ i ≤ j := by omega
    simp [h, this]
  have : i ≤ j := by omega
  simp [h, this, hj]

theorem getLsbD_maskUpTo {i j : Nat} (hi : i < 64) : (maskUpTo i).getLsbD j = decide (j ≤ i) := by
  rw [maskUpTo, BitVec.getLsbD_ushiftRight, getLsbD_not, getLsbD_zero, Bool.not_false,
    Bool.and_true]
  exact decide_eq_decide.mpr (by omega)

/-- `count` words from index `i` on are set to all ones. -/
def fillOnes (ws : List Bitmapword) (i : Nat) : Nat → List Bitmapword
  | 0 => ws
  | count + 1 => fillOnes (ws.set i (~~~0#64)) (i + 1) count

@[simp] theorem length_fillOnes (i count : Nat) : (fillOnes ws i count).length = ws.length := by
  induction count generalizing ws i with
  | zero => rfl
  | succ count ih => rw [fillOnes, ih, length_set]

theorem wordBit_fillOnes (i count : Nat) (h : i + count ≤ ws.length) (x : Nat) :
    wordBit (fillOnes ws i count) x =
      (wordBit ws x || decide (i ≤ x / 64 ∧ x / 64 < i + count)) := by
  induction count generalizing ws i with
  | zero =>
    have : ¬ (i ≤ x / 64 ∧ x / 64 < i + 0) := by omega
    simp only [fillOnes, this, decide_false, Bool.or_false]
  | succ count ih =>
    rw [fillOnes, ih _ _ (by rw [length_set]; omega)]
    by_cases he : x / 64 = i
    · have hb : wordBit (ws.set i (~~~0#64)) x = true := by
        rw [wordBit, getD_eq_getElem?_getD, getElem?_set, if_pos he.symm,
          if_pos (by omega), getD_some, getLsbD_not, getLsbD_zero,
          Bool.not_false, Bool.and_true]
        exact decide_eq_true (mod_lt x (by decide))
      have hin : i ≤ x / 64 ∧ x / 64 < i + (count + 1) := by omega
      rw [hb, decide_eq_true hin, Bool.true_or, Bool.or_true]
    have hb : wordBit (ws.set i (~~~0#64)) x = wordBit ws x := by
      rw [wordBit, getD_eq_getElem?_getD, getElem?_set, if_neg (Ne.symm he),
        ← getD_eq_getElem?_getD, wordBit]
    rw [hb]
    congr 1
    exact decide_eq_decide.mpr (by omega)

/-- The words of `bms_add_range` once the array reaches word `WORDNUM(upper)`. -/
def rangeWords (ws : List Bitmapword) (lower upper : Nat) : List Bitmapword :=
  let lwordnum := lower / 64
  let uwordnum := upper / 64
  if lwordnum = uwordnum then
    orWordAt ws lwordnum (maskFrom (lower % 64) &&& maskUpTo (upper % 64))
  else
    orWordAt (fillOnes (orWordAt ws lwordnum (maskFrom (lower % 64))) (lwordnum + 1)
      (uwordnum - (lwordnum + 1))) uwordnum (maskUpTo (upper % 64))

theorem wordBit_rangeWords (lower upper : Nat) (hle : lower ≤ upper) (hlen : upper / 64 < ws.length)
    (x : Nat) :
    wordBit (rangeWords ws lower upper) x = (wordBit ws x || decide (lower ≤ x ∧ x ≤ upper)) := by
  have hl := mod_lt lower (by decide : 64 > 0)
  have hu := mod_lt upper (by decide : 64 > 0)
  have hx := mod_lt x (by decide : 64 > 0)
  have hlt : lower / 64 < ws.length := by omega
  unfold rangeWords
  simp only
  split
  next he =>
    rw [wordBit_orWordAt _ _ _ hlt, getLsbD_and, getLsbD_maskFrom hl hx, getLsbD_maskUpTo hu]
    congr 1
    simp only [← Bool.decide_and]
    exact decide_eq_decide.mpr (by omega)
  rename_i hne
  have hln : (orWordAt ws (lower / 64) (maskFrom (lower % 64))).length = ws.length := by
    simp [orWordAt]
  rw [wordBit_orWordAt _ _ _ (by rw [length_fillOnes, hln]; exact hlen),
    wordBit_fillOnes _ _ _ (by rw [hln]; omega), wordBit_orWordAt _ _ _ hlt,
    getLsbD_maskFrom hl hx, getLsbD_maskUpTo hu]
  simp only [← Bool.decide_and, Bool.or_assoc, ← Bool.decide_or]
  congr 1
  exact decide_eq_decide.mpr (by omega)

def bmsAddRange (a : Relids) (lower upper : Nat) : Relids :=
  if h : upper < lower then a
  else
    let ws := (a.map Bitmapset.words).getD []
    some
      { words := rangeWords (enlargeWords ws (upper / 64)) lower upper
        hasMember := by
          refine (exists_word_ne_zero_iff _).mpr ⟨lower, ?_⟩
          rw [wordBit_rangeWords _ _ _ (by omega) (length_enlargeWords _ _),
            decide_eq_true ⟨le_refl _, by omega⟩, Bool.or_true] }

@[simp] theorem mem_bmsAddRange (a : Relids) (lower upper : Nat) :
    x ∈ bmsAddRange a lower upper ↔ x ∈ a ∨ (lower ≤ x ∧ x ≤ upper) := by
  unfold bmsAddRange
  split <;> rename_i h
  · have : ¬ (lower ≤ x ∧ x ≤ upper) := by omega
    simp [this]
  · rw [mem_some_iff, wordBit_rangeWords _ _ _ (by omega) (length_enlargeWords _ _),
      wordBit_enlargeWords, Bool.or_eq_true, decide_eq_true_eq]
    cases a with
    | none => simp
    | some a => simp [mem_some_iff]

def bmsDelMember (a : Relids) (x : Nat) : Relids := match a with
  | none => none
  | some a => ofWords (a.words.modify (x / 64) (· &&& ~~~(1#64 <<< (x % 64))))

@[simp] theorem mem_bmsDelMember (y : Nat) (a : Relids) (x : Nat) :
    y ∈ bmsDelMember a x ↔ y ∈ a ∧ y ≠ x := by
  cases a with
  | none => simp [bmsDelMember]
  | some a =>
    have hx := mod_lt x (by decide : 64 > 0)
    have hy := mod_lt y (by decide : 64 > 0)
    rw [bmsDelMember, mem_ofWords, mem_some_iff]
    unfold wordBit
    simp only [getD_eq_getElem?_getD, getElem?_modify]
    by_cases h : x / 64 = y / 64
    · cases hw : a.words[y / 64]? with
      | none => simp
      | some w =>
        simp only [h, if_true, Option.map_eq_map, Option.map_some, getD_some, getLsbD_and,
          getLsbD_not, hy, decide_true, Bool.true_and, getLsbD_one_shift _ _ hx,
          Bool.and_eq_true, Bool.not_eq_true', decide_eq_false_iff_not]
        exact and_congr_right fun _ => not_congr (by omega)
    have hne : y ≠ x := by
      rintro rfl
      exact h rfl
    simp [h, hne]

/-! ## Counting members -/

def bmwPopcount (w : Bitmapword) : Nat := (List.range 64).countP w.getLsbD

/-- The loop of `bms_num_members`. -/
def countWords : List Bitmapword → Nat
  | [] => 0
  | w :: ws => (if w ≠ 0 then bmwPopcount w else 0) + countWords ws

def bmsNumMembers : Relids → Nat
  | none => 0
  | some a => countWords a.words

theorem countWords_eq : countWords ws = (List.range (64 * ws.length)).countP (wordBit ws) := by
  induction ws with
  | nil => rfl
  | cons w ws ih =>
    have hl : (List.range 64).countP (wordBit (w :: ws)) = bmwPopcount w := by
      refine countP_congr fun x hx => ?_
      rw [wordBit_cons_low w ws (mem_range.mp hx)]
    have hw : (if w ≠ 0 then bmwPopcount w else 0) = bmwPopcount w := by
      split
      · rfl
      next hz =>
        rw [not_not.mp hz]
        rfl
    rw [countWords, hw, ih, length_cons, show 64 * (ws.length + 1) = 64 + 64 * ws.length by
      omega, range_add, countP_append, hl, countP_map]
    congr 2
    funext x
    simp [add_comm 64 x]

theorem bmsNumMembers_eq (a : Relids) : bmsNumMembers a = (toFinset a).card := by
  cases a with
  | none => rfl
  | some a =>
    have hn : (bmsMembers (some a)).Nodup := nodup_range.filter _
    rw [toFinset, toFinset_card_of_nodup hn, bmsMembers, ← countP_eq_length_filter,
      bmsNumMembers, countWords_eq]
    refine countP_congr fun x _ => ?_
    exact (mem_some_iff x a).symm

end AthenaPG
