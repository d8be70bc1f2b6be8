import Mathlib.Data.List.Forall2

/-!
Matching of label paths (`contrib/ltree/lquery_op.c`).

* `checkLevel`, `checkCond`: one level of a query, and the search with repetitions;
* `checkCond_iff`: the search is exact.
-/

namespace AthenaPG.Ltree
open List

/-- The bytes of a label. -/
abbrev Label := List UInt8

structure LqueryVariant where
  name : Label
  anyEnd : Bool
  inCase : Bool
  subLexeme : Bool

/-- A level of a query; without variants it is a `*`. -/
structure LqueryLevel where
  variants : List LqueryVariant
  not : Bool
  count : Bool
  low : Nat
  high : Nat

/-- Whether two strings agree in their first bytes. -/
def strncmp (a b : Label) (n : Nat) : Bool := a.take n == b.take n

/-- The words between underscores; no byte of a multibyte character is an underscore. -/
def lexemes (name : Label) : List Label := (name.splitOn 0x5F).filter (· ≠ [])

def compareSubnode (cmp : Label → Label → Nat → Bool) (t qn : Label) (anyEnd : Bool) : Bool :=
  (lexemes qn).all fun q => (lexemes t).any fun word =>
    (word.length == q.length || word.length > q.length && anyEnd) && cmp q word q.length

/-! ## Matching -/

variable (ltreeStrncasecmp : Label → Label → Nat → Bool)

/-- One alternative of a level. -/
def checkVariant (curvar : LqueryVariant) (curt : Label) : Bool :=
  let cmp := if curvar.inCase then ltreeStrncasecmp else strncmp
  if curvar.subLexeme then compareSubnode cmp curt curvar.name curvar.anyEnd
  else (curvar.name.length == curt.length || curt.length > curvar.name.length && curvar.anyEnd) &&
    cmp curvar.name curt curvar.name.length

def checkLevel (curq : LqueryLevel) (curt : Label) : Bool :=
  let success := !curq.not
  if curq.variants.isEmpty then success
  else if curq.variants.any (checkVariant ltreeStrncasecmp · curt) then success
  else !success

/-- The bounds on the repetitions of a level. -/
def LqueryLevel.bounds (curq : LqueryLevel) : Nat × Nat :=
  if curq.count || curq.variants.isEmpty then (curq.low, curq.high) else (1, 1)

/-- The loop over the labels that a level takes, with `remaining` of them to go: `next` is the
check of the other levels. -/
def matchLoop (level : Label → Bool) (next : List Label → Bool) (low : Nat) :
    (remaining matchcnt : Nat) → List Label → Bool
  | 0, _, tree => next tree
  | _ + 1, _, [] => false
  | remaining + 1, matchcnt, curt :: tree =>
    if decide (matchcnt ≥ low) && next (curt :: tree) then true
    else if !level curt then false
    else matchLoop level next low remaining (matchcnt + 1) tree

def checkCond : List LqueryLevel → List Label → Bool
  | [], tree => tree.isEmpty
  | curq :: query, tree =>
    let high := min curq.bounds.2 tree.length
    if high < curq.bounds.1 then false
    else matchLoop (checkLevel ltreeStrncasecmp curq) (checkCond query) curq.bounds.1 high 0 tree

/-- What a level of a query can take. -/
structure Takes (curq : LqueryLevel) (segment : List Label) : Prop where
  low : curq.bounds.1 ≤ segment.length
  high : segment.length ≤ curq.bounds.2
  labels : ∀ label ∈ segment, checkLevel ltreeStrncasecmp curq label = true

variable {level : Label → Bool} {next : List Label → Bool}

/-- The loop stops after some number of labels that the level matches. -/
theorem matchLoop_iff {low remaining matchcnt : Nat} {tree : List Label}
    (hr : remaining ≤ tree.length) (hl : low ≤ matchcnt + remaining) :
    matchLoop level next low remaining matchcnt tree = true ↔
      ∃ segment rest, segment ++ rest = tree ∧ segment.length ≤ remaining ∧
        low ≤ matchcnt + segment.length ∧ (∀ label ∈ segment, level label = true) ∧
        next rest = true := by
  induction remaining generalizing matchcnt tree with
  | zero =>
    rw [matchLoop]
    constructor
    · intro h
      exact ⟨[], tree, rfl, Nat.le_refl _, hl, by simp, h⟩
    · rintro ⟨segment, rest, rfl, hz, -, -, h⟩
      rw [length_eq_zero_iff.mp (Nat.le_zero.mp hz)]
      exact h
  | succ remaining ih =>
    cases tree with
    | nil => simp at hr
    | cons curt tree =>
      have ih := @ih (matchcnt + 1) tree (by simpa using hr) (by omega)
      rw [matchLoop]
      constructor
      · intro h
        split at h
        next hn =>
          rw [Bool.and_eq_true, decide_eq_true_eq] at hn
          exact ⟨[], _, rfl, by simp, hn.1, by simp, hn.2⟩
        split at h
        · cases h
        next hc =>
          obtain ⟨segment, rest, rfl, hs, hlw, ha, hn⟩ := ih.mp h
          refine ⟨curt :: segment, rest, rfl, ?_, ?_, ?_, hn⟩
          · simpa using hs
          · rw [length_cons]
            omega
          · exact forall_mem_cons.mpr ⟨by simpa using hc, ha⟩
      rintro ⟨segment, rest, heq, hs, hlw, ha, hn⟩
      split
      · rfl
      next hno =>
        cases segment with
        | nil =>
          -- the loop would have stopped here
          obtain rfl : rest = curt :: tree := heq
          exact absurd (by simp [hn] at hlw ⊢; omega) hno
        | cons label segment =>
          cases heq
          obtain ⟨hc, ha⟩ := forall_mem_cons.mp ha
          rw [hc]
          rw [length_cons] at hs hlw
          exact ih.mpr ⟨segment, rest, rfl, by omega, by omega, ha, hn⟩

/-- **Matching is exact**: the labels can be cut into segments that the levels take. -/
theorem checkCond_iff (query : List LqueryLevel) (tree : List Label) :
    checkCond ltreeStrncasecmp query tree = true ↔
      ∃ segments, Forall₂ (Takes ltreeStrncasecmp) query segments ∧ segments.flatten = tree := by
  induction query generalizing tree with
  | nil => simp [checkCond, @eq_comm _ []]
  | cons curq query ih =>
    rw [checkCond]
    constructor
    · intro h
      split at h
      · cases h
      next hlw =>
        obtain ⟨segment, rest, rfl, hs, hl, ha, hn⟩ :=
          (matchLoop_iff (Nat.min_le_right _ _) (by omega)).mp h
        obtain ⟨segments, hf, rfl⟩ := (ih rest).mp hn
        exact ⟨segment :: segments, .cons ⟨by omega, by omega, ha⟩ hf, rfl⟩
    · rintro ⟨segments, hf, rfl⟩
      cases hf with
      | @cons _ segment _ segments ht hf =>
        have hl := ht.low
        have hh := ht.high
        rw [flatten_cons, length_append, if_neg (by omega)]
        refine (matchLoop_iff (by rw [length_append]; omega) (by omega)).mpr ?_
        exact ⟨segment, segments.flatten, rfl, by omega, by omega, ht.labels,
          (ih _).mpr ⟨segments, hf, rfl⟩⟩

end AthenaPG.Ltree
