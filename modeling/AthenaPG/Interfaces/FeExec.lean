import AthenaPG.Library.Quoting
import Mathlib.Data.List.TakeWhile

/-!
Escaping of strings (`PQescapeStringInternal` and `PQescapeInternal` of
`src/interfaces/libpq/fe-exec.c`), with client encoding UTF-8.

A string is a list of bytes that a NUL follows.  The length of a character is taken from
its first byte alone, and the bytes after it are copied as they are.

* `escapeStringInternal_eq`, `escapeInternal_eq`: what the loops compute.
* `escapeString_length_le`: the output fits its buffer.
* `escapeStringSafe_iff`, `escapeSafe_iff`: when the result is one quoted token that
  stands for the input.
-/

namespace AthenaPG
open List Nat

open Quoting
open BitVec (ofNat ofNat_add ofNat_eq_ofNat toNat_ofNat)
open List (drop_one replicate)

/-! ## Characters -/

/-- `'`. -/
def singleQuote : UInt8 := 0x27

/-- `"`. -/
def doubleQuote : UInt8 := 0x22

/-- `\`. -/
def backslash : UInt8 := 0x5c

def isHighbitSet (ch : UInt8) : Bool := ch &&& 0x80 != 0

def sqlStrDouble (ch : UInt8) (escapeBackslash : Bool) : Bool :=
  ch == singleQuote || (ch == backslash && escapeBackslash)

def pgUtfMblen (s : UInt8) : Nat :=
  if s &&& 0x80 = 0 then 1
  else if s &&& 0xe0 = 0xc0 then 2
  else if s &&& 0xf0 = 0xe0 then 3
  else if s &&& 0xf8 = 0xf0 then 4
  else 1

/-- `*s`, NUL at the end of the string. -/
def firstByte (s : List UInt8) : UInt8 := s.headD 0

/-! ## Escaping for a given buffer -/

/-- The loop that copies a character of `len` bytes: what it copies, and `source` and
`remaining` after it. -/
def copyBytes : Nat → List UInt8 → Nat → List UInt8 × List UInt8 × Nat
  | 0, source, remaining => ([], source, remaining)
  | len + 1, source, remaining =>
    if remaining = 0 ∨ firstByte source = 0 then ([], source, remaining)
    else
      let (copied, source', remaining') := copyBytes len source.tail (remaining - 1)
      (firstByte source :: copied, source', remaining')

def padSpaces (length : Nat) : Nat → List UInt8 → List UInt8
  | 0, target => target
  | missing + 1, target =>
    if length ≤ target.length / 2 then target else padSpaces length missing (target ++ [0x20])

/-- The loop of `PQescapeStringInternal`; each round takes a byte or more. -/
def escapeStringLoop (stdStrings : Bool) (length : Nat) :
    Nat → List UInt8 → Nat → List UInt8 → List UInt8 × Bool
  | 0, _, _, target => (target, false)
  | fuel + 1, source, remaining, target =>
    if remaining = 0 ∨ firstByte source = 0 then (target, false)
    else
      let c := firstByte source
      if !isHighbitSet c then
        escapeStringLoop stdStrings length fuel source.tail (remaining - 1)
          (target ++ if sqlStrDouble c (!stdStrings) then [c, c] else [c])
      else
        let len := pgUtfMblen c
        let (copied, source, remaining) := copyBytes len source remaining
        if copied.length < len then
          (padSpaces length (len - copied.length) (target ++ copied), true)
        else escapeStringLoop stdStrings length fuel source remaining (target ++ copied)

variable (source : List UInt8) (length : Nat) (stdStrings : Bool)

/-- `PQescapeStringInternal`: the bytes written before the terminating NUL, and whether
an error is reported. -/
def pqEscapeStringInternal :
    List UInt8 × Bool :=
  escapeStringLoop stdStrings length length source length []

/-! ## Escaping into a new buffer -/

structure EscapeScan where
  scanned : Nat
  numQuotes : BitVec 32
  numBackslashes : BitVec 32

/-- `memchr(s, 0, charlen) != NULL`. -/
def hasNul (s : List UInt8) (charlen : Nat) : Bool :=
  (List.range charlen).any fun i => s.getD i 0 == 0

/-- The first pass; `none` for an incomplete character. -/
def scanString (quoteChar : UInt8) : Nat → List UInt8 → Nat → EscapeScan → Option EscapeScan
  | 0, _, _, scan => some scan
  | fuel + 1, s, remaining, scan =>
    if remaining = 0 ∨ firstByte s = 0 then some scan
    else
      let next := { scan with scanned := scan.scanned + 1 }
      if firstByte s = quoteChar then
        scanString quoteChar fuel s.tail (remaining - 1)
          { next with numQuotes := scan.numQuotes + 1 }
      else if firstByte s = backslash then
        scanString quoteChar fuel s.tail (remaining - 1)
          { next with numBackslashes := scan.numBackslashes + 1 }
      else if isHighbitSet (firstByte s) then
        let charlen := pgUtfMblen (firstByte s)
        if remaining < charlen ∨ hasNul s charlen then none
        else scanString quoteChar fuel (s.drop charlen) (remaining - charlen)
          { scan with scanned := scan.scanned + charlen }
      else scanString quoteChar fuel s.tail (remaining - 1) next

/-- `n` bytes from `s`; what lies after the end of the string stands as NULs. -/
def takeBytes (n : Nat) (s : List UInt8) : List UInt8 := s.take n ++ replicate (n - s.length) 0

/-- The second pass over the first `inputLen` bytes. -/
def copyString (quoteChar : UInt8) (asIdent : Bool) : Nat → List UInt8 → Int → List UInt8
  | 0, _, _ => []
  | fuel + 1, s, inputLen =>
    if inputLen ≤ 0 then []
    else
      let c := firstByte s
      if c = quoteChar ∨ (!asIdent ∧ c = backslash) then
        c :: c :: copyString quoteChar asIdent fuel s.tail (inputLen - 1)
      else if !isHighbitSet c then c :: copyString quoteChar asIdent fuel s.tail (inputLen - 1)
      else
        let i := pgUtfMblen c
        takeBytes i s ++ copyString quoteChar asIdent fuel (s.drop i) (inputLen - i)

/-- What `PQescapeInternal` returns: the bytes before the terminating NUL, and the size
of the buffer they are written to. -/
structure EscapeResult where
  text : List UInt8
  resultSize : BitVec 32

/-- `result_size`, an `int`. -/
def EscapeScan.resultSize (scan : EscapeScan) (asIdent : Bool) : BitVec 32 :=
  let resultSize := ofNat 32 scan.scanned + scan.numQuotes + 3#32
  if !asIdent ∧ 0 < scan.numBackslashes.toInt then resultSize + (scan.numBackslashes + 2#32)
  else resultSize

/-- The beginning of an escape string, with a space in front of it. -/
def EscapeScan.opening (scan : EscapeScan) (asIdent : Bool) : List UInt8 :=
  if !asIdent ∧ 0 < scan.numBackslashes.toInt then [0x20, 0x45] else []

def EscapeScan.body (scan : EscapeScan) (quoteChar : UInt8) (asIdent : Bool) (str : List UInt8) :
    List UInt8 :=
  let inputLen := ofNat 32 scan.scanned
  if scan.numQuotes = 0 ∧ (scan.numBackslashes = 0 ∨ asIdent) then
    -- `memcpy` takes the length as a `size_t`
    takeBytes (inputLen.signExtend 64).toNat str
  else copyString quoteChar asIdent inputLen.toNat str inputLen.toInt

/-- `PQescapeInternal` with a connection; `malloc` fails only for a negative size. -/
def pqEscapeInternal (str : List UInt8) (len : Nat) (asIdent : Bool) : Option EscapeResult :=
  let quoteChar := if asIdent then doubleQuote else singleQuote
  match scanString quoteChar len str len ⟨0, 0, 0⟩ with
  | none => none
  | some scan =>
    let resultSize := scan.resultSize asIdent
    if resultSize.toInt < 0 then none
    else
      some ⟨scan.opening asIdent ++ [quoteChar] ++ scan.body quoteChar asIdent str ++ [quoteChar],
        resultSize⟩

/-! ## The input as characters -/

/-- The input: `length` bytes, up to the first NUL. -/
def inputOf : List UInt8 := (source.take length).takeWhile (· != 0)

theorem inputOf_step (s : List UInt8) (rem : Nat) :
    inputOf s rem =
      if rem = 0 ∨ firstByte s = 0 then []
      else firstByte s :: inputOf s.tail (rem - 1) := by
  cases s with
  | nil => simp [inputOf, firstByte]
  | cons c rest =>
    cases rem with
    | zero => simp [inputOf]
    | succ rem =>
      by_cases hc : c = 0
      · simp [inputOf, firstByte, hc]
      · simp [inputOf, firstByte, hc]

def charactersFrom : Nat → List UInt8 → List (List UInt8)
  | 0, _ => []
  | _ + 1, [] => []
  | fuel + 1, c :: rest =>
    (c :: rest.take (pgUtfMblen c - 1)) :: charactersFrom fuel (rest.drop (pgUtfMblen c - 1))

/-- The characters that the first bytes announce; the last one may be incomplete. -/
def characters (text : List UInt8) : List (List UInt8) := charactersFrom text.length text

@[simp] theorem characters_nil : characters [] = [] := rfl

def trailingBytes (text : List UInt8) : List UInt8 := (characters text).flatMap List.tail

def leadingBytes (text : List UInt8) : List UInt8 := (characters text).map firstByte

def CompleteText (text : List UInt8) : Prop :=
  ∀ ch ∈ characters text, ch.length = pgUtfMblen (firstByte ch)

instance (text : List UInt8) : Decidable (CompleteText text) :=
  inferInstanceAs (Decidable (∀ ch ∈ characters text, _))

theorem charactersFrom_eq (fuel : Nat) (text : List UInt8) (h : text.length ≤ fuel) :
    charactersFrom fuel text = characters text := by
  have hm (fuel : Nat) : ∀ fuel' (text : List UInt8), text.length ≤ fuel → text.length ≤ fuel' →
      charactersFrom fuel text = charactersFrom fuel' text := by
    induction fuel with
    | zero =>
      intro fuel' text h _
      obtain rfl := length_eq_zero_iff.mp (le_zero.mp h)
      cases fuel' <;> rfl
    | succ fuel ih =>
      intro fuel' text h h'
      cases text with
      | nil => cases fuel' <;> rfl
      | cons c rest =>
        cases fuel' with
        | zero => simp at h'
        | succ fuel' =>
          simp only [length_cons, add_le_add_iff_right] at h h'
          simp only [charactersFrom]
          rw [ih fuel' _ (by rw [length_drop]; omega) (by rw [length_drop]; omega)]
  exact hm fuel text.length text h le_rfl

theorem characters_cons (c : UInt8) (rest : List UInt8) :
    characters (c :: rest) =
      (c :: rest.take (pgUtfMblen c - 1)) :: characters (rest.drop (pgUtfMblen c - 1)) := by
  rw [characters, length_cons, charactersFrom, charactersFrom_eq _ _ (by rw [length_drop]; omega)]

theorem characters_induction {P : List UInt8 → Prop} (nil : P [])
    (cons : ∀ c rest, P (rest.drop (pgUtfMblen c - 1)) → P (c :: rest)) (text : List UInt8) :
    P text := by
  have hl (n : Nat) : ∀ text : List UInt8, text.length ≤ n → P text := by
    induction n with
    | zero =>
      intro text h
      obtain rfl := length_eq_zero_iff.mp (le_zero.mp h)
      exact nil
    | succ n ih =>
      intro text h
      cases text with
      | nil => exact nil
      | cons c rest =>
        refine cons c rest (ih _ ?_)
        rw [length_drop]
        simp only [length_cons] at h
        omega
  exact hl text.length text le_rfl

theorem pgUtfMblen_pos (c : UInt8) : 0 < pgUtfMblen c := by
  unfold pgUtfMblen
  split
  · omega
  split
  · omega
  split
  · omega
  · split <;> omega

variable {c : UInt8} {rest : List UInt8} {qc : UInt8}

theorem pgUtfMblen_of_ascii (h : isHighbitSet c = false) : pgUtfMblen c = 1 := by
  have hc : c &&& 0x80 = 0 := by simpa [isHighbitSet] using h
  rw [pgUtfMblen, if_pos hc]

theorem completeText_cons (c : UInt8) (rest : List UInt8) :
    CompleteText (c :: rest) ↔
      pgUtfMblen c - 1 ≤ rest.length ∧ CompleteText (rest.drop (pgUtfMblen c - 1)) := by
  have hp := pgUtfMblen_pos c
  unfold CompleteText
  rw [characters_cons]
  simp only [mem_cons, forall_eq_or_imp, length_cons, length_take, firstByte, headD_cons]
  refine and_congr_left fun _ => ?_
  omega

variable (doubled : UInt8 → Bool)

/-- The text with its leading bytes doubled where `doubled` says so. -/
def encodeText (text : List UInt8) : List UInt8 :=
  (characters text).flatMap fun ch =>
    (if doubled (firstByte ch) then [firstByte ch, firstByte ch] else [firstByte ch]) ++ ch.tail

theorem encodeText_cons (c : UInt8) (rest : List UInt8) :
    encodeText doubled (c :: rest) =
      (if doubled c then [c, c] else [c]) ++ rest.take (pgUtfMblen c - 1) ++
        encodeText doubled (rest.drop (pgUtfMblen c - 1)) := by
  rw [encodeText, characters_cons, flatMap_cons]
  rfl

section Cons

variable {text : List UInt8} {c : UInt8} {rest : List UInt8}

theorem completeText_iff_of_cons (h : text = c :: rest) :
    CompleteText text ↔ pgUtfMblen c ≤ text.length ∧ CompleteText (text.drop (pgUtfMblen c)) := by
  obtain ⟨m, hm⟩ := exists_eq_succ_of_ne_zero (pgUtfMblen_pos c).ne'
  rw [h, completeText_cons, hm]
  simp

theorem encodeText_of_highbit (db : UInt8 → Bool) (h : text = c :: rest) (hc : db c = false) :
    encodeText db text =
      text.take (pgUtfMblen c) ++ encodeText db (text.drop (pgUtfMblen c)) := by
  obtain ⟨m, hm⟩ := exists_eq_succ_of_ne_zero (pgUtfMblen_pos c).ne'
  rw [h, encodeText_cons, hm]
  simp [hc]

theorem sqlStrDouble_of_highbit (h : isHighbitSet c = true) (eb : Bool) :
    sqlStrDouble c eb = false := by
  have hq : c ≠ singleQuote := by
    rintro rfl
    exact absurd h (by decide)
  have hb : c ≠ backslash := by
    rintro rfl
    exact absurd h (by decide)
  simp [sqlStrDouble, hq, hb]

end Cons

/-! ## What the loops compute -/

theorem copyBytes_eq (len : Nat) (source : List UInt8) (rem : Nat) :
    (copyBytes len source rem).1 = (inputOf source rem).take len ∧
    inputOf (copyBytes len source rem).2.1 (copyBytes len source rem).2.2 =
      (inputOf source rem).drop len ∧
    (copyBytes len source rem).1.length + (copyBytes len source rem).2.2 = rem := by
  induction len generalizing source rem with
  | zero => simp [copyBytes]
  | succ len ih =>
    rw [copyBytes]
    by_cases hen : rem = 0 ∨ firstByte source = 0
    · have hn := (inputOf_step source rem).trans (if_pos hen)
      simp [hen, hn]
    have hcn := (inputOf_step source rem).trans (if_neg hen)
    obtain ⟨⟨copied, source', remaining'⟩, hcp⟩ :
        ∃ copy, copyBytes len source.tail (rem - 1) = copy := ⟨_, rfl⟩
    obtain ⟨hc, hr, hl⟩ := ih source.tail (rem - 1)
    rw [hcp] at hc hr hl
    rw [if_neg hen, hcp, hcn, take_succ_cons, drop_succ_cons]
    refine ⟨congrArg _ hc, hr, ?_⟩
    simp only [length_cons] at hl ⊢
    omega

section StringLoop

variable (stdStrings : Bool) (length fuel : Nat) {rem : Nat} {source : List UInt8}

section

variable (hen : ¬ (rem = 0 ∨ firstByte source = 0))
include hen

theorem escapeStringLoop_ascii (hh : isHighbitSet (firstByte source) = false) (target : List UInt8) :
    escapeStringLoop stdStrings length (fuel + 1) source rem target =
      escapeStringLoop stdStrings length fuel source.tail (rem - 1)
        (target ++ if sqlStrDouble (firstByte source) (!stdStrings) then
          [firstByte source, firstByte source] else [firstByte source]) := by
  rw [escapeStringLoop, if_neg hen]
  simp [hh]

theorem escapeStringLoop_multibyte
    (hh : isHighbitSet (firstByte source) = true) (target : List UInt8) :
    (pgUtfMblen (firstByte source) ≤ (inputOf source rem).length →
      ∃ source' remaining',
        inputOf source' remaining' = (inputOf source rem).drop (pgUtfMblen (firstByte source)) ∧
        pgUtfMblen (firstByte source) + remaining' = rem ∧
        escapeStringLoop stdStrings length (fuel + 1) source rem target =
          escapeStringLoop stdStrings length fuel source' remaining'
            (target ++ (inputOf source rem).take (pgUtfMblen (firstByte source)))) ∧
    ((inputOf source rem).length < pgUtfMblen (firstByte source) →
      ∃ missing, escapeStringLoop stdStrings length (fuel + 1) source rem target =
        (padSpaces length missing (target ++ inputOf source rem), true)) := by
  obtain ⟨⟨copied, source', remaining'⟩, hcp⟩ :
      ∃ copy, copyBytes (pgUtfMblen (firstByte source)) source rem = copy := ⟨_, rfl⟩
  obtain ⟨hc, hr, hl⟩ := copyBytes_eq (pgUtfMblen (firstByte source)) source rem
  rw [hcp] at hc hr hl
  rw [escapeStringLoop, if_neg hen]
  simp only [hh, Bool.not_true, Bool.false_eq_true, if_false, hcp]
  subst hc
  rw [length_take] at hl ⊢
  constructor
  · intro hle
    rw [min_eq_left hle] at hl ⊢
    exact ⟨source', remaining', hr, hl, if_neg (lt_irrefl _)⟩
  · intro hlt
    rw [min_eq_right hlt.le, if_pos hlt, take_of_length_le hlt.le]
    exact ⟨_, rfl⟩

end

end StringLoop

theorem escapeStringLoop_eq (length fuel : Nat) (source : List UInt8) (rem : Nat)
    (target : List UInt8) (hf : rem ≤ fuel) :
    (CompleteText (inputOf source rem) →
      escapeStringLoop stdStrings length fuel source rem target =
        (target ++ encodeText (fun c => sqlStrDouble c (!stdStrings)) (inputOf source rem), false)) ∧
    (¬ CompleteText (inputOf source rem) →
      (escapeStringLoop stdStrings length fuel source rem target).2 = true) := by
  induction fuel generalizing source rem target with
  | zero =>
    have hnl := (inputOf_step source rem).trans (if_pos (.inl (by omega)))
    simp [escapeStringLoop, hnl, encodeText, CompleteText]
  | succ fuel ih =>
    by_cases hen : rem = 0 ∨ firstByte source = 0
    · have hnl := (inputOf_step source rem).trans (if_pos hen)
      simp [escapeStringLoop, hen, hnl, encodeText, CompleteText]
    have hc := (inputOf_step source rem).trans (if_neg hen)
    have hps := pgUtfMblen_pos (firstByte source)
    cases hh : isHighbitSet (firstByte source) with
    | false =>
      have ho := pgUtfMblen_of_ascii hh
      have hr := ih source.tail (rem - 1) (target ++
        if sqlStrDouble (firstByte source) (!stdStrings) then
          [firstByte source, firstByte source] else [firstByte source]) (by omega)
      rw [hc, completeText_cons, encodeText_cons, ho, escapeStringLoop_ascii _ _ _ hen hh]
      simpa using hr
    | true =>
      obtain ⟨hw, hp⟩ := escapeStringLoop_multibyte stdStrings length fuel hen hh target
      rw [completeText_iff_of_cons hc]
      by_cases hle : pgUtfMblen (firstByte source) ≤ (inputOf source rem).length
      · obtain ⟨source', remaining', hr, hrm, hl⟩ := hw hle
        have hn := ih source' remaining' (target ++
          (inputOf source rem).take (pgUtfMblen (firstByte source))) (by omega)
        rw [hr, append_assoc,
          ← encodeText_of_highbit (fun c => sqlStrDouble c (!stdStrings)) hc
            (sqlStrDouble_of_highbit hh _)] at hn
        rw [hl]
        simpa [hle] using hn
      obtain ⟨missing, hl⟩ := hp (by omega)
      simp [hl, hle]

theorem inputOf_length_le : (inputOf source length).length ≤ length := by
  refine le_trans (List.takeWhile_prefix _).length_le ?_
  rw [length_take]
  omega

theorem padSpaces_length_le {length : Nat} (missing : Nat) (target : List UInt8)
    (h : target.length ≤ 2 * length) : (padSpaces length missing target).length ≤ 2 * length := by
  induction missing generalizing target with
  | zero => exact h
  | succ missing ih =>
    rw [padSpaces]
    split
    · exact h
    refine ih _ ?_
    rw [length_append, length_singleton]
    omega

theorem escapeStringLoop_length_le {length : Nat} (fuel : Nat) (source : List UInt8)
    (rem : Nat) (target : List UInt8) (h : target.length + 2 * rem ≤ 2 * length) :
    (escapeStringLoop stdStrings length fuel source rem target).1.length ≤ 2 * length := by
  induction fuel generalizing source rem target with
  | zero => exact le_trans (le_add_right _ _) h
  | succ fuel ih =>
    by_cases hen : rem = 0 ∨ firstByte source = 0
    · rw [escapeStringLoop, if_pos hen]
      exact le_trans (le_add_right _ _) h
    cases hh : isHighbitSet (firstByte source) with
    | false =>
      rw [escapeStringLoop_ascii _ _ _ hen hh]
      refine ih _ _ _ ?_
      rw [length_append]
      split
      · simp only [length_cons, length_nil]
        omega
      simp only [length_cons, length_nil]
      omega
    | true =>
      obtain ⟨hw, hp⟩ := escapeStringLoop_multibyte stdStrings length fuel hen hh target
      have hi := inputOf_length_le source rem
      by_cases hle : pgUtfMblen (firstByte source) ≤ (inputOf source rem).length
      · obtain ⟨source', remaining', -, hr, hl⟩ := hw hle
        rw [hl]
        refine ih _ _ _ ?_
        rw [length_append, length_take]
        omega
      obtain ⟨missing, hl⟩ := hp (by omega)
      rw [hl]
      refine padSpaces_length_le _ _ ?_
      rw [length_append]
      omega

theorem escapeString_length_le :
    (pqEscapeStringInternal source length stdStrings).1.length ≤ 2 * length :=
  escapeStringLoop_length_le _ _ _ _ _ (by simp)

theorem le_inputOf_length_iff (k : Nat) (s : List UInt8) (rem : Nat) :
    k ≤ (inputOf s rem).length ↔ k ≤ rem ∧ hasNul s k = false := by
  have ha : hasNul s k = false ↔ ∀ i < k, s.getD i 0 ≠ 0 := by simp [hasNul]
  rw [ha]
  clear ha
  induction k generalizing s rem with
  | zero => simp
  | succ k ih =>
    have ht (i : Nat) : s.getD (i + 1) 0 = s.tail.getD i 0 := by cases s <;> simp
    have hf : s.getD 0 0 = firstByte s := by cases s <;> rfl
    rw [forall_lt_succ_left, hf]
    simp only [ht]
    rw [inputOf_step]
    split <;> rename_i hen
    · simp only [length_nil, le_zero, add_one_ne_zero, false_iff]
      rintro ⟨hle, hne, -⟩
      obtain hz | hn := hen
      · omega
      · exact hne hn
    · rw [not_or] at hen
      rw [length_cons, add_le_add_iff_right]
      refine (ih s.tail (rem - 1)).trans ?_
      have hle : k ≤ rem - 1 ↔ k + 1 ≤ rem := by omega
      rw [hle]
      exact ⟨fun h => ⟨h.1, hen.2, h.2⟩, fun h => ⟨h.1, h.2.2⟩⟩

theorem inputOf_drop (k : Nat) (s : List UInt8) (rem : Nat) (h : k ≤ (inputOf s rem).length) :
    inputOf (s.drop k) (rem - k) = (inputOf s rem).drop k ∧ s.take k = (inputOf s rem).take k := by
  induction k generalizing s rem with
  | zero => simp
  | succ k ih =>
    rw [inputOf_step s rem] at h ⊢
    split at h
    · simp at h
    rename_i hen
    rw [if_neg hen]
    obtain ⟨hd, ht⟩ := ih s.tail (rem - 1) (by simpa using h)
    rw [not_or] at hen
    cases s with
    | nil => exact absurd rfl hen.2
    | cons c rest =>
      refine ⟨?_, ?_⟩
      · rw [drop_succ_cons, drop_succ_cons, ← hd]
        congr 1
        omega
      rw [take_succ_cons, take_succ_cons, ← ht]
      rfl

theorem leadingBytes_of_cons {text : List UInt8} (h : text = c :: rest) :
    leadingBytes text = c :: leadingBytes (text.drop (pgUtfMblen c)) := by
  obtain ⟨m, hm⟩ := exists_eq_succ_of_ne_zero (pgUtfMblen_pos c).ne'
  rw [h, leadingBytes, characters_cons, hm]
  simp [leadingBytes, firstByte]

def EscapeScan.over (scan : EscapeScan) (quoteChar : UInt8) (text : List UInt8) : EscapeScan where
  scanned := scan.scanned + text.length
  numQuotes := scan.numQuotes + ofNat 32 ((leadingBytes text).count quoteChar)
  numBackslashes := scan.numBackslashes + ofNat 32 ((leadingBytes text).count backslash)

theorem EscapeScan.over_nil (scan : EscapeScan) (qc : UInt8) : scan.over qc [] = scan := by
  simp [EscapeScan.over, leadingBytes]

theorem EscapeScan.over_of_cons (scan : EscapeScan) (qc : UInt8) {text : List UInt8}
    (h : text = c :: rest) (hle : pgUtfMblen c ≤ text.length) :
    EscapeScan.over
      ⟨scan.scanned + pgUtfMblen c, scan.numQuotes + if c = qc then 1 else 0,
        scan.numBackslashes + if c = backslash then 1 else 0⟩
      qc (text.drop (pgUtfMblen c)) = scan.over qc text := by
  have hc (x : UInt8) : ofNat 32 ((leadingBytes text).count x) =
      (if c = x then 1 else 0) +
        ofNat 32 ((leadingBytes (text.drop (pgUtfMblen c))).count x) := by
    rw [leadingBytes_of_cons h, count_cons]
    by_cases hx : c = x
    · simp [hx, ofNat_add, BitVec.add_comm]
    · simp [hx]
  simp only [EscapeScan.over, hc, length_drop, BitVec.add_assoc]
  congr 1
  omega

/-- **The first pass.** -/
theorem scanString_eq (hne : qc ≠ backslash) (ha : isHighbitSet qc = false)
    (fuel : Nat) (s : List UInt8) (rem : Nat) (scan : EscapeScan) (hf : rem ≤ fuel) :
    scanString qc fuel s rem scan =
      if CompleteText (inputOf s rem) then some (scan.over qc (inputOf s rem))
      else none := by
  induction fuel generalizing s rem scan with
  | zero =>
    have hnl := (inputOf_step s rem).trans (if_pos (.inl (by omega)))
    simp [scanString, hnl, CompleteText, EscapeScan.over_nil]
  | succ fuel ih =>
    rw [scanString]
    by_cases hen : rem = 0 ∨ firstByte s = 0
    · have hnl := (inputOf_step s rem).trans (if_pos hen)
      simp [hen, hnl, CompleteText, EscapeScan.over_nil]
    have hc := (inputOf_step s rem).trans (if_neg hen)
    rw [if_neg hen]
    have hp := pgUtfMblen_pos (firstByte s)
    -- one character of the input, counted as a quote, a backslash or neither
    have hs (next : EscapeScan) (hn : next =
        ⟨scan.scanned + pgUtfMblen (firstByte s),
          scan.numQuotes + if firstByte s = qc then 1 else 0,
          scan.numBackslashes + if firstByte s = backslash then 1 else 0⟩)
        (hle : pgUtfMblen (firstByte s) ≤ (inputOf s rem).length) :
        scanString qc fuel (s.drop (pgUtfMblen (firstByte s)))
            (rem - pgUtfMblen (firstByte s)) next =
          if CompleteText (inputOf s rem) then
            some (scan.over qc (inputOf s rem))
          else none := by
      rw [ih _ _ _ (by omega), (inputOf_drop _ s rem hle).1, hn,
        EscapeScan.over_of_cons scan qc hc hle]
      refine if_congr ?_ rfl rfl
      rw [completeText_iff_of_cons hc]
      exact (and_iff_right hle).symm
    have ha' (next : EscapeScan) (hl : isHighbitSet (firstByte s) = false)
        (hn : next = ⟨scan.scanned + 1,
          scan.numQuotes + if firstByte s = qc then 1 else 0,
          scan.numBackslashes + if firstByte s = backslash then 1 else 0⟩) :
        scanString qc fuel s.tail (rem - 1) next =
          if CompleteText (inputOf s rem) then
            some (scan.over qc (inputOf s rem))
          else none := by
      have ho := pgUtfMblen_of_ascii hl
      have hr := hs next (by rw [hn, ho]) (by rw [ho, hc]; simp)
      rwa [ho, drop_one] at hr
    by_cases hq : firstByte s = qc
    · rw [if_pos hq]
      refine ha' _ (hq ▸ ha) ?_
      simp [hq, hne]
    rw [if_neg hq]
    by_cases hb : firstByte s = backslash
    · rw [if_pos hb]
      refine ha' _ (hb ▸ by decide) ?_
      simp [hb, Ne.symm hne]
    rw [if_neg hb]
    cases hh : isHighbitSet (firstByte s) with
    | false =>
      rw [if_neg (by simp)]
      refine ha' _ hh ?_
      simp [hq, hb]
    | true =>
      rw [if_pos rfl]
      have hi := le_inputOf_length_iff (pgUtfMblen (firstByte s)) s rem
      by_cases hle : pgUtfMblen (firstByte s) ≤ (inputOf s rem).length
      · obtain ⟨hrm, hnu⟩ := hi.mp hle
        rw [if_neg (by simp [hnu, hrm])]
        refine hs _ ?_ hle
        simp [hq, hb]
      rw [if_pos, if_neg]
      · rw [completeText_iff_of_cons hc]
        exact fun h => hle h.1
      by_contra hor
      rw [not_or, not_lt, Bool.not_eq_true] at hor
      exact hle (hi.mpr hor)

def doubles (quoteChar : UInt8) (asIdent : Bool) (c : UInt8) : Bool :=
  c == quoteChar || (!asIdent && c == backslash)

theorem doubles_of_highbit (ha : isHighbitSet qc = false) (ai : Bool)
    (h : isHighbitSet c = true) : doubles qc ai c = false := by
  have hq : c ≠ qc := by
    rintro rfl
    simp [h] at ha
  have hb : c ≠ backslash := by
    rintro rfl
    exact absurd h (by decide)
  simp [doubles, hq, hb]

theorem takeBytes_inputOf {k : Nat} {s : List UInt8} {rem : Nat}
    (h : k ≤ (inputOf s rem).length) : takeBytes k s = (inputOf s rem).take k := by
  have ht := (inputOf_drop k s rem h).2
  have hln : k ≤ s.length := by
    have hl := congrArg List.length ht
    simp only [length_take] at hl
    omega
  rw [takeBytes, Nat.sub_eq_zero_of_le hln, ht]
  simp

/-- **The second pass**, over the whole of a complete text. -/
theorem copyString_eq (ha : isHighbitSet qc = false) (ai : Bool) (fuel : Nat)
    (s : List UInt8) (rem : Nat) (hf : (inputOf s rem).length ≤ fuel)
    (hcomplete : CompleteText (inputOf s rem)) :
    copyString qc ai fuel s (inputOf s rem).length =
      encodeText (doubles qc ai) (inputOf s rem) := by
  induction fuel generalizing s rem with
  | zero =>
    rw [length_eq_zero_iff.mp (le_zero.mp hf)]
    rfl
  | succ fuel ih =>
    rw [copyString]
    by_cases hen : rem = 0 ∨ firstByte s = 0
    · have hnl := (inputOf_step s rem).trans (if_pos hen)
      simp [hnl, encodeText]
    have hc := (inputOf_step s rem).trans (if_neg hen)
    obtain ⟨hle, hr⟩ := (completeText_iff_of_cons hc).mp hcomplete
    have hp := pgUtfMblen_pos (firstByte s)
    obtain ⟨hdr, -⟩ := inputOf_drop _ s rem hle
    have hn := ih (s.drop (pgUtfMblen (firstByte s)))
      (rem - pgUtfMblen (firstByte s)) (by rw [hdr, length_drop]; omega)
      (by rwa [hdr])
    have hl : (((inputOf s rem).drop (pgUtfMblen (firstByte s))).length : Int) =
        (inputOf s rem).length - pgUtfMblen (firstByte s) := by
      rw [length_drop]
      omega
    rw [hdr, hl] at hn
    rw [if_neg (by omega)]
    cases hh : isHighbitSet (firstByte s) with
    | true =>
      have hdb := doubles_of_highbit ha ai hh
      have hno : ¬ (firstByte s = qc ∨ (!ai) = true ∧ firstByte s = backslash) := by
        simpa [doubles] using hdb
      simp only [hno, if_false, hh, Bool.not_true, Bool.false_eq_true]
      rw [hn, takeBytes_inputOf hle, ← encodeText_of_highbit _ hc hdb]
    | false =>
      have ho := pgUtfMblen_of_ascii hh
      rw [ho, drop_one, hc, drop_one, tail_cons, length_cons] at hn
      rw [hc, length_cons, encodeText_cons, ho]
      simp only [cast_one] at hn
      simp only [hh, Bool.not_false, if_true, hn, Nat.sub_self, take_zero, append_nil, drop_zero]
      by_cases hd : doubles qc ai (firstByte s) = true
      · have hy : firstByte s = qc ∨ (!ai) = true ∧ firstByte s = backslash := by
          simpa [doubles] using hd
        rw [if_pos hy, if_pos hd]
        rfl
      have hno : ¬ (firstByte s = qc ∨ (!ai) = true ∧ firstByte s = backslash) := by
        simpa [doubles] using hd
      rw [if_neg hno, if_neg hd]
      rfl

/-! ## Counting -/

theorem trailingBytes_of_cons {text : List UInt8} (h : text = c :: rest) :
    trailingBytes text =
      rest.take (pgUtfMblen c - 1) ++ trailingBytes (rest.drop (pgUtfMblen c - 1)) := by
  rw [h, trailingBytes, characters_cons, flatMap_cons]
  rfl

theorem leadingBytes_cons (c : UInt8) (rest : List UInt8) :
    leadingBytes (c :: rest) = c :: leadingBytes (rest.drop (pgUtfMblen c - 1)) := by
  simp [leadingBytes, characters_cons, firstByte]

theorem text_count (x : UInt8) (text : List UInt8) :
    text.count x = (leadingBytes text).count x + (trailingBytes text).count x := by
  induction text using characters_induction with
  | nil => rfl
  | cons c rest ih =>
    have hs : rest.count x = (rest.take (pgUtfMblen c - 1)).count x +
        (rest.drop (pgUtfMblen c - 1)).count x := by
      rw [← count_append, take_append_drop]
    rw [leadingBytes_cons, trailingBytes_of_cons rfl, count_cons, count_cons, count_append, hs, ih]
    omega

theorem encodeText_count (x : UInt8) (text : List UInt8) :
    (encodeText doubled text).count x =
      (if doubled x then 2 else 1) * (leadingBytes text).count x + (trailingBytes text).count x := by
  induction text using characters_induction with
  | nil => simp [encodeText, leadingBytes, trailingBytes]
  | cons c rest ih =>
    rw [encodeText_cons, leadingBytes_cons, trailingBytes_of_cons rfl, count_append,
      count_append, count_append, ih, count_cons]
    by_cases hcx : c = x
    · subst hcx
      by_cases hd : doubled c = true
      · simp [hd]
        omega
      simp [hd]
      omega
    have hz : (if doubled c = true then [c, c] else [c]).count x = 0 := by split <;> simp [hcx]
    rw [hz]
    simp [hcx]
    omega

theorem encodeText_length (text : List UInt8) :
    (encodeText doubled text).length = text.length + (leadingBytes text).countP doubled := by
  induction text using characters_induction with
  | nil => rfl
  | cons c rest ih =>
    rw [encodeText_cons, leadingBytes_cons, length_append, length_append, ih,
      countP_cons, length_take, length_drop, length_cons]
    split
    · simp only [length_cons, length_nil]
      omega
    simp only [length_cons, length_nil]
    omega

theorem leadingBytes_length_le (text : List UInt8) : (leadingBytes text).length ≤ text.length := by
  induction text using characters_induction with
  | nil => rfl
  | cons c rest ih =>
    rw [leadingBytes_cons, length_cons, length_cons]
    rw [length_drop] at ih
    omega

section

variable {quote : UInt8} {escape : Option UInt8} {doubled : UInt8 → Bool} (text : List UInt8)
  (hld : ∀ c ∈ leadingBytes text, doubled c = true ↔ Special quote escape c)
include text hld

theorem encodeText_eq_flatMap (ht : ∀ b ∈ trailingBytes text, ¬ Special quote escape b) :
    encodeText doubled text =
      text.flatMap fun b => if decide (Special quote escape b) then [b, b] else [b] := by
  induction text using characters_induction with
  | nil => rfl
  | cons c rest ih =>
    rw [leadingBytes_cons] at hld
    rw [trailingBytes_of_cons rfl] at ht
    have hr := ih (fun x hx => hld x (by simp [hx])) fun x hx => ht x (by simp [hx])
    have hf : (if doubled c = true then [c, c] else [c]) =
        if decide (Special quote escape c) = true then [c, c] else [c] := by
      refine if_congr ?_ rfl rfl
      rw [hld c (by simp), decide_eq_true_iff]
    have htk : rest.take (pgUtfMblen c - 1) = (rest.take (pgUtfMblen c - 1)).flatMap fun b =>
        if decide (Special quote escape b) then [b, b] else [b] := by
      rw [flatMap_congr (g := fun b => [b]), flatMap_singleton']
      intro b hb
      have hno := ht b (by simp [hb])
      simp [hno]
    rw [encodeText_cons, hr, htk, hf, append_assoc, ← flatMap_append,
      take_append_drop, flatMap_cons]

/-- **When an encoded text reads back**: no special byte lies inside a character. -/
theorem readQuoted_encodeText_iff :
    readQuoted quote escape (encodeText doubled text ++ [quote]) = some text ↔
      ∀ b ∈ trailingBytes text, ¬ Special quote escape b := by
  constructor
  · intro hr b hb hs
    obtain ⟨hq, hes, -⟩ := readQuoted_count hr
    have hp := count_pos_iff.mpr hb
    have htw : (encodeText doubled text).count b =
        2 * (leadingBytes text).count b + (trailingBytes text).count b := by
      rw [encodeText_count]
      by_cases hm : b ∈ leadingBytes text
      · rw [if_pos ((hld b hm).mpr hs)]
      rw [count_eq_zero.mpr hm]
      simp
    have htx := text_count b text
    by_cases hbq : b = quote
    · subst hbq
      rw [count_append, count_singleton_self] at hq
      omega
    have he := hes b (hs.resolve_left hbq).symm hbq
    rw [count_append, count_singleton, if_neg (by simpa using Ne.symm hbq)] at he
    omega
  · intro ht
    rw [encodeText_eq_flatMap text hld ht]
    exact readQuoted_double text fun b _ => decide_eq_true_iff

end

/-! ## Safety -/

def readLiteral (standardConformingStrings : Bool) (text : List UInt8) : Option (List UInt8) :=
  if text.take 3 = [0x20, 0x45, singleQuote] then
    readQuoted singleQuote (some backslash) (text.drop 3)
  else if text.take 1 = [singleQuote] then
    readQuoted singleQuote (if standardConformingStrings then none else some backslash)
      (text.drop 1)
  else none

def readIdentifier (text : List UInt8) : Option (List UInt8) :=
  if text.take 1 = [doubleQuote] then readQuoted doubleQuote none (text.drop 1) else none

def readToken (asIdent standardConformingStrings : Bool) (text : List UInt8) :
    Option (List UInt8) :=
  if asIdent then readIdentifier text else readLiteral standardConformingStrings text

/-- Between single quotes, what `PQescapeStringInternal` writes without an error is a
literal for the input, and fits the buffer. -/
def EscapeStringSafe : Prop :=
  (pqEscapeStringInternal source length stdStrings).2 = false →
    readLiteral stdStrings
      (singleQuote :: (pqEscapeStringInternal source length stdStrings).1 ++ [singleQuote]) =
        some (inputOf source length) ∧
    (pqEscapeStringInternal source length stdStrings).1.length ≤ 2 * length

/-- What `PQescapeInternal` returns is a literal or identifier for the input, and fits
the buffer with its terminating NUL. -/
def EscapeSafe (str : List UInt8) (len : Nat) (asIdent standardConformingStrings : Bool) : Prop :=
  ∀ result, pqEscapeInternal str len asIdent = some result →
    readToken asIdent standardConformingStrings result.text = some (inputOf str len) ∧
    result.text.length + 1 ≤ result.resultSize.toNat

/-- No special byte lies inside a character. -/
def NoSpecialInside (quote : UInt8) (escape : Option UInt8) (text : List UInt8) : Prop :=
  ∀ b ∈ trailingBytes text, ¬ Special quote escape b

theorem escapeStringSafe_iff :
    EscapeStringSafe source length stdStrings ↔
      (CompleteText (inputOf source length) →
        NoSpecialInside singleQuote (if stdStrings then none else some backslash)
          (inputOf source length)) := by
  obtain ⟨hcomplete, hi⟩ := escapeStringLoop_eq stdStrings length length source length [] le_rfl
  have hld : ∀ c ∈ leadingBytes (inputOf source length), sqlStrDouble c (!stdStrings) = true ↔
      Special singleQuote (if stdStrings then none else some backslash) c := by
    intro c _
    cases stdStrings <;> simp [sqlStrDouble, Special]
  have hl := escapeString_length_le source length stdStrings
  unfold EscapeStringSafe
  by_cases hc : CompleteText (inputOf source length)
  · have he : pqEscapeStringInternal source length stdStrings =
        (encodeText (fun c => sqlStrDouble c (!stdStrings)) (inputOf source length), false) := by
      rw [pqEscapeStringInternal, hcomplete hc, nil_append]
    rw [he] at hl ⊢
    have hr : readLiteral stdStrings
        (singleQuote :: encodeText (fun c => sqlStrDouble c (!stdStrings)) (inputOf source length) ++
          [singleQuote]) =
        readQuoted singleQuote (if stdStrings then none else some backslash)
          (encodeText (fun c => sqlStrDouble c (!stdStrings)) (inputOf source length) ++
            [singleQuote]) := by
      rw [readLiteral, if_neg, if_pos]
      · simp
      · simp
      intro h
      have hf := congrArg (fun l => firstByte l) h
      simp [firstByte, singleQuote] at hf
    rw [hr, readQuoted_encodeText_iff _ hld]
    simp [hl, hc, NoSpecialInside]
  have her : (pqEscapeStringInternal source length stdStrings).2 = true := hi hc
  simp [her, hc]

section Internal

variable (asIdent : Bool) (text : List UInt8)

/-- `quote_char`. -/
def quoteCharOf : UInt8 := if asIdent then doubleQuote else singleQuote

def scanOf : EscapeScan := EscapeScan.over ⟨0, 0, 0⟩ (quoteCharOf asIdent) text

def UsesEscapes : Prop := asIdent = false ∧ 0 < (leadingBytes text).count backslash

instance : Decidable (UsesEscapes asIdent text) := inferInstanceAs (Decidable (_ ∧ _))

/-- The size of the buffer, before it is cut to an `int`. -/
def escapedSize : Nat :=
  text.length + (leadingBytes text).count (quoteCharOf asIdent) + 3 +
    if UsesEscapes asIdent text then (leadingBytes text).count backslash + 2 else 0

/-- The escape character that is active where the result is read. -/
def escapeOf (standardConformingStrings : Bool) : Option UInt8 :=
  if UsesEscapes asIdent text ∨ asIdent = false ∧ standardConformingStrings = false then
    some backslash
  else none

theorem quoteCharOf_ne_backslash : quoteCharOf asIdent ≠ backslash := by cases asIdent <;> decide

theorem isHighbitSet_quoteCharOf : isHighbitSet (quoteCharOf asIdent) = false := by
  cases asIdent <;> decide

theorem toInt_ofNat_of_lt {n : Nat} (h : n < 2 ^ 31) : (ofNat 32 n).toInt = n := by
  rw [BitVec.toInt_eq_toNat_of_lt]
  · rw [toNat_ofNat, mod_eq_of_lt (by omega)]
  rw [toNat_ofNat, mod_eq_of_lt (by omega)]
  omega

theorem signExtend_ofNat_of_lt {n : Nat} (h : n < 2 ^ 31) :
    ((ofNat 32 n).signExtend 64).toNat = n := by
  have ht : (ofNat 32 n).toNat = n := by rw [toNat_ofNat, mod_eq_of_lt (by omega)]
  have hm : (ofNat 32 n).msb = false := by
    rw [BitVec.msb_eq_false_iff_two_mul_lt, ht]
    omega
  rw [BitVec.signExtend_eq_setWidth_of_msb_false hm, BitVec.toNat_setWidth, ht,
    mod_eq_of_lt (by omega)]

theorem leadingBytes_count_le (x : UInt8) : (leadingBytes text).count x ≤ text.length :=
  le_trans count_le_length (leadingBytes_length_le text)

variable {asIdent} {text}

section

variable (h : text.length < 2 ^ 31)
include h

theorem numBackslashes_toInt :
    (scanOf asIdent text).numBackslashes.toInt = (leadingBytes text).count backslash := by
  have hle := leadingBytes_count_le text backslash
  simp only [scanOf, EscapeScan.over, ofNat_eq_ofNat, BitVec.zero_add]
  exact toInt_ofNat_of_lt (by omega)

theorem usesEscapes_iff :
    ((!asIdent) = true ∧ 0 < (scanOf asIdent text).numBackslashes.toInt) ↔
      UsesEscapes asIdent text := by
  rw [numBackslashes_toInt h, UsesEscapes]
  simp

theorem opening_eq :
    (scanOf asIdent text).opening asIdent =
      if UsesEscapes asIdent text then [0x20, 0x45] else [] := by
  rw [EscapeScan.opening]
  exact if_congr (usesEscapes_iff h) rfl rfl

theorem resultSize_eq :
    (scanOf asIdent text).resultSize asIdent = ofNat 32 (escapedSize asIdent text) := by
  rw [EscapeScan.resultSize, escapedSize]
  simp only [usesEscapes_iff h]
  split
  · simp only [scanOf, EscapeScan.over, ofNat_eq_ofNat, BitVec.zero_add, zero_add, ofNat_add]
  simp only [scanOf, EscapeScan.over, ofNat_eq_ofNat, BitVec.zero_add, zero_add,
    ofNat_add, add_zero]

end

theorem encodeText_eq_self {db : UInt8 → Bool} (text : List UInt8)
    (h : ∀ c ∈ leadingBytes text, db c = false) : encodeText db text = text := by
  induction text using characters_induction with
  | nil => rfl
  | cons c rest ih =>
    rw [leadingBytes_cons] at h
    have hc := h c (by simp)
    rw [encodeText_cons, ih fun x hx => h x (by simp [hx]), append_assoc, take_append_drop]
    simp [hc]

theorem ofNat_eq_zero_iff {n : Nat} (h : n < 2 ^ 31) : ofNat 32 n = 0 ↔ n = 0 := by
  rw [← BitVec.toNat_inj, toNat_ofNat, mod_eq_of_lt (by omega)]
  simp

theorem body_eq (str : List UInt8) (len : Nat) (h : (inputOf str len).length < 2 ^ 31)
    (hcomplete : CompleteText (inputOf str len)) :
    (scanOf asIdent (inputOf str len)).body (quoteCharOf asIdent) asIdent str =
      encodeText (doubles (quoteCharOf asIdent) asIdent) (inputOf str len) := by
  have hs : (scanOf asIdent (inputOf str len)).scanned = (inputOf str len).length := by
    simp [scanOf, EscapeScan.over]
  have hq := leadingBytes_count_le (inputOf str len) (quoteCharOf asIdent)
  have hb := leadingBytes_count_le (inputOf str len) backslash
  rw [EscapeScan.body, hs]
  split
  next hnn =>
    rw [signExtend_ofNat_of_lt h, takeBytes_inputOf le_rfl, take_length, encodeText_eq_self]
    intro c hc
    simp only [scanOf, EscapeScan.over, ofNat_eq_ofNat, BitVec.zero_add] at hnn
    have hz (n : Nat) (hn : n < 2 ^ 31) : ofNat 32 n = 0#32 ↔ n = 0 := ofNat_eq_zero_iff hn
    rw [hz _ (by omega), hz _ (by omega), count_eq_zero, count_eq_zero] at hnn
    have hcq : c ≠ quoteCharOf asIdent := fun heq => hnn.1 (heq ▸ hc)
    obtain hnb | hi := hnn.2
    · have hcb : c ≠ backslash := fun heq => hnb (heq ▸ hc)
      simp [doubles, hcq, hcb]
    subst hi
    simp [doubles, hcq]
  · rw [toInt_ofNat_of_lt h, toNat_ofNat, mod_eq_of_lt (by omega)]
    exact copyString_eq (isHighbitSet_quoteCharOf asIdent) asIdent _ str len le_rfl hcomplete

theorem countP_doubles (ai : Bool) (l : List UInt8) :
    l.countP (doubles (quoteCharOf ai) ai) =
      l.count (quoteCharOf ai) + if ai then 0 else l.count backslash := by
  induction l with
  | nil => cases ai <;> rfl
  | cons c l ih =>
    rw [countP_cons, ih, count_cons, count_cons]
    by_cases hq : c = quoteCharOf ai
    · have hb := hq ▸ quoteCharOf_ne_backslash ai
      simp [doubles, hq, hq ▸ hb]
      omega
    cases ai with
    | true => simp [doubles, hq]
    | false =>
      simp [doubles, hq]
      omega

theorem encodeText_doubles_length (ai : Bool) (text : List UInt8) :
    (if UsesEscapes ai text then ([0x20, 0x45] : List UInt8) else []).length +
      (encodeText (doubles (quoteCharOf ai) ai) text).length + 3 =
      escapedSize ai text := by
  rw [encodeText_length, countP_doubles, escapedSize]
  cases ai with
  | true => simp [UsesEscapes]
  | false =>
    by_cases hb : 0 < (leadingBytes text).count backslash
    · have hu : UsesEscapes false text := ⟨rfl, hb⟩
      simp [hu]
      omega
    have hu : ¬ UsesEscapes false text := fun h => hb h.2
    simp [hu]
    omega

theorem doubles_iff_special (ai std : Bool) (text : List UInt8) :
    ∀ c ∈ leadingBytes text, doubles (quoteCharOf ai) ai c = true ↔
      Special (quoteCharOf ai) (escapeOf ai text std) c := by
  intro c hc
  unfold escapeOf Special doubles
  cases ai with
  | true => simp [UsesEscapes]
  | false =>
    by_cases hcb : c = backslash
    · have hu : UsesEscapes false text := ⟨rfl, count_pos_iff.mpr (hcb ▸ hc)⟩
      simp [hu]
    have hne : ∀ p : Prop, [Decidable p] → ¬ some c = if p then some backslash else none := by
      intro p _
      split <;> simp [hcb]
    simp [hcb, hne]

theorem readToken_length {ai std : Bool} {tok value : List UInt8}
    (h : readToken ai std tok = some value) : value.length + 1 ≤ tok.length := by
  have hd (quote : UInt8) (escape : Option UInt8) (k : Nat)
      (hr : readQuoted quote escape (tok.drop k) = some value) :
      value.length + 1 ≤ tok.length := by
    have hl := (readQuoted_count hr).length
    rw [length_drop] at hl
    omega
  unfold readToken readIdentifier readLiteral at h
  split at h
  · split at h
    · exact hd _ _ _ h
    · simp at h
  split at h
  · exact hd _ _ _ h
  split at h
  · exact hd _ _ _ h
  · simp at h

theorem readToken_eq (ai std : Bool) (text body : List UInt8) :
    readToken ai std
      ((if UsesEscapes ai text then [0x20, 0x45] else []) ++ [quoteCharOf ai] ++ body ++
        [quoteCharOf ai]) =
      readQuoted (quoteCharOf ai) (escapeOf ai text std) (body ++ [quoteCharOf ai]) := by
  cases ai with
  | true => simp [readToken, readIdentifier, UsesEscapes, quoteCharOf, escapeOf]
  | false =>
    by_cases hu : UsesEscapes false text
    · simp [readToken, readLiteral, hu, quoteCharOf, escapeOf]
    have hp : ¬ (singleQuote = 0x20) := by decide
    cases std <;>
      simp [readToken, readLiteral, hu, quoteCharOf, escapeOf, hp]

end Internal

/-- **`PQescapeInternal` is safe** unless a special byte lies inside a character, or the
size of the buffer does not fit an `int`. -/
theorem escapeSafe_iff (str : List UInt8) (len : Nat) (ai std : Bool) :
    EscapeSafe str len ai std ↔
      (CompleteText (inputOf str len) →
        0 ≤ ((scanOf ai (inputOf str len)).resultSize ai).toInt →
        escapedSize ai (inputOf str len) < 2 ^ 31 ∧
        NoSpecialInside (quoteCharOf ai)
          (escapeOf ai (inputOf str len) std) (inputOf str len)) := by
  obtain ⟨text, ht⟩ : ∃ text, inputOf str len = text := ⟨_, rfl⟩
  have hsc := scanString_eq (quoteCharOf_ne_backslash ai) (isHighbitSet_quoteCharOf ai)
    len str len ⟨0, 0, 0⟩ le_rfl
  have he : pqEscapeInternal str len ai =
      if CompleteText text ∧ 0 ≤ ((scanOf ai text).resultSize ai).toInt then
        some ⟨(scanOf ai text).opening ai ++ [quoteCharOf ai] ++
            (scanOf ai text).body (quoteCharOf ai) ai str ++ [quoteCharOf ai],
          (scanOf ai text).resultSize ai⟩
      else none := by
    rw [ht] at hsc
    show (match scanString (quoteCharOf ai) len str len ⟨0, 0, 0⟩ with
      | none => none
      | some scan => _) = _
    rw [hsc]
    by_cases hc : CompleteText text
    · by_cases hr : 0 ≤ ((scanOf ai text).resultSize ai).toInt
      · simp only [hc, hr, if_true, and_self]
        exact if_neg (not_lt.mpr hr)
      simp only [hc, hr, if_true, and_false, if_false]
      exact if_pos (not_le.mp hr)
    simp [hc]
  have hs (hcomplete : CompleteText text) (hlt : text.length < 2 ^ 31) :
      (scanOf ai text).opening ai ++ [quoteCharOf ai] ++
          (scanOf ai text).body (quoteCharOf ai) ai str ++ [quoteCharOf ai] =
        (if UsesEscapes ai text then [0x20, 0x45] else []) ++ [quoteCharOf ai] ++
          encodeText (doubles (quoteCharOf ai) ai) text ++ [quoteCharOf ai] := by
    subst ht
    rw [opening_eq hlt, body_eq str len hlt hcomplete]
  have hsz : ((if UsesEscapes ai text then [0x20, 0x45] else []) ++ [quoteCharOf ai] ++
      encodeText (doubles (quoteCharOf ai) ai) text ++ [quoteCharOf ai]).length + 1 =
      escapedSize ai text := by
    rw [← encodeText_doubles_length]
    simp only [length_append, length_singleton]
    omega
  have hrd := readToken_eq ai std text
    (encodeText (doubles (quoteCharOf ai) ai) text)
  have hif := readQuoted_encodeText_iff text
    (doubles_iff_special ai std text)
  rw [EscapeSafe, he, ht]
  constructor
  · intro hsf hcomplete hr
    obtain ⟨hv, hf⟩ := hsf _ (if_pos ⟨hcomplete, hr⟩)
    have hln := readToken_length hv
    have htn : ((scanOf ai text).resultSize ai).toNat < 2 ^ 31 := by
      have hm : ((scanOf ai text).resultSize ai).msb = false := by
        rw [BitVec.msb_eq_toInt]
        exact decide_eq_false (not_lt.mpr hr)
      have hh := BitVec.msb_eq_false_iff_two_mul_lt.mp hm
      omega
    dsimp only at hf hln hv
    rw [hs hcomplete (by omega)] at hv hf
    exact ⟨by omega, hif.mp (hrd.symm.trans hv)⟩
  · rintro hcn result hrs
    split at hrs
    next hb =>
      obtain ⟨hlt, hi⟩ := hcn hb.1 hb.2
      obtain rfl := Option.some.inj hrs
      have hl : text.length < 2 ^ 31 := by
        rw [escapedSize] at hlt
        omega
      rw [hs hb.1 hl, hrd, hsz, resultSize_eq hl, toNat_ofNat, mod_eq_of_lt (by omega)]
      exact ⟨hif.mpr hi, le_rfl⟩
    · simp at hrs

/-- **Escaping is safe** exactly if no byte that has to be doubled lies inside a
character, and the size that `PQescapeInternal` computes fits an `int`. -/
theorem escaping_safe_iff (input : List UInt8) (length : Nat) (standardConformingStrings : Bool) :
    (EscapeStringSafe input length standardConformingStrings ↔
      (CompleteText (inputOf input length) →
        NoSpecialInside singleQuote (if standardConformingStrings then none else some backslash)
          (inputOf input length))) ∧
    ∀ asIdent,
      (EscapeSafe input length asIdent standardConformingStrings ↔
        (CompleteText (inputOf input length) →
          0 ≤ ((scanOf asIdent (inputOf input length)).resultSize asIdent).toInt →
          escapedSize asIdent (inputOf input length) < 2 ^ 31 ∧
          NoSpecialInside (quoteCharOf asIdent)
            (escapeOf asIdent (inputOf input length) standardConformingStrings)
            (inputOf input length))) :=
  ⟨escapeStringSafe_iff input length standardConformingStrings,
    fun asIdent => escapeSafe_iff input length asIdent standardConformingStrings⟩

/-- `O'Reilly` is escaped safely in every way. -/
theorem escaping_safe_oreilly :
    EscapeStringSafe [0x4f, 0x27, 0x52, 0x65, 0x69, 0x6c, 0x6c, 0x79] 8 true ∧
    ∀ asIdent, EscapeSafe [0x4f, 0x27, 0x52, 0x65, 0x69, 0x6c, 0x6c, 0x79] 8 asIdent true := by
  have hi := escaping_safe_iff [0x4f, 0x27, 0x52, 0x65, 0x69, 0x6c, 0x6c, 0x79] 8 true
  have hn : ∀ quote escape, NoSpecialInside quote escape
      (inputOf [0x4f, 0x27, 0x52, 0x65, 0x69, 0x6c, 0x6c, 0x79] 8) := by
    intro quote escape b hb
    cases hb
  refine ⟨hi.1.mpr fun _ => hn _ _, fun asIdent => (hi.2 asIdent).mpr fun _ _ => ?_⟩
  refine ⟨?_, hn _ _⟩
  cases asIdent <;> decide

theorem ascii_characters (text : List UInt8) (h : ∀ c ∈ text, isHighbitSet c = false) :
    leadingBytes text = text ∧ CompleteText text := by
  induction text with
  | nil => exact ⟨rfl, by simp [CompleteText]⟩
  | cons c rest ih =>
    obtain ⟨hld, hc⟩ := ih fun x hx => h x (by simp [hx])
    have ho := pgUtfMblen_of_ascii (h c (by simp))
    rw [leadingBytes_cons, completeText_cons, ho]
    simpa using ⟨hld, hc⟩

theorem escapedSize_quotes (n : Nat) :
    inputOf (replicate n singleQuote) n = replicate n singleQuote ∧
    CompleteText (replicate n singleQuote) ∧
    escapedSize false (replicate n singleQuote) = 2 * n + 3 := by
  obtain ⟨hld, hcomplete⟩ := ascii_characters (replicate n singleQuote) fun c hc => by
    rw [eq_of_mem_replicate hc]
    decide
  refine ⟨?_, hcomplete, ?_⟩
  · rw [inputOf, take_of_length_le (by simp)]
    exact takeWhile_eq_self_iff.mpr fun c hc => by
      rw [eq_of_mem_replicate hc]
      decide
  have hb : (replicate n singleQuote).count backslash = 0 :=
    count_eq_zero.mpr fun hm => absurd (eq_of_mem_replicate hm) (by decide)
  rw [escapedSize, hld, quoteCharOf, if_neg (by simp), if_neg fun hu => ?_]
  · rw [count_replicate_self, length_replicate]
    omega
  have hp := hu.2
  rw [hld, hb] at hp
  omega

/-- The byte `C0` hides a quote that follows it, and the buffer for `2 ^ 31 - 1` quotes
is one byte. -/
theorem escaping_unsafe :
    pqEscapeStringInternal [0xc0, 0x27] 2 true = ([0xc0, 0x27], false) ∧
    readLiteral true [0x27, 0xc0, 0x27, 0x27] = none ∧
    ¬ EscapeStringSafe [0xc0, 0x27] 2 true ∧
    (pqEscapeInternal [0xc0, 0x27] 2 false).map EscapeResult.text = some [0x27, 0xc0, 0x27, 0x27] ∧
    ¬ EscapeSafe [0xc0, 0x27] 2 false true ∧
    ((scanOf false (List.replicate (2 ^ 31 - 1) singleQuote)).resultSize false).toNat = 1 ∧
    ¬ EscapeSafe (List.replicate (2 ^ 31 - 1) singleQuote) (2 ^ 31 - 1) false true := by
  obtain ⟨hi, hc, hs⟩ := escapedSize_quotes (2 ^ 31 - 1)
  have hr : (scanOf false (replicate (2 ^ 31 - 1) singleQuote)).resultSize false = 1#32 := by
    rw [resultSize_eq (by rw [length_replicate]; omega), hs]
    decide
  refine ⟨by decide, by decide, ?_, by decide, ?_, ?_, ?_⟩
  · rw [escapeStringSafe_iff]
    unfold NoSpecialInside
    decide
  · rw [escapeSafe_iff]
    unfold NoSpecialInside
    decide
  · rw [hr]
    decide
  rw [escapeSafe_iff, hi]
  intro hsf
  have hlt := (hsf hc (by rw [hr]; decide)).1
  omega

end AthenaPG
