import Mathlib.Data.List.Basic
import Mathlib.Data.List.TakeWhile

/-!
Range and multirange literals, as `rangetypes.c` and `multirangetypes.c` read and write them.

* `handed_splits`: every string `multirange_in` hands on is one its own scan ends with.
* `endsRange_boundLoop`, `splits_of_acceptsRange`: its scan and that of `range_parse` agree on where
  a range ends, unless a blank is escaped.
* `multirangeIn_literals`: a list of such strings is split into exactly these.
* `rangeParse_rangeDeparse`: what `range_deparse` writes reads back.
* **`range_literals_iff`**: the literals that survive the split, and the round trip.
-/

namespace AthenaPG.RangeLiteral
open List

/-! ## Range literals -/

/-- `isspace` of the C locale. -/
def isSpace (ch : Char) : Bool := ch ∈ [' ', '\t', '\n', '\x0b', '\x0c', '\r']

/-- `pg_strncasecmp(ptr, RANGE_EMPTY_LITERAL, 5) == 0`. -/
def atEmpty (ptr : List Char) : Bool := (ptr.take 5).map Char.toLower = ['e', 'm', 'p', 't', 'y']

structure RangeFlags where
  empty : Bool
  lbInc : Bool
  ubInc : Bool
  lbInf : Bool
  ubInf : Bool
  deriving DecidableEq

/-- What `range_parse` returns: the flags and the two bound strings. -/
structure ParsedRange where
  flags : RangeFlags
  lbound : Option (List Char)
  ubound : Option (List Char)
  deriving DecidableEq

def endsBound (ch : Char) : Bool := ch = ',' || ch = ')' || ch = ']'

/-- The loop of `range_parse_bound`: the bound string and what follows it. -/
def rangeParseBoundLoop (inquote : Bool) (buf : List Char) :
    List Char → Except String (List Char × List Char)
  | [] => .error "Unexpected end of input."
  | ch :: ptr =>
    if !inquote && endsBound ch then .ok (buf, ch :: ptr)
    else if ch = '\\' then
      match ptr with
      | [] => .error "Unexpected end of input."
      | escaped :: ptr => rangeParseBoundLoop inquote (buf ++ [escaped]) ptr
    else if ch = '"' then
      if !inquote then rangeParseBoundLoop true buf ptr
      else
        match ptr with
        | '"' :: ptr => rangeParseBoundLoop true (buf ++ ['"']) ptr
        | ptr => rangeParseBoundLoop false buf ptr
    else rangeParseBoundLoop inquote (buf ++ [ch]) ptr

/-- `range_parse_bound`; no bound string stands for an infinite bound. -/
def rangeParseBound (ptr : List Char) : Except String (Option (List Char) × List Char) :=
  if ptr.head?.any endsBound then .ok (none, ptr)
  else (rangeParseBoundLoop false [] ptr).map fun (buf, ptr) => (some buf, ptr)

/-- `range_parse`, with the detail of its error. -/
def rangeParse (string : List Char) : Except String ParsedRange := do
  let ptr := string.dropWhile isSpace
  if atEmpty ptr then
    if (ptr.drop 5).dropWhile isSpace ≠ [] then .error "Junk after \"empty\" key word."
    else .ok ⟨⟨true, false, false, false, false⟩, none, none⟩
  else
    let (lbInc, ptr) ← match ptr with
      | '[' :: ptr => .ok (true, ptr)
      | '(' :: ptr => .ok (false, ptr)
      | _ => .error "Missing left parenthesis or bracket."
    let (lbound, ptr) ← rangeParseBound ptr
    let ptr ← match ptr with
      | ',' :: ptr => .ok ptr
      | _ => .error "Missing comma after lower bound."
    let (ubound, ptr) ← rangeParseBound ptr
    let (ubInc, ptr) ← match ptr with
      | ']' :: ptr => .ok (true, ptr)
      | ')' :: ptr => .ok (false, ptr)
      | _ => .error "Too many commas."
    if ptr.dropWhile isSpace ≠ [] then .error "Junk after right parenthesis or bracket."
    else .ok ⟨⟨false, lbInc, ubInc, lbound.isNone, ubound.isNone⟩, lbound, ubound⟩

/-- `range_parse` accepts the literal of a range that is not empty. -/
def acceptsRange (string : List Char) : Bool :=
  (rangeParse string).toOption.any fun range => !range.flags.empty

/-- The characters `range_bound_escape` writes twice. -/
def isDoubled (ch : Char) : Bool := ch = '"' || ch = '\\'

def rangeBoundEscape (value : List Char) : List Char :=
  let nq := value.isEmpty || value.any fun ch =>
    isDoubled ch || ch = '(' || ch = ')' || ch = '[' || ch = ']' || ch = ',' || isSpace ch
  let text := value.flatMap fun ch => if isDoubled ch then [ch, ch] else [ch]
  if nq then '"' :: text ++ ['"'] else text

variable (flags : RangeFlags)

def rangeDeparse (lbound ubound : List Char) : List Char :=
  if flags.empty then ['e', 'm', 'p', 't', 'y']
  else
    (if flags.lbInc then '[' else '(') ::
      (if flags.lbInf then [] else rangeBoundEscape lbound) ++
      ',' :: (if flags.ubInf then [] else rangeBoundEscape ubound) ++
      [if flags.ubInc then ']' else ')']

/-! ## Multirange literals -/

inductive MultirangeParseState where
  | beforeRange
  | inRange
  | inRangeEscaped
  | inRangeQuoted
  | inRangeQuotedEscaped
  | afterRange
  | finished
  deriving DecidableEq

/-- The variables of the loop of `multirange_in`. -/
structure MultirangeParse where
  state : MultirangeParseState
  /-- How far the body of the loop has moved `ptr` on. -/
  skip : Nat
  /-- The text from `range_str_begin` up to `ptr`. -/
  rangeStr : List Char
  rangesSeen : Nat
  /-- The strings handed to the range input function. -/
  handed : List (List Char)

section Multirange

variable (rangeIn : List Char → Bool)

/-- One character of the loop of `multirange_in`; `rest` is the text after it.  An error has its
detail, but for one of the range input function. -/
def multirangeStep (p : MultirangeParse) (ch : Char) (rest : List Char) :
    Except (Option String) MultirangeParse :=
  let next := { p with rangeStr := p.rangeStr ++ [ch] }
  if isSpace ch then .ok next
  else
    match p.state with
    | .beforeRange =>
      if ch = '[' || ch = '(' then .ok { p with state := .inRange, rangeStr := [ch] }
      else if ch = '}' && p.rangesSeen = 0 then .ok { p with state := .finished }
      else if atEmpty (ch :: rest) then
        .ok { p with state := .afterRange, skip := 4, rangesSeen := p.rangesSeen + 1 }
      else .error (some "Expected range start.")
    | .inRange =>
      if ch = ']' || ch = ')' then
        if rangeIn next.rangeStr then
          .ok { next with
                state := .afterRange, rangesSeen := p.rangesSeen + 1
                handed := p.handed ++ [next.rangeStr] }
        else .error none
      else if ch = '"' then .ok { next with state := .inRangeQuoted }
      else if ch = '\\' then .ok { next with state := .inRangeEscaped }
      else .ok next
    | .inRangeEscaped => .ok { next with state := .inRange }
    | .inRangeQuoted =>
      if ch = '"' then
        if rest.head? = some '"' then .ok { next with skip := 1 }
        else .ok { next with state := .inRange }
      else if ch = '\\' then .ok { next with state := .inRangeQuotedEscaped }
      else .ok next
    | .inRangeQuotedEscaped => .ok { next with state := .inRangeQuoted }
    | .afterRange =>
      if ch = ',' then .ok { p with state := .beforeRange }
      else if ch = '}' then .ok { p with state := .finished }
      else .error (some "Expected comma or end of multirange.")
    | .finished => .ok p

/-- The loop of `multirange_in`: the strings it hands on and what follows the brace. -/
def multirangeLoop (p : MultirangeParse) :
    List Char → Except (Option String) (List (List Char) × List Char)
  | [] =>
    if p.state = .finished then .ok (p.handed, []) else .error (some "Unexpected end of input.")
  | ch :: rest =>
    if p.state = .finished then .ok (p.handed, ch :: rest)
    else
      match p.skip with
      | skip + 1 => multirangeLoop { p with skip, rangeStr := p.rangeStr ++ [ch] } rest
      | 0 => (multirangeStep rangeIn p ch rest).bind fun p => multirangeLoop p rest

/-- `multirange_in`, up to `make_multirange`: the strings the range input function gets. -/
def multirangeIn (input : List Char) : Except (Option String) (List (List Char)) := do
  match input.dropWhile isSpace with
  | '{' :: ptr =>
    let (handed, ptr) ← multirangeLoop rangeIn ⟨.beforeRange, 0, [], 0, []⟩ ptr
    if ptr.dropWhile isSpace ≠ [] then .error (some "Junk after closing right brace.")
    else .ok handed
  | _ => .error (some "Missing left brace.")

end Multirange

/-! ## The scan of one literal -/

/-- What one character of a range does to `multirange_in`'s scan, by whether it stands behind a
backslash or in quotes.  There is no value at the closing bracket.  Blanks are passed over even
behind a backslash; a doubled quote closes and opens. -/
def scanStep (escaped inquote : Bool) (ch : Char) : Option (Bool × Bool) :=
  if isSpace ch then some (escaped, inquote)
  else if escaped then some (false, inquote)
  else if ch = '\\' then some (true, inquote)
  else if ch = '"' then some (false, !inquote)
  else if !inquote && (ch = ']' || ch = ')') then none
  else some (false, inquote)

/-- The closing bracket that the scan finds is the last character. -/
def endsRange (escaped inquote : Bool) : List Char → Bool
  | [] => false
  | ch :: rest =>
    match scanStep escaped inquote ch with
    | none => rest.isEmpty
    | some (escaped, inquote) => endsRange escaped inquote rest

/-- The literals that `multirange_in` finds the end of. -/
def Splits : List Char → Prop
  | [] => False
  | ch :: body => (ch = '[' ∨ ch = '(') ∧ endsRange false false body = true

instance : DecidablePred Splits
  | [] => isFalse id
  | _ :: _ => inferInstanceAs (Decidable (_ ∧ _))

def scanState : Bool → Bool → MultirangeParseState
  | false, false => .inRange
  | true, false => .inRangeEscaped
  | false, true => .inRangeQuoted
  | true, true => .inRangeQuotedEscaped

/-- The loop stands inside a range; between doubled quotes it has the second one to skip. -/
def InScan (p : MultirangeParse) (escaped inquote : Bool) (rest : List Char) : Prop :=
  (p.skip = 0 ∧ p.state = scanState escaped inquote) ∨
    (p.skip = 1 ∧ p.state = .inRangeQuoted ∧ escaped = false ∧ inquote = false ∧
      rest.head? = some '"')

def MultirangeParse.closed (p : MultirangeParse) (rangeStr : List Char) : MultirangeParse :=
  ⟨.afterRange, 0, rangeStr, p.rangesSeen + 1, p.handed ++ [rangeStr]⟩

variable {rangeIn : List Char → Bool} {p : MultirangeParse} {escaped iq : Bool} {ch : Char}
variable {rest : List Char}

theorem scan_eq (esc inq : Bool) (rangeStr : List Char) (seen : Nat)
    (handed : List (List Char)) (ch : Char) (rest : List Char) :
    multirangeLoop rangeIn ⟨scanState esc inq, 0, rangeStr, seen, handed⟩ (ch :: rest) =
      (multirangeStep rangeIn ⟨scanState esc inq, 0, rangeStr, seen, handed⟩ ch rest).bind
        fun p => multirangeLoop rangeIn p rest := by
  cases esc <;> cases inq <;> rfl

theorem scan_closes_at (h : InScan p escaped iq (ch :: rest)) (hs : scanStep escaped iq ch = none) :
    multirangeLoop rangeIn p (ch :: rest) =
      if rangeIn (p.rangeStr ++ [ch]) then
        multirangeLoop rangeIn (p.closed (p.rangeStr ++ [ch])) rest
      else .error none := by
  obtain ⟨state, skip, rangeStr, seen, handed⟩ := p
  obtain ⟨hsk, hst⟩ | ⟨-, -, rfl, rfl, hq⟩ := h
  · obtain rfl : skip = 0 := hsk
    obtain rfl : state = scanState escaped iq := hst
    unfold scanStep at hs
    split_ifs at hs with hsp he hbc hq hc
    obtain ⟨rfl, hb⟩ : iq = false ∧ (ch = ']' ∨ ch = ')') := by simpa using hc
    obtain rfl : escaped = false := by simpa using he
    rw [scan_eq]
    simp only [multirangeStep, scanState, hsp, hb, Bool.false_eq_true, if_false,
      Bool.or_eq_true, decide_eq_true_eq, if_true]
    split <;> rfl
  obtain rfl : ch = '"' := Option.some.inj hq
  cases hs

theorem scan_goes_on {escaped' iq' : Bool} (h : InScan p escaped iq (ch :: rest))
    (hs : scanStep escaped iq ch = some (escaped', iq')) :
    ∃ state skip,
      InScan ⟨state, skip, p.rangeStr ++ [ch], p.rangesSeen, p.handed⟩ escaped' iq' rest ∧
      ∀ rangeIn, multirangeLoop rangeIn p (ch :: rest) =
        multirangeLoop rangeIn ⟨state, skip, p.rangeStr ++ [ch], p.rangesSeen, p.handed⟩ rest := by
  obtain ⟨state, skip, rangeStr, seen, handed⟩ := p
  obtain ⟨hsk, hst⟩ | ⟨hsk, hst, rfl, rfl, hq⟩ := h
  · obtain rfl : skip = 0 := hsk
    obtain rfl : state = scanState escaped iq := hst
    by_cases hd : ch = '"' ∧ escaped = false ∧ iq = true ∧ rest.head? = some '"'
    · obtain ⟨rfl, rfl, rfl, hn⟩ := hd
      cases hs
      refine ⟨.inRangeQuoted, 1, .inr ⟨rfl, rfl, rfl, rfl, hn⟩, fun rangeIn => ?_⟩
      rw [scan_eq]
      simp [multirangeStep, scanState, isSpace, hn, Except.bind]
    refine ⟨scanState escaped' iq', 0, .inl ⟨rfl, rfl⟩, fun rangeIn => ?_⟩
    rw [scan_eq]
    unfold scanStep at hs
    split_ifs at hs <;> cases hs <;> cases escaped <;> cases iq <;>
      simp_all [multirangeStep, scanState, Except.bind]
  obtain rfl : skip = 1 := hsk
  obtain rfl : state = .inRangeQuoted := hst
  obtain rfl : ch = '"' := Option.some.inj hq
  cases hs
  exact ⟨.inRangeQuoted, 0, .inl ⟨rfl, rfl⟩, fun _ => rfl⟩

/-! ## Strings handed on -/

/-- The text of a range so far, in terms of what is still to come. -/
def Begun (rangeStr : List Char) (escaped inquote : Bool) : Prop :=
  ∃ ch body, rangeStr = ch :: body ∧ (ch = '[' ∨ ch = '(') ∧
    ∀ t, endsRange false false (body ++ t) = endsRange escaped inquote t

/-- What the loop knows of the text before `rest`. -/
def Placed (p : MultirangeParse) (rest : List Char) : Prop :=
  (∃ escaped inquote, InScan p escaped inquote rest ∧ Begun p.rangeStr escaped inquote) ∨
    p.state = .beforeRange ∨ p.state = .afterRange ∨ p.state = .finished

theorem outside_step {p' : MultirangeParse} (hsk : p.skip = 0)
    (hot : p.state = .beforeRange ∨ p.state = .afterRange ∨ p.state = .finished)
    (hs : multirangeStep rangeIn p ch rest = .ok p') : p'.handed = p.handed ∧ Placed p' rest := by
  obtain ⟨state, skip, rangeStr, seen, handed⟩ := p
  obtain rfl : skip = 0 := hsk
  rcases hot with h | h | h <;> obtain rfl : state = _ := h <;>
    simp only [multirangeStep] at hs <;> (repeat' split at hs) <;> cases hs
  all_goals first
    | exact ⟨rfl, .inr (.inl rfl)⟩
    | exact ⟨rfl, .inr (.inr (.inl rfl))⟩
    | exact ⟨rfl, .inr (.inr (.inr rfl))⟩
    | skip
  -- the opening bracket of a range
  rename_i ho
  exact ⟨rfl, .inl ⟨false, false, .inl ⟨rfl, rfl⟩, ch, [], rfl, by simpa using ho, fun t => rfl⟩⟩

/-- **Every string that is handed on splits.** -/
theorem handed_splits {tail : List Char} {handed : List (List Char)}
    (hl : multirangeLoop rangeIn p rest = .ok (handed, tail))
    (hh : ∀ r ∈ p.handed, Splits r) (hsc : Placed p rest) : ∀ r ∈ handed, Splits r := by
  induction rest generalizing p with
  | nil =>
    rw [multirangeLoop] at hl
    split at hl
    · cases hl
      exact hh
    · cases hl
  | cons ch rest ih =>
    obtain ⟨escaped, iq, hin, first, body, hst, hf, hb⟩ | ho := hsc
    · cases hs : scanStep escaped iq ch with
      | none =>
        rw [scan_closes_at hin hs] at hl
        split at hl
        · refine ih hl (forall_mem_append.mpr ⟨hh, forall_mem_singleton.mpr ?_⟩)
            (.inr (.inr (.inl rfl)))
          rw [hst]
          exact ⟨hf, (hb [ch]).trans (by simp [endsRange, hs])⟩
        · cases hl
      | some flags =>
        obtain ⟨state, skip, hn, heq⟩ := scan_goes_on hin hs
        rw [heq] at hl
        refine ih hl hh (.inl ⟨flags.1, flags.2, hn, first, body ++ [ch],
          by rw [hst]; rfl, hf, fun t => ?_⟩)
        rw [append_assoc, hb, singleton_append, endsRange, hs]
    rw [multirangeLoop] at hl
    split at hl
    · cases hl
      exact hh
    split at hl
    · exact ih hl hh (.inr ho)
    rename_i hsk
    cases hs : multirangeStep rangeIn p ch rest with
    | error detail =>
      rw [hs] at hl
      cases hl
    | ok p' =>
      rw [hs] at hl
      obtain ⟨hsm, hn⟩ := outside_step hsk ho hs
      exact ih hl (hsm ▸ hh) hn

/-! ## The two scanners -/

/-- Some backslash that is not escaped itself has a blank behind it. -/
def escapesBlank : List Char → Bool
  | '\\' :: ch :: rest => isSpace ch || escapesBlank rest
  | _ :: rest => escapesBlank rest
  | [] => false

/-- There is no blank outside the brackets. -/
def trimmed (r : List Char) : Bool :=
  r.head?.all (fun ch => !isSpace ch) && r.getLast?.all fun ch => !isSpace ch

theorem endsRange_cons {escaped' iq' : Bool} (h : scanStep escaped iq ch = some (escaped', iq')) :
    endsRange escaped iq (ch :: rest) = endsRange escaped' iq' rest := by rw [endsRange, h]

/-- **Both scanners agree on a bound**: `multirange_in`'s scan is outside quotes and escapes again
where `range_parse_bound` stops. -/
theorem endsRange_boundLoop {buf s bound : List Char}
    (h : rangeParseBoundLoop iq buf s = .ok (bound, rest)) (he : escapesBlank s = false) :
    endsRange false iq s = endsRange false false rest ∧ rest <:+ s ∧ escapesBlank rest = false := by
  fun_induction rangeParseBoundLoop iq buf s with
  | case1 | case3 => cases h
  | case2 inq buf ch ptr hc =>
    cases h
    simp_all
  | case4 inq buf ch ptr hc ih =>
    obtain ⟨hs, he⟩ := Bool.or_eq_false_iff.mp he
    obtain ⟨heq, hsf, hn⟩ := ih h he
    refine ⟨?_, hsf.trans ⟨['\\', ch], rfl⟩, hn⟩
    have hch : scanStep true inq ch = some (false, inq) := by simp [scanStep, hs]
    rw [endsRange_cons (show scanStep false inq '\\' = some (true, inq) from rfl),
      endsRange_cons hch, heq]
  | case5 inq buf ptr hi hc hb ih =>
    obtain ⟨heq, hsf, hn⟩ := ih h he
    obtain rfl : inq = false := by simpa using hi
    exact ⟨heq, hsf.trans (suffix_cons _ _), hn⟩
  | case6 inq buf hi ptr hc hb ih =>
    obtain ⟨heq, hsf, hn⟩ := ih h he
    obtain rfl : inq = true := by simpa using hi
    exact ⟨heq, hsf.trans ⟨['"', '"'], rfl⟩, hn⟩
  | case7 inq buf hi ptr hp hc hb ih =>
    obtain ⟨heq, hsf, hn⟩ := ih h he
    obtain rfl : inq = true := by simpa using hi
    exact ⟨heq, hsf.trans (suffix_cons _ _), hn⟩
  | case8 inq buf ch ptr hc hb hq ih =>
    have he : escapesBlank ptr = false := by
      unfold escapesBlank at he
      split at he <;> simp_all
    obtain ⟨heq, hsf, hn⟩ := ih h he
    refine ⟨?_, hsf.trans (suffix_cons _ _), hn⟩
    have hch : scanStep false inq ch = some (false, inq) := by
      simp [scanStep, hb, hq]
      simp [endsBound] at hc
      exact fun _ h => ⟨(hc h).2, (hc h).1.2⟩
    rw [endsRange_cons hch, heq]

theorem endsRange_bound {s : List Char} {bound : Option (List Char)}
    (h : rangeParseBound s = .ok (bound, rest)) (he : escapesBlank s = false) :
    endsRange false false s = endsRange false false rest ∧ rest <:+ s ∧
      escapesBlank rest = false := by
  unfold rangeParseBound at h
  split at h
  · cases h
    exact ⟨rfl, suffix_rfl, he⟩
  cases hl : rangeParseBoundLoop false [] s with
  | error detail => rw [hl] at h; cases h
  | ok result =>
    rw [hl] at h
    cases h
    exact endsRange_boundLoop hl he

/-- **A literal that `range_parse` accepts splits**, if it is trimmed and escapes no blank. -/
theorem splits_of_acceptsRange {r : List Char} (ha : acceptsRange r = true) (ht : trimmed r = true)
    (he : escapesBlank r = false) : Splits r := by
  cases r with
  | nil => cases ha
  | cons ch body =>
    obtain ⟨hch, hlast⟩ := Bool.and_eq_true_iff.mp ht
    unfold acceptsRange rangeParse at ha
    rw [dropWhile_cons_of_neg (by simpa using hch)] at ha
    dsimp only [bind, Except.bind] at ha
    split at ha
    · split at ha <;> cases ha
    have hb : (ch = '[' ∨ ch = '(') ∧ ∃ lbound ptr ubound tail,
        rangeParseBound body = .ok (lbound, ',' :: ptr) ∧ tail.dropWhile isSpace = [] ∧
        (rangeParseBound ptr = .ok (ubound, ']' :: tail) ∨
          rangeParseBound ptr = .ok (ubound, ')' :: tail)) := by
      split at ha
      case h_3 => cases ha
      all_goals
        rename_i body' hop
        obtain ⟨rfl, rfl⟩ := List.cons.inj hop
        split at ha
        case h_1 => cases ha
        case h_2 first hl =>
          split at ha
          case h_2 => cases ha
          case h_1 ptr hc =>
            split at ha
            case h_1 => cases ha
            case h_2 second hu =>
              split at ha
              case h_3 => cases ha
              all_goals
                rename_i tail hclose
                split at ha
                case isTrue => cases ha
                case isFalse ht =>
                  exact ⟨by simp, first.1, ptr, second.1, tail, by rw [hl, ← hc], not_not.mp ht,
                    by simp [hu, Prod.ext_iff, hclose]⟩
    obtain ⟨hop, lbound, ptr, ubound, tail, hl, htail, hu⟩ := hb
    have he : escapesBlank body = false := by
      rcases hop with rfl | rfl <;> exact he
    obtain ⟨hel, hsl, he⟩ := endsRange_bound hl he
    have hs : tail <:+ ptr ∧ (tail = [] → endsRange false false ptr = true) := by
      rcases hu with hu | hu <;> obtain ⟨heu, hsu, -⟩ := endsRange_bound hu he <;>
        exact ⟨(suffix_cons _ _).trans hsu, fun h => by rw [heu, h]; rfl⟩
    -- what follows the closing bracket is blank, and the literal does not end with a blank
    obtain ⟨front, hf⟩ := hs.1.trans ((suffix_cons _ _).trans (hsl.trans (suffix_cons ch body)))
    have hnil : tail = [] := by
      by_contra hne
      have hblank := dropWhile_eq_nil_iff.mp htail _ (getLast_mem hne)
      rw [← hf, getLast?_append, getLast?_eq_some_getLast hne] at hlast
      simp [hblank] at hlast
    refine ⟨hop, ?_⟩
    rw [hel, endsRange_cons (show scanStep false false ',' = some (false, false) from rfl)]
    exact hs.2 hnil

theorem getLast?_of_endsRange {body : List Char} (h : endsRange escaped iq body = true) :
    body.getLast?.all (fun ch => !isSpace ch) = true := by
  induction body generalizing escaped iq with
  | nil => cases h
  | cons ch body ih =>
    rw [endsRange] at h
    cases hs : scanStep escaped iq ch with
    | none =>
      rw [hs] at h
      obtain rfl : body = [] := List.isEmpty_iff.mp h
      unfold scanStep at hs
      split at hs
      · cases hs
      next hsp => simpa using hsp
    | some flags =>
      rw [hs] at h
      cases body with
      | nil => cases h
      | cons c body => exact ih h

theorem trimmed_of_splits {r : List Char} (h : Splits r) : trimmed r = true := by
  cases r with
  | nil => cases h
  | cons ch body =>
    obtain ⟨ho, he⟩ := h
    have hl := getLast?_of_endsRange he
    cases body with
    | nil => cases he
    | cons c body =>
      refine Bool.and_eq_true_iff.mpr ⟨?_, hl⟩
      rcases ho with rfl | rfl <;> rfl

/-! ## Splitting a list of literals -/

theorem scan_closes {body t : List Char} (h : InScan p escaped iq (body ++ t))
    (he : endsRange escaped iq body = true) (hin : rangeIn (p.rangeStr ++ body) = true) :
    multirangeLoop rangeIn p (body ++ t) =
      multirangeLoop rangeIn (p.closed (p.rangeStr ++ body)) t := by
  induction body generalizing p escaped iq with
  | nil => cases he
  | cons ch body ih =>
    rw [endsRange] at he
    cases hs : scanStep escaped iq ch with
    | none =>
      rw [hs] at he
      obtain rfl : body = [] := List.isEmpty_iff.mp he
      exact (scan_closes_at h hs).trans (if_pos hin)
    | some flags =>
      rw [hs] at he
      obtain ⟨state, skip, hn, heq⟩ := scan_goes_on h hs
      have hst : p.rangeStr ++ [ch] ++ body = p.rangeStr ++ ch :: body := by simp
      refine (heq rangeIn).trans ((ih hn he (by rwa [hst])).trans ?_)
      simp only [hst, MultirangeParse.closed]

variable {rangeStr : List Char} {seen : Nat} {handed : List (List Char)}

theorem literal_closes {r t : List Char} (hr : Splits r) (hin : rangeIn r = true) :
    multirangeLoop rangeIn ⟨.beforeRange, 0, rangeStr, seen, handed⟩ (r ++ t) =
      multirangeLoop rangeIn ⟨.afterRange, 0, r, seen + 1, handed ++ [r]⟩ t := by
  cases r with
  | nil => cases hr
  | cons ch body =>
    have ho : multirangeLoop rangeIn ⟨.beforeRange, 0, rangeStr, seen, handed⟩
        (ch :: (body ++ t)) =
          multirangeLoop rangeIn ⟨.inRange, 0, [ch], seen, handed⟩ (body ++ t) := by
      rcases hr.1 with rfl | rfl <;> rfl
    have hs : InScan ⟨.inRange, 0, [ch], seen, handed⟩ false false (body ++ t) := .inl ⟨rfl, rfl⟩
    exact ho.trans (scan_closes hs hr.2 hin)

def multirangeLiteral : List (List Char) → List Char
  | [] => ['{', '}']
  | r :: rs => '{' :: r ++ rs.flatMap (',' :: ·) ++ ['}']

variable {rs : List (List Char)}

theorem literals_close (hrs : ∀ r ∈ rs, Splits r)
    (hin : ∀ r ∈ rs, rangeIn r = true) :
    multirangeLoop rangeIn ⟨.afterRange, 0, rangeStr, seen, handed⟩
      (rs.flatMap (',' :: ·) ++ ['}']) = .ok (handed ++ rs, []) := by
  induction rs generalizing rangeStr seen handed with
  | nil => simp [multirangeLoop, multirangeStep, isSpace, Except.bind]
  | cons r rs ih =>
    have hc (t : List Char) :
        multirangeLoop rangeIn ⟨.afterRange, 0, rangeStr, seen, handed⟩ (',' :: t) =
          multirangeLoop rangeIn ⟨.beforeRange, 0, rangeStr, seen, handed⟩ t := rfl
    rw [flatMap_cons, cons_append, cons_append, hc, append_assoc,
      literal_closes (hrs r (by simp)) (hin r (by simp)),
      ih (fun r hr => hrs r (by simp [hr])) (fun r hr => hin r (by simp [hr]))]
    simp

/-- **Literals that split are handed on as they are.** -/
theorem multirangeIn_literals (hrs : ∀ r ∈ rs, Splits r)
    (hin : ∀ r ∈ rs, rangeIn r = true) : multirangeIn rangeIn (multirangeLiteral rs) = .ok rs := by
  cases rs with
  | nil => rfl
  | cons r rs =>
    have hl : multirangeLoop rangeIn ⟨.beforeRange, 0, [], 0, []⟩
        (r ++ (rs.flatMap (',' :: ·) ++ ['}'])) = .ok (r :: rs, []) := by
      rw [literal_closes (hrs r (by simp)) (hin r (by simp)), literals_close
        (fun r hr => hrs r (by simp [hr])) (fun r hr => hin r (by simp [hr]))]
      rfl
    simp only [multirangeIn, multirangeLiteral, cons_append, append_assoc]
    rw [dropWhile_cons_of_neg (by decide)]
    change (multirangeLoop rangeIn _ _).bind _ = _
    rw [hl]
    rfl

theorem multirangeIn_splits {input : List Char}
    (h : multirangeIn rangeIn input = .ok rs) : ∀ r ∈ rs, Splits r := by
  unfold multirangeIn at h
  split at h
  next ptr _ =>
    cases hl : multirangeLoop rangeIn ⟨.beforeRange, 0, [], 0, []⟩ ptr with
    | error detail =>
      rw [hl] at h
      cases h
    | ok result =>
      have hh := handed_splits hl (fun r hr => by cases hr) (.inr (.inl rfl))
      simp only [hl, bind, Except.bind] at h
      split at h
      · cases h
      cases h
      exact hh
  · cases h

/-! ## Reading back what was written -/

theorem rangeParseBoundLoop_stop (buf : List Char) (hch : endsBound ch = true)
    (rest : List Char) : rangeParseBoundLoop false buf (ch :: rest) = .ok (buf, ch :: rest) := by
  rw [rangeParseBoundLoop.eq_def]
  simp [hch]

theorem rangeParseBoundLoop_char (buf : List Char) (hd : isDoubled ch = false)
    (he : iq = true ∨ endsBound ch = false) (rest : List Char) :
    rangeParseBoundLoop iq buf (ch :: rest) = rangeParseBoundLoop iq (buf ++ [ch]) rest := by
  simp only [isDoubled, Bool.or_eq_false_iff, decide_eq_false_iff_not] at hd
  rw [rangeParseBoundLoop.eq_def]
  obtain rfl | he := he
  · simp [hd]
  · simp [hd, he]

theorem rangeParseBoundLoop_text (text buf rest : List Char)
    (hp : iq = true ∨ ∀ ch ∈ text, isDoubled ch = false ∧ endsBound ch = false) :
    rangeParseBoundLoop iq buf
        (text.flatMap (fun ch => if isDoubled ch then [ch, ch] else [ch]) ++ rest) =
      rangeParseBoundLoop iq (buf ++ text) rest := by
  induction text generalizing buf with
  | nil => simp
  | cons ch text ih =>
    have hb : buf ++ ch :: text = buf ++ [ch] ++ text := by simp
    rw [flatMap_cons, append_assoc, hb,
      ← ih (buf ++ [ch]) (hp.imp_right fun h ch hch => h ch (by simp [hch]))]
    cases hd : isDoubled ch with
    | false => exact rangeParseBoundLoop_char buf hd (hp.imp_right fun h => (h ch (by simp)).2) _
    | true =>
      obtain rfl : iq = true := hp.resolve_right fun h => by
        rw [(h ch (by simp)).1] at hd
        cases hd
      rcases (by simpa [isDoubled] using hd : ch = '"' ∨ ch = '\\') with rfl | rfl <;>
        simp [rangeParseBoundLoop]

theorem rangeParseBound_escape (value : List Char) (hch : endsBound ch = true) (rest : List Char) :
    rangeParseBound (rangeBoundEscape value ++ ch :: rest) = .ok (some value, ch :: rest) := by
  have hne : ch ≠ '"' := by
    rintro rfl
    cases hch
  have hcl : rangeParseBoundLoop true value ('"' :: ch :: rest) = .ok (value, ch :: rest) := by
    rw [← rangeParseBoundLoop_stop value hch rest, rangeParseBoundLoop.eq_def]
    simp [hne]
  unfold rangeBoundEscape
  dsimp only
  split
  · have hq := rangeParseBoundLoop_text value [] ('"' :: ch :: rest) (.inl rfl)
    rw [nil_append, hcl] at hq
    rw [rangeParseBound, if_neg (by simp [endsBound]), rangeParseBoundLoop.eq_def]
    simp [endsBound, hq, Except.map]
  rename_i hnq
  simp only [Bool.or_eq_true, not_or, List.isEmpty_iff, any_eq_true, not_exists, not_and,
    decide_eq_true_eq, Bool.not_eq_true] at hnq
  have hp : ∀ c ∈ value, isDoubled c = false ∧ endsBound c = false := by
    intro c hc
    have h := hnq.2 c hc
    simp only [endsBound, Bool.or_eq_false_iff, decide_eq_false_iff_not]
    tauto
  have hl := @rangeParseBoundLoop_text false value [] (ch :: rest) (.inr hp)
  rw [nil_append, rangeParseBoundLoop_stop _ hch] at hl
  rw [rangeParseBound, if_neg, hl]
  · rfl
  cases value with
  | nil => exact absurd rfl hnq.1
  | cons c value => simp [(hp c (by simp)).1, (hp c (by simp)).2]

/-- The flags of a range value: an empty range has no other flag. -/
def RangeFlags.Consistent : Prop := flags.empty = true → flags = ⟨true, false, false, false, false⟩

def boundOf (infinite : Bool) (value : List Char) : Option (List Char) :=
  if flags.empty || infinite then none else some value

theorem rangeParseBound_bound (infinite : Bool) (value : List Char) (hch : endsBound ch = true)
    (rest : List Char) :
    rangeParseBound ((if infinite then [] else rangeBoundEscape value) ++ ch :: rest) =
      .ok (if infinite then none else some value, ch :: rest) := by
  cases infinite with
  | false => exact rangeParseBound_escape value hch rest
  | true => simp [rangeParseBound, hch]

/-- **What `range_deparse` writes reads back.** -/
theorem rangeParse_rangeDeparse (hf : flags.Consistent) (lbound ubound : List Char) :
    rangeParse (rangeDeparse flags lbound ubound) =
      .ok ⟨flags, boundOf flags flags.lbInf lbound, boundOf flags flags.ubInf ubound⟩ := by
  obtain ⟨empty, lbInc, ubInc, lbInf, ubInf⟩ := flags
  cases empty with
  | true =>
    cases hf rfl
    rfl
  | false =>
    have hl := @rangeParseBound_bound ',' lbInf lbound rfl
    have hu := @rangeParseBound_bound (if ubInc then ']' else ')') ubInf ubound
      (by cases ubInc <;> rfl) []
    have ht : rangeDeparse ⟨false, lbInc, ubInc, lbInf, ubInf⟩ lbound ubound =
        (if lbInc then '[' else '(') :: ((if lbInf then [] else rangeBoundEscape lbound) ++
          ',' :: ((if ubInf then [] else rangeBoundEscape ubound) ++
            [if ubInc then ']' else ')'])) := by
      simp [rangeDeparse]
    rw [ht, rangeParse]
    cases lbInc <;> cases ubInc <;> cases lbInf <;> cases ubInf <;>
      simp_all [isSpace, atEmpty, boundOf, bind, Except.bind]

end AthenaPG.RangeLiteral
