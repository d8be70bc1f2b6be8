import Mathlib.Tactic

/-!
Decompression of PGLZ data (`src/common/pg_lzcompress.c`, `pglz_decompress`).

A compressed string is a sequence of groups of up to eight items, each group with a
control byte in front.  An item is a literal byte, or a tag: a length and an offset
back into the output.

* `LzCovers`: the items of a text, each tag copying bytes that the text repeats;
* `copyMatch_agrees`: the copy that doubles its offset produces such a repetition;
* `decompressGroups_begin`: what stands at the beginning of the source is decoded item by item;
* `pglzDecompress_groups`: decompression of the groups of a text gives the text;
* `decompressGroups_within`: what it does to memory with any source;
* **`pglzDecompress_safe_iff`**: the sources with which it only does what it should.
-/

namespace AthenaPG
open List
open BitVec (eq_of_getLsbD_eq getLsbD_or ofNat toNat_ofNat)

/-- `unsigned char`. -/
abbrev PgByte := BitVec 8

abbrev PgBuffer := Nat → PgByte

/-! ## Items -/

inductive LzItem
  | literal (byte : PgByte)
  | tag (len off : Nat)

open LzItem

namespace LzItem

def span : LzItem → Nat
  | .literal _ => 1
  | .tag len _ => len

def isTag : LzItem → Bool
  | .literal _ => false
  | .tag _ _ => true

/-- The bytes of the item, as `pglz_out_literal` and `pglz_out_tag` write them. -/
def bytes : LzItem → List PgByte
  | .literal byte => [byte]
  | .tag len off =>
    if len > 17 then
      [ofNat 8 (((off &&& 0xf00) >>> 4) ||| 0x0f), ofNat 8 (off &&& 0xff),
        ofNat 8 (len - 18)]
    else
      [ofNat 8 (((off &&& 0xf00) >>> 4) ||| (len - 3)), ofNat 8 (off &&& 0xff)]

/-- The item stands for the bytes of the text `t` from position `dp` on. -/
def Fits (t : PgBuffer) (dp : Nat) : LzItem → Prop
  | .literal byte => byte = t dp
  | .tag len off => 3 ≤ len ∧ len ≤ 273 ∧ 1 ≤ off ∧ off < 0xfff ∧ off ≤ dp ∧
      ∀ i < len, t (dp + i) = t (dp + i - off)

/-- Decompression accepts the item after `dp` bytes of output. -/
def Accepted (dp : Nat) : LzItem → Prop
  | .literal _ => True
  | .tag len off => 3 ≤ len ∧ len ≤ 273 ∧ 1 ≤ off ∧ off < 4096 ∧ off ≤ dp

theorem Accepted.span_pos {dp : Nat} {item : LzItem} (h : item.Accepted dp) : 0 < item.span := by
  cases item with
  | literal byte => exact one_pos
  | tag len off => exact lt_of_lt_of_le (by decide) h.1

theorem Fits.accepted {t : PgBuffer} {dp : Nat} {item : LzItem} (h : item.Fits t dp) :
    item.Accepted dp := by
  cases item with
  | literal byte => trivial
  | tag len off =>
    obtain ⟨h3, hl, ho1, ho, hd, -⟩ := h
    exact ⟨h3, hl, ho1, by omega, hd⟩

theorem bytes_ne_nil (item : LzItem) : 0 < item.bytes.length := by
  cases item with
  | literal byte => exact one_pos
  | tag len off =>
    rw [bytes]
    split <;> simp

end LzItem

/-- The items stand for the bytes of the text between two positions. -/
def LzCovers (t : PgBuffer) : Nat → List LzItem → Nat → Prop
  | dp, [], dend => dp = dend
  | dp, item :: items, dend => item.Fits t dp ∧ LzCovers t (dp + item.span) items dend

theorem lzCovers_append {t : PgBuffer} {dp dend : Nat} {a b : List LzItem} :
    LzCovers t dp (a ++ b) dend ↔ ∃ mid, LzCovers t dp a mid ∧ LzCovers t mid b dend := by
  induction a generalizing dp with
  | nil => simp [LzCovers]
  | cons item a ih =>
    simp only [cons_append, LzCovers, ih]
    constructor
    · rintro ⟨hf, mid, ha, hb⟩
      exact ⟨mid, ⟨hf, ha⟩, hb⟩
    · rintro ⟨mid, ⟨hf, ha⟩, hb⟩
      exact ⟨hf, mid, ha, hb⟩

/-- The bytes that items stand for. -/
def spans (items : List LzItem) : Nat := (items.map LzItem.span).sum

@[simp] theorem spans_cons (item : LzItem) (items : List LzItem) :
    spans (item :: items) = item.span + spans items := by
  simp [spans]

@[simp] theorem spans_append (a b : List LzItem) : spans (a ++ b) = spans a + spans b := by
  simp [spans]

def AcceptedFrom : Nat → List LzItem → Prop
  | _, [] => True
  | dp, item :: items => item.Accepted dp ∧ AcceptedFrom (dp + item.span) items

theorem acceptedFrom_append {dp : Nat} {a b : List LzItem} :
    AcceptedFrom dp (a ++ b) ↔ AcceptedFrom dp a ∧ AcceptedFrom (dp + spans a) b := by
  induction a generalizing dp with
  | nil => simp [AcceptedFrom, spans]
  | cons item a ih =>
    rw [cons_append, AcceptedFrom, ih, AcceptedFrom, and_assoc, spans_cons, add_assoc]

theorem LzCovers.accepted {t : PgBuffer} {dp dend : Nat} {items : List LzItem}
    (h : LzCovers t dp items dend) : AcceptedFrom dp items ∧ dp + spans items = dend := by
  induction items generalizing dp with
  | nil => exact ⟨trivial, h⟩
  | cons item items ih =>
    obtain ⟨ha, hd⟩ := ih h.2
    exact ⟨⟨h.1.accepted, ha⟩, by rw [spans_cons, ← add_assoc, hd]⟩

/-! ## Groups -/

/-- The control byte of a group: bit `i` is set if item `i` is a tag. -/
def controlByte : List LzItem → PgByte
  | [] => 0
  | item :: items => (controlByte items <<< 1) ||| (if item.isTag then 1 else 0)

variable (items : List LzItem)

theorem getLsbD_controlByte (i : Nat) :
    (controlByte items).getLsbD i = (decide (i < 8) && (items[i]?.any isTag)) := by
  induction items generalizing i with
  | nil => simp [controlByte]
  | cons item items ih =>
    rw [controlByte, getLsbD_or, BitVec.getLsbD_shiftLeft, ih]
    cases i with
    | zero => cases h : item.isTag <;> simp [h]
    | succ i =>
      have hb : (if item.isTag = true then (1 : PgByte) else 0).getLsbD (i + 1) = false := by
        split <;> simp
      rw [hb]
      by_cases hi : i + 1 < 8
      · have hi' : i < 8 := by omega
        simp [hi, hi']
      simp [hi]

theorem controlByte_append (item : LzItem) :
    controlByte (items ++ [item]) =
      controlByte items ||| (if item.isTag then (1 : PgByte) <<< items.length else 0) := by
  refine eq_of_getLsbD_eq fun i hi => ?_
  rw [getLsbD_or, getLsbD_controlByte, getLsbD_controlByte, decide_eq_true hi,
    Bool.true_and, Bool.true_and]
  have hb : (if item.isTag = true then (1 : PgByte) <<< items.length else 0).getLsbD i =
      (item.isTag && decide (i = items.length)) := by
    cases item.isTag with
    | false => simp
    | true =>
      rw [if_pos rfl, Bool.true_and]
      simp only [BitVec.ofNat_eq_ofNat, BitVec.getLsbD_shiftLeft, BitVec.getLsbD_one, hi,
        decide_true, Bool.true_and]
      by_cases heq : i = items.length
      · simp [heq]
      by_cases hlt : i < items.length
      · simp [hlt, heq]
      have : i - items.length ≠ 0 := by omega
      simp [heq, this]
  rw [hb]
  obtain hlt | rfl | hgt := lt_trichotomy i items.length
  · rw [getElem?_append_left hlt, decide_eq_false (by omega), Bool.and_false, Bool.or_false]
  · simp
  have hn : items[i]? = none := getElem?_eq_none (by omega)
  have hn' : (items ++ [item])[i]? = none := getElem?_eq_none (by simp; omega)
  simp [hn, hn']
  omega

/-- The bits of a control byte say which items are tags. -/
def Flagged (ctrl : PgByte) (items : List LzItem) : Prop :=
  ∀ i item, items[i]? = some item → ctrl.getLsbD i = item.isTag

theorem flagged_controlByte {items : List LzItem} (h : items.length ≤ 8) :
    Flagged (controlByte items) items := by
  intro i item hi
  have hlt := (List.getElem?_eq_some_iff.mp hi).1
  rw [getLsbD_controlByte, hi, decide_eq_true (hlt.trans_le h), Bool.true_and]
  rfl

theorem Flagged.eq_controlByte {ctrl : PgByte} {items : List LzItem} (h : Flagged ctrl items)
    (h8 : items.length = 8) : ctrl = controlByte items := by
  refine eq_of_getLsbD_eq fun i hi => ?_
  rw [getLsbD_controlByte, h i _ (getElem?_eq_getElem (h8 ▸ hi)), getElem?_eq_getElem (h8 ▸ hi)]
  simp [hi]

theorem bit_iff : ∀ ctrl : PgByte, ctrl &&& 1 ≠ 0 ↔ ctrl.getLsbD 0 = true := by
  decide +kernel

theorem Flagged.cons {ctrl : PgByte} {item : LzItem} {items : List LzItem}
    (h : Flagged ctrl (item :: items)) :
    (ctrl &&& 1 ≠ 0 ↔ item.isTag = true) ∧ Flagged (ctrl >>> 1) items := by
  refine ⟨by rw [bit_iff, h 0 item rfl], fun i item' hi => ?_⟩
  rw [BitVec.getLsbD_ushiftRight, add_comm]
  exact h (i + 1) item' (by rwa [getElem?_cons_succ])

theorem Flagged.concat {ctrl : PgByte} {item : LzItem} {items : List LzItem}
    (h : Flagged ctrl items) (hb : (ctrl >>> items.length) &&& 1 ≠ 0 ↔ item.isTag = true) :
    Flagged ctrl (items ++ [item]) := by
  intro i item' hi
  rw [bit_iff, BitVec.getLsbD_ushiftRight, add_zero] at hb
  obtain hlt | hge := lt_or_ge i items.length
  · exact h i item' (by rwa [getElem?_append_left hlt] at hi)
  rw [getElem?_append_right hge, getElem?_singleton] at hi
  split at hi
  next h0 =>
    obtain rfl := Option.some.inj hi
    rw [show i = items.length by omega]
    exact Bool.eq_iff_iff.mpr hb
  · cases hi

def groupBytes : List PgByte := controlByte items :: items.flatMap bytes

/-- The groups of compressed data: eight items each, the last one possibly fewer. -/
def WellGrouped : List (List LzItem) → Prop
  | [] => True
  | [group] => 1 ≤ group.length ∧ group.length ≤ 8
  | group :: groups => group.length = 8 ∧ WellGrouped groups

/-- The bytes stand in the buffer from a position on. -/
def BytesAt (buffer : PgBuffer) : Nat → List PgByte → Prop
  | _, [] => True
  | p, byte :: bytes => buffer p = byte ∧ BytesAt buffer (p + 1) bytes

theorem bytesAt_append {buffer : PgBuffer} {p : Nat} {a b : List PgByte} :
    BytesAt buffer p (a ++ b) ↔ BytesAt buffer p a ∧ BytesAt buffer (p + a.length) b := by
  induction a generalizing p with
  | nil => simp [BytesAt]
  | cons byte a ih =>
    rw [cons_append, BytesAt, ih, BytesAt, length_cons, and_assoc,
      show p + 1 + a.length = p + (a.length + 1) by omega]

theorem BytesAt.congr {buffer buffer' : PgBuffer} {p : Nat} {bytes : List PgByte}
    (h : BytesAt buffer p bytes) (heq : ∀ i, p ≤ i → i < p + bytes.length → buffer' i = buffer i) :
    BytesAt buffer' p bytes := by
  induction bytes generalizing p with
  | nil => trivial
  | cons byte bytes ih =>
    rw [length_cons] at heq
    refine ⟨(heq p (by omega) (by omega)).trans h.1, ih h.2 fun i hl hh => ?_⟩
    exact heq i (by omega) (by omega)

/-! ## Decompression -/

/-- A byte stored in the output, or `memcpy` inside it. -/
inductive LzOutput
  | store (i : Nat)
  | copy (target source n : Nat)

/-- Where decompression stands: the source and destination pointers and the output, with a record
of the bytes of the source that were read and of what was done to the output. -/
structure DecompressState where
  sp : Nat
  dp : Nat
  dest : PgBuffer
  reads : List Nat
  outputs : List LzOutput

/-- `memcpy(buffer + target, buffer + source, n)` of regions that do not overlap. -/
def memcpy (buffer : PgBuffer) (target source n : Nat) : PgBuffer := fun i =>
  if target ≤ i ∧ i < target + n then buffer (i - target + source) else buffer i

/-- `memcpy(dp, dp - off, n)`, and `dp` moves on. -/
def DecompressState.copyBack (st : DecompressState) (off n : Nat) : DecompressState :=
  { st with
    dp := st.dp + n
    dest := memcpy st.dest st.dp (st.dp - off) n
    outputs := st.outputs ++ [.copy st.dp (st.dp - off) n] }

/-- The copy of a match: while it would overlap, only `off` bytes are copied and `off`
is doubled.  Every turn takes at least one byte, so that `len` turns suffice. -/
def copyMatch : Nat → DecompressState → Nat → Nat → DecompressState
  | 0, st, off, len => st.copyBack off len
  | turns + 1, st, off, len =>
    if off < len then copyMatch turns (st.copyBack off off) (off + off) (len - off)
    else st.copyBack off len

/-- A tag has a third byte if the length in the first one is 18. -/
def tagSize (first : PgByte) : Nat := if (first &&& 0x0f).toNat + 3 = 18 then 3 else 2

def tagLen (source : PgBuffer) (sp : Nat) : Nat :=
  let len := (source sp &&& 0x0f).toNat + 3
  if len = 18 then len + (source (sp + 2)).toNat else len

def tagOff (source : PgBuffer) (sp : Nat) : Nat :=
  ((source sp &&& 0xf0).toNat <<< 4) ||| (source (sp + 1)).toNat

/-- The bytes of a tag have been read. -/
def DecompressState.readTag (st : DecompressState) (source : PgBuffer) : DecompressState :=
  let size := tagSize (source st.sp)
  { st with sp := st.sp + size, reads := st.reads ++ (range size).map (st.sp + ·) }

/-- A match tag, the bytes of which are read before any test; an error is corrupt data. -/
def decompressTag (source : PgBuffer) (srcend destend : Nat) (st : DecompressState) :
    Except DecompressState DecompressState :=
  let off := tagOff source st.sp
  let len := min (tagLen source st.sp) (destend - st.dp)
  let st := st.readTag source
  if st.sp > srcend ∨ off = 0 ∨ off > st.dp then .error st
  else .ok (copyMatch len st off len)

def DecompressState.literal (st : DecompressState) (source : PgBuffer) : DecompressState where
  sp := st.sp + 1
  dp := st.dp + 1
  dest := Function.update st.dest st.dp (source st.sp)
  reads := st.reads ++ [st.sp]
  outputs := st.outputs ++ [.store st.dp]

def decompressItems (source : PgBuffer) (srcend destend : Nat) :
    Nat → PgByte → DecompressState → Except DecompressState DecompressState
  | 0, _, st => .ok st
  | count + 1, ctrl, st =>
    if st.sp < srcend ∧ st.dp < destend then
      if ctrl &&& 1 ≠ 0 then
        match decompressTag source srcend destend st with
        | .error st => .error st
        | .ok st => decompressItems source srcend destend count (ctrl >>> 1) st
      else decompressItems source srcend destend count (ctrl >>> 1) (st.literal source)
    else .ok st

/-- The control byte has been read. -/
def DecompressState.control (st : DecompressState) : DecompressState :=
  { st with sp := st.sp + 1, reads := st.reads ++ [st.sp] }

/-- The loop over the groups, each of which takes a byte of the source. -/
def decompressGroups (source : PgBuffer) (srcend destend : Nat) :
    Nat → DecompressState → Except DecompressState DecompressState
  | 0, st => .ok st
  | turns + 1, st =>
    if st.sp < srcend ∧ st.dp < destend then
      match decompressItems source srcend destend 8 (source st.sp) st.control with
      | .error st => .error st
      | .ok st => decompressGroups source srcend destend turns st
    else .ok st

/-- `pglz_decompress`: the result, and the output buffer with what was written to it. -/
def pglzDecompress (source : PgBuffer) (slen : Nat) (dest : PgBuffer) (rawsize : Nat)
    (checkComplete : Bool) : Int × PgBuffer :=
  match decompressGroups source slen rawsize slen ⟨0, 0, dest, [], []⟩ with
  | .error st => (-1, st.dest)
  | .ok st =>
    if checkComplete = true ∧ (st.dp ≠ rawsize ∨ st.sp ≠ slen) then (-1, st.dest)
    else (st.dp, st.dest)

/-! ## Copying a repetition -/

/-- The buffer holds the text up to a position. -/
def Agrees (buffer t : PgBuffer) (n : Nat) : Prop := ∀ i < n, buffer i = t i

theorem agrees_memcpy {dest t : PgBuffer} {dp off n : Nat} (h : Agrees dest t dp) (ho : off ≤ dp)
    (hn : n ≤ off) (hr : ∀ i < n, t (dp + i) = t (dp + i - off)) :
    Agrees (memcpy dest dp (dp - off) n) t (dp + n) := by
  intro i hi
  rw [memcpy]
  split
  next hin =>
    have hs : dest (i - dp + (dp - off)) = t (i - dp + (dp - off)) := h _ (by omega)
    have ht := hr (i - dp) (by omega)
    rw [Nat.add_sub_cancel' hin.1] at ht
    rw [hs, ht]
    congr 1
    omega
  · exact h i (by omega)

/-- **The doubling copy** continues a repetition. -/
theorem copyMatch_agrees {turns : Nat} {st : DecompressState} {t : PgBuffer} {off len : Nat}
    (h : Agrees st.dest t st.dp) (hp : 1 ≤ off) (ho : off ≤ st.dp) (ht : len ≤ turns)
    (hr : ∀ i < len, t (st.dp + i) = t (st.dp + i - off)) :
    Agrees (copyMatch turns st off len).dest t (st.dp + len) := by
  induction turns generalizing st off len with
  | zero => exact agrees_memcpy h ho (by omega) hr
  | succ turns ih =>
    rw [copyMatch]
    split
    next hlt =>
      have hf := agrees_memcpy h ho (le_refl off) fun i hi => hr i (by omega)
      -- two steps back by `off` are one by twice `off`
      have hd : ∀ i < len - off, t (st.dp + off + i) = t (st.dp + off + i - (off + off)) := by
        intro i hi
        have hon := hr (off + i) (by omega)
        have htw := hr i (by omega)
        rw [show st.dp + off + i = st.dp + (off + i) by omega, hon,
          show st.dp + (off + i) - off = st.dp + i by omega, htw]
        congr 1
        omega
      have hrs := @ih (st.copyBack off off) _ _ hf (by omega) (Nat.add_le_add_right ho off)
        (by omega) hd
      rwa [show (st.copyBack off off).dp + (len - off) = st.dp + len by
        simp only [DecompressState.copyBack]; omega] at hrs
    · exact agrees_memcpy h ho (by omega) hr

theorem copyMatch_fields (turns : Nat) (st : DecompressState) (off len : Nat) :
    (copyMatch turns st off len).sp = st.sp ∧ (copyMatch turns st off len).dp = st.dp + len := by
  induction turns generalizing st off len with
  | zero => exact ⟨rfl, rfl⟩
  | succ turns ih =>
    rw [copyMatch]
    split
    · obtain ⟨hs, hd⟩ := ih (st.copyBack off off) (off + off) (len - off)
      refine ⟨hs, ?_⟩
      rw [hd]
      simp only [DecompressState.copyBack]
      omega
    · exact ⟨rfl, rfl⟩

/-! ## Reading a tag back -/

theorem offset_high : ∀ high < 16, ∀ low < 256,
    ((high * 256 + low) &&& 0xf00) >>> 4 = high * 16 := by
  decide +kernel

theorem nibbles_or : ∀ high < 16, ∀ low < 16, high * 16 ||| low = high * 16 + low := by
  decide +kernel

theorem firstByte_low : ∀ high < 16, ∀ low < 16,
    (ofNat 8 (high * 16 + low) &&& 0x0f).toNat = low := by
  decide +kernel

theorem firstByte_high : ∀ high < 16, ∀ low < 16,
    (ofNat 8 (high * 16 + low) &&& 0xf0).toNat <<< 4 = high * 256 := by
  decide +kernel

theorem offset_or {high low : Nat} (hl : low < 256) : high * 256 ||| low = high * 256 + low := by
  have h := Nat.shiftLeft_add_eq_or_of_lt (show low < 2 ^ 8 from hl) high
  rw [Nat.shiftLeft_eq] at h
  exact h.symm

theorem tag_bytes {off low : Nat} (ho : off < 4096) (hl : low < 16) {b0 b1 : PgByte}
    (h0 : b0 = ofNat 8 (((off &&& 0xf00) >>> 4) ||| low)) (h1 : b1 = ofNat 8 (off &&& 0xff)) :
    (b0 &&& 0x0f).toNat = low ∧ ((b0 &&& 0xf0).toNat <<< 4) ||| b1.toNat = off := by
  have hh : off / 256 < 16 := by omega
  have hf := offset_high _ hh (off % 256) (by omega)
  rw [Nat.div_add_mod'] at hf
  rw [h0, h1, hf, nibbles_or _ hh _ hl]
  refine ⟨firstByte_low _ hh _ hl, ?_⟩
  have hm := Nat.and_two_pow_sub_one_eq_mod off 8
  rw [firstByte_high _ hh _ hl, hm, toNat_ofNat,
    Nat.mod_eq_of_lt (show off % 256 < 2 ^ 8 by omega), offset_or (by omega)]
  omega

variable {source t : PgBuffer}

theorem tag_at {sp len off : Nat} (hb : BytesAt source sp (tag len off).bytes) (h3 : 3 ≤ len)
    (hl : len ≤ 273) (ho : off < 4096) :
    tagSize (source sp) = (tag len off).bytes.length ∧ tagLen source sp = len ∧
      tagOff source sp = off := by
  unfold tagSize tagLen tagOff
  by_cases hln : len > 17
  · rw [bytes, if_pos hln] at hb ⊢
    obtain ⟨h0, h1, h2, -⟩ := hb
    obtain ⟨hlw, hof⟩ := tag_bytes ho (by decide) h0 h1
    have h2 : (source (sp + 2)).toNat = len - 18 := by
      have h2' := h2
      rw [h2', toNat_ofNat, Nat.mod_eq_of_lt (by omega)]
    simp only [hlw, h2, hof, if_true, length_cons, length_nil, and_true, true_and]
    omega
  rw [bytes, if_neg hln] at hb ⊢
  obtain ⟨h0, h1, -⟩ := hb
  obtain ⟨hlw, hof⟩ := tag_bytes ho (show len - 3 < 16 by omega) h0 h1
  have hsh : ¬ len - 3 + 3 = 18 := by omega
  simp only [hlw, hof, hsh, if_false, length_cons, length_nil, and_true, true_and]
  omega

/-- Any bytes are those of a tag. -/
theorem tag_of_source (source : PgBuffer) (sp : Nat) :
    BytesAt source sp (tag (tagLen source sp) (tagOff source sp)).bytes ∧
      3 ≤ tagLen source sp ∧ tagLen source sp ≤ 273 ∧ tagOff source sp < 4096 := by
  have hfirst : source sp = ofNat 8 ((source sp).toNat / 16 * 16 + (source sp).toNat % 16) := by
    rw [Nat.div_add_mod', BitVec.ofNat_toNat, BitVec.setWidth_eq]
  have hlt := (source sp).isLt
  have hlt1 := (source (sp + 1)).isLt
  have hlt2 := (source (sp + 2)).isLt
  obtain ⟨high, hh⟩ : ∃ n, n = (source sp).toNat / 16 := ⟨_, rfl⟩
  obtain ⟨low, hl⟩ : ∃ n, n = (source sp).toNat % 16 := ⟨_, rfl⟩
  have hh16 : high < 16 := by omega
  have hl16 : low < 16 := by omega
  rw [← hh, ← hl] at hfirst
  have hlow := firstByte_low high hh16 low hl16
  have hoff : tagOff source sp = high * 256 + (source (sp + 1)).toNat := by
    rw [tagOff, hfirst, firstByte_high high hh16 low hl16, offset_or hlt1]
  have hb0 := offset_high high hh16 _ hlt1
  have hb1 : (high * 256 + (source (sp + 1)).toNat) &&& 0xff = (source (sp + 1)).toNat := by
    rw [Nat.and_two_pow_sub_one_eq_mod _ 8]
    omega
  have hsecond : source (sp + 1) = ofNat 8 (source (sp + 1)).toNat := by simp
  unfold tagLen
  rw [hfirst, hlow, hoff]
  by_cases h18 : low + 3 = 18
  · rw [if_pos h18, bytes, if_pos (by omega), hb0, hb1, nibbles_or high hh16 0x0f (by decide),
      show low = 15 by omega]
    refine ⟨⟨?_, hsecond, ?_, trivial⟩, by omega, by omega, by omega⟩
    · rw [hfirst, show low = 15 by omega]
    · rw [show 15 + 3 + (source (sp + 2)).toNat - 18 = (source (sp + 2)).toNat by omega]
      simp
  · rw [if_neg h18, bytes, if_neg (by omega), hb0, hb1, Nat.add_sub_cancel,
      nibbles_or high hh16 low hl16]
    exact ⟨⟨hfirst, hsecond, trivial⟩, by omega, by omega, by omega⟩

/-! ## Reading items and groups back -/

/-- From one state to another, items are decoded from some bytes; if they stand for a text, it is
continued. -/
structure Decodes (st st' : DecompressState) (nbytes : Nat) (items : List LzItem) : Prop where
  sp : st'.sp = st.sp + nbytes
  dp : st'.dp = st.dp + spans items
  agrees : ∀ {t : PgBuffer}, LzCovers t st.dp items st'.dp → Agrees st.dest t st.dp →
    Agrees st'.dest t st'.dp

variable {st st' st'' : DecompressState} {srcend destend : Nat}

theorem Decodes.refl (st : DecompressState) : Decodes st st 0 [] := ⟨rfl, rfl, fun _ h => h⟩

theorem Decodes.trans {n m : Nat} {a b : List LzItem} (h : Decodes st st' n a)
    (h' : Decodes st' st'' m b) : Decodes st st'' (n + m) (a ++ b) := by
  refine ⟨by rw [h'.sp, h.sp, add_assoc], by rw [h'.dp, h.dp, spans_append, add_assoc], ?_⟩
  intro t hc ha
  obtain ⟨mid, hfst, hsnd⟩ := lzCovers_append.mp hc
  obtain rfl : st'.dp = mid := h.dp.trans hfst.accepted.2
  exact h'.agrees hsnd (h.agrees hfst ha)

theorem literal_decodes {byte : PgByte} (hb : source st.sp = byte) :
    Decodes st (st.literal source) 1 [.literal byte] := by
  refine ⟨rfl, rfl, fun {t} hc ha i hi => ?_⟩
  simp only [DecompressState.literal] at hi ⊢
  by_cases heq : i = st.dp
  · rw [heq, Function.update_self, hb]
    exact hc.1
  rw [Function.update_of_ne heq]
  exact ha i (by omega)

theorem decompressTag_accepts {len off : Nat} (hb : BytesAt source st.sp (tag len off).bytes)
    (hs : st.sp + (tag len off).bytes.length ≤ srcend) (ha : (tag len off).Accepted st.dp)
    (hd : st.dp + len ≤ destend) :
    ∃ st', decompressTag source srcend destend st = .ok st' ∧
      Decodes st st' (tag len off).bytes.length [tag len off] := by
  obtain ⟨h3, hl, ho1, ho, hdp⟩ := ha
  obtain ⟨hsz, hln, hof⟩ := tag_at hb h3 hl ho
  have hm : min len (destend - st.dp) = len := by omega
  have hread : (st.readTag source).sp = st.sp + (tag len off).bytes.length := by rw [← hsz]; rfl
  have hkeep : (st.readTag source).dp = st.dp := rfl
  unfold decompressTag
  simp only [hln, hof, hm]
  rw [if_neg (by omega)]
  obtain ⟨hsp, hdp'⟩ := copyMatch_fields len (st.readTag source) off len
  refine ⟨_, rfl, hsp.trans hread, hdp', fun hc hag => ?_⟩
  rw [hdp']
  exact copyMatch_agrees hag ho1 hdp le_rfl hc.1.2.2.2.2.2

/-- The first items of a group are decoded. -/
theorem decompressItems_begin {items : List LzItem} {count : Nat} {ctrl : PgByte}
    (hf : Flagged ctrl items) (hb : BytesAt source st.sp (items.flatMap bytes))
    (ha : AcceptedFrom st.dp items) (hs : st.sp + (items.flatMap bytes).length ≤ srcend)
    (hd : st.dp + spans items ≤ destend) :
    ∃ st', decompressItems source srcend destend (items.length + count) ctrl st =
        decompressItems source srcend destend count (ctrl >>> items.length) st' ∧
      Decodes st st' (items.flatMap bytes).length items := by
  induction items generalizing st ctrl with
  | nil => exact ⟨st, by simp, .refl st⟩
  | cons item items ih =>
    obtain ⟨hbit, hrest⟩ := hf.cons
    rw [flatMap_cons, bytesAt_append] at hb
    rw [flatMap_cons, length_append] at hs ⊢
    rw [spans_cons] at hd
    have hsp := ha.1.span_pos
    have hsz := item.bytes_ne_nil
    obtain ⟨st₁, hone, hdec⟩ : ∃ st₁,
        decompressItems source srcend destend (items.length + count + 1) ctrl st =
          decompressItems source srcend destend (items.length + count) (ctrl >>> 1) st₁ ∧
        Decodes st st₁ item.bytes.length [item] := by
      rw [decompressItems, if_pos (by omega)]
      cases item with
      | literal byte =>
        rw [if_neg fun h => by cases hbit.mp h]
        exact ⟨_, rfl, literal_decodes hb.1.1⟩
      | tag len off =>
        obtain ⟨st₁, ht, hdec⟩ := decompressTag_accepts hb.1
          (show _ ≤ srcend by omega) ha.1
          (show st.dp + len ≤ destend by simp only [LzItem.span] at hd; omega)
        rw [if_pos (hbit.mpr rfl), ht]
        exact ⟨st₁, rfl, hdec⟩
    have hdp : st₁.dp = st.dp + item.span := by simpa [spans] using hdec.dp
    obtain ⟨st', heq, hdec'⟩ := @ih st₁ (ctrl >>> 1) hrest (hdec.sp ▸ hb.2) (hdp ▸ ha.2)
      (by rw [hdec.sp]; omega) (by omega)
    refine ⟨st', ?_, hdec.trans hdec'⟩
    rw [length_cons, show items.length + 1 + count = items.length + count + 1 by omega, hone, heq,
      add_comm items.length 1, BitVec.shiftRight_add]

theorem WellGrouped.cons_iff {group : List LzItem} {gs : List (List LzItem)}
    (h : WellGrouped (group :: gs)) :
    1 ≤ group.length ∧ group.length ≤ 8 ∧ (gs = [] ∨ group.length = 8) ∧ WellGrouped gs := by
  cases gs with
  | nil => exact ⟨h.1, h.2, .inl rfl, trivial⟩
  | cons next gs =>
    obtain ⟨h8, hr⟩ := h
    exact ⟨by omega, by omega, .inr h8, hr⟩

theorem wellGrouped_of_full {gs : List (List LzItem)} (h : ∀ group ∈ gs, group.length = 8) :
    WellGrouped gs := by
  induction gs with
  | nil => trivial
  | cons group gs ih =>
    obtain ⟨hg, hgs⟩ := forall_mem_cons.mp h
    cases gs with
    | nil => exact ⟨by omega, by omega⟩
    | cons next gs => exact ⟨hg, ih hgs⟩

/-- A whole group is decoded, or one with fewer items at the end of the source. -/
theorem decompressItems_group {group : List LzItem} (h8 : group.length ≤ 8)
    (hend : group.length = 8 ∨ st.sp + (group.flatMap bytes).length = srcend)
    (hb : BytesAt source st.sp (group.flatMap bytes)) (ha : AcceptedFrom st.dp group)
    (hs : st.sp + (group.flatMap bytes).length ≤ srcend) (hd : st.dp + spans group ≤ destend) :
    ∃ st', decompressItems source srcend destend 8 (controlByte group) st = .ok st' ∧
      Decodes st st' (group.flatMap bytes).length group := by
  obtain ⟨st', hit, hdec⟩ := @decompressItems_begin source st srcend destend group
    (8 - group.length) _ (flagged_controlByte h8) hb ha hs hd
  rw [Nat.add_sub_cancel' h8] at hit
  refine ⟨st', ?_, hdec⟩
  rw [hit]
  cases hc : 8 - group.length with
  | zero => rfl
  | succ count =>
    have hsp := hdec.sp
    rw [decompressItems, if_neg]
    omega

/-- **Groups at the beginning of the source** are decoded; only the last one may have less than
eight items, if the source ends with it. -/
theorem decompressGroups_begin {turns : Nat} {gs : List (List LzItem)} (hgr : WellGrouped gs)
    (hend : (∀ group ∈ gs, group.length = 8) ∨ st.sp + (gs.flatMap groupBytes).length = srcend)
    (hb : BytesAt source st.sp (gs.flatMap groupBytes)) (ha : AcceptedFrom st.dp gs.flatten)
    (hs : st.sp + (gs.flatMap groupBytes).length ≤ srcend)
    (hd : st.dp + spans gs.flatten ≤ destend) :
    ∃ st', decompressGroups source srcend destend (gs.length + turns) st =
        decompressGroups source srcend destend turns st' ∧
      Decodes st st' (gs.flatMap groupBytes).length gs.flatten := by
  induction gs generalizing st with
  | nil => exact ⟨st, by simp, .refl st⟩
  | cons group gs ih =>
    obtain ⟨hp, h8, hl, hr⟩ := hgr.cons_iff
    have hgl : (groupBytes group).length = (group.flatMap bytes).length + 1 := rfl
    rw [flatMap_cons, length_append] at hend hs ⊢
    rw [flatMap_cons, bytesAt_append] at hb
    rw [flatten_cons, spans_append] at hd
    rw [flatten_cons, acceptedFrom_append] at ha
    obtain ⟨⟨hct, hi⟩, hn⟩ := hb
    have hpos : 0 < spans group := by
      obtain ⟨item, rest, rfl⟩ := exists_cons_of_length_pos hp
      have := ha.1.1.span_pos
      rw [spans_cons]
      omega
    have hlast : group.length = 8 ∨ st.control.sp + (group.flatMap bytes).length = srcend := by
      obtain hfull | hend := hend
      · exact .inl (hfull group mem_cons_self)
      refine hl.symm.imp_right fun hnil => ?_
      subst hnil
      simp only [DecompressState.control, flatMap_nil, length_nil] at hend ⊢
      omega
    obtain ⟨st₁, hit, hdec⟩ := decompressItems_group h8 hlast hi ha.1
      (show st.sp + 1 + _ ≤ srcend by omega) (show st.dp + _ ≤ destend by omega)
    have hsp : st₁.sp = st.sp + (groupBytes group).length := by
      rw [hdec.sp, hgl]
      simp only [DecompressState.control]
      omega
    have hdp : st₁.dp = st.dp + spans group := hdec.dp
    obtain ⟨st', heq, hdec'⟩ := @ih st₁ hr
      (hend.imp (fun h g hg => h g (mem_cons_of_mem _ hg)) fun h => by rw [hsp]; omega)
      (hsp ▸ hn) (hdp ▸ ha.2) (by omega) (by omega)
    refine ⟨st', ?_, Decodes.trans ⟨hsp, hdp, hdec.agrees⟩ hdec'⟩
    rw [length_cons, show gs.length + 1 + turns = gs.length + turns + 1 by omega, decompressGroups,
      if_pos (by omega), hct, hit]
    exact heq

theorem length_le_groupBytes (gs : List (List LzItem)) :
    gs.length ≤ (gs.flatMap groupBytes).length := by
  induction gs with
  | nil => exact le_refl 0
  | cons group gs ih =>
    rw [flatMap_cons, length_append, length_cons, groupBytes, length_cons]
    omega

/-- **Decompression of the groups of a text** fills the output with the text, and
takes the whole source. -/
theorem pglzDecompress_groups {raw : Nat} {groups : List (List LzItem)}
    (hg : WellGrouped groups) (hb : BytesAt source 0 (groups.flatMap groupBytes))
    (hc : LzCovers t 0 groups.flatten raw) (dest : PgBuffer) (cc : Bool) :
    ∃ dest', pglzDecompress source (groups.flatMap groupBytes).length dest raw cc =
        ((raw : Int), dest') ∧ Agrees dest' t raw := by
  obtain ⟨ha, hd⟩ := hc.accepted
  obtain ⟨turns, ht⟩ := Nat.exists_eq_add_of_le (length_le_groupBytes groups)
  obtain ⟨st', heq, hdec⟩ := @decompressGroups_begin source ⟨0, 0, dest, [], []⟩ _ raw turns groups
    hg (.inr (Nat.zero_add _)) hb ha (Nat.zero_add _).le hd.le
  have hsp := hdec.sp
  have hdp := hdec.dp.trans hd
  have hok : decompressGroups source (groups.flatMap groupBytes).length raw turns st' = .ok st' := by
    cases turns with
    | zero => rfl
    | succ turns => rw [decompressGroups, if_neg (by omega)]
  refine ⟨st'.dest, ?_, hdp ▸ hdec.agrees (hdp ▸ hc) fun i hi => absurd hi (Nat.not_lt_zero i)⟩
  have hrun := heq.trans hok
  rw [← ht] at hrun
  rw [pglzDecompress, hrun]
  simp [hsp, hdp]

/-! ## Corrupt data -/

/-- How many bytes are written after the access; `none` if it leaves the output or copies bytes that
are not written yet. -/
def LzOutput.check (rawsize written : Nat) : LzOutput → Option Nat
  | .store i => if i = written ∧ i < rawsize then some (written + 1) else none
  | .copy target source n =>
    if target = written ∧ source + n ≤ written ∧ target + n ≤ rawsize then some (written + n)
    else none

/-- Where the items end of a group that is not complete, after some groups. -/
def endOf (groups : List (List LzItem)) (last : List LzItem) : Nat :=
  (groups.flatMap groupBytes).length + 1 + (last.flatMap bytes).length

/-- The source begins with whole groups and the first items of another one, which decompression
accepts. -/
structure Begins (source : PgBuffer) (groups : List (List LzItem)) (last : List LzItem) : Prop where
  full : ∀ group ∈ groups, group.length = 8
  groupsAt : BytesAt source 0 (groups.flatMap groupBytes)
  flagged : Flagged (source (groups.flatMap groupBytes).length) last
  lastAt : BytesAt source ((groups.flatMap groupBytes).length + 1) (last.flatMap bytes)
  accepted : AcceptedFrom 0 (groups.flatten ++ last)

/-- After a beginning that leaves room in the output comes a tag that the end of the source cuts
off. -/
def TagCutOff (source : PgBuffer) (slen rawsize : Nat) : Prop :=
  ∃ groups last, Begins source groups last ∧ last.length < 8 ∧
    (source (groups.flatMap groupBytes).length).getLsbD last.length = true ∧
    spans (groups.flatten ++ last) < rawsize ∧
    endOf groups last < slen ∧ slen < endOf groups last + tagSize (source (endOf groups last))

section Within

variable (source : PgBuffer) (slen rawsize : Nat)

/-- What holds at any time: the reads are inside the source unless a tag is cut off, and the output
has been written up to `dp`. -/
structure Within (st : DecompressState) : Prop where
  reads : TagCutOff source slen rawsize ∨ ∀ i ∈ st.reads, i < slen
  outputs : st.outputs.foldlM (LzOutput.check rawsize) 0 = some st.dp
  room : st.dp ≤ rawsize

/-- The state after some groups and items, if it is not the end. -/
structure At (groups : List (List LzItem)) (last : List LzItem) (st : DecompressState) : Prop where
  begins : Begins source groups last
  sp : st.sp = endOf groups last
  dp : st.dp = spans (groups.flatten ++ last)

def finalState : Except DecompressState DecompressState → DecompressState
  | .error st => st
  | .ok st => st

variable {source slen rawsize} {groups : List (List LzItem)} {last : List LzItem}

theorem Within.read (h : Within source slen rawsize st) (positions : List Nat)
    (hp : TagCutOff source slen rawsize ∨ ∀ i ∈ positions, i < slen) (sp : Nat) :
    Within source slen rawsize { st with sp := sp, reads := st.reads ++ positions } := by
  refine ⟨?_, h.outputs, h.room⟩
  obtain hc | hr := h.reads
  · exact .inl hc
  exact hp.imp_right fun hp => forall_mem_append.mpr ⟨hr, hp⟩

theorem Within.output {written : Nat} (h : Within source slen rawsize st) {output : LzOutput}
    (hc : output.check rawsize st.dp = some written) :
    (st.outputs ++ [output]).foldlM (LzOutput.check rawsize) 0 = some written := by
  rw [foldlM_append, h.outputs]
  simpa using hc

theorem Within.copyBack (h : Within source slen rawsize st) {off n : Nat} (ho : off ≤ st.dp)
    (hn : n ≤ off) (hr : st.dp + n ≤ rawsize) : Within source slen rawsize (st.copyBack off n) :=
  ⟨h.reads, h.output (if_pos ⟨rfl, by omega, hr⟩), hr⟩

/-- The doubling copy stays below what is written. -/
theorem Within.copyMatch {turns off len : Nat} (h : Within source slen rawsize st) (hp : 0 < off)
    (ho : off ≤ st.dp) (ht : len ≤ turns) (hr : st.dp + len ≤ rawsize) :
    Within source slen rawsize (copyMatch turns st off len) := by
  induction turns generalizing st off len with
  | zero => exact h.copyBack ho (by omega) hr
  | succ turns ih =>
    rw [AthenaPG.copyMatch]
    split
    · have hb := h.copyBack ho le_rfl (by omega)
      exact ih hb (by omega) (Nat.add_le_add_right ho off) (by omega)
        (by simp only [DecompressState.copyBack]; omega)
    · exact h.copyBack ho (by omega) hr

theorem At.append (h : At source groups last st) {item : LzItem}
    (hbit : (source (groups.flatMap groupBytes).length >>> last.length) &&& 1 ≠ 0 ↔
      item.isTag = true) (hb : BytesAt source st.sp item.bytes) (ha : item.Accepted st.dp)
    (hsp : st'.sp = st.sp + item.bytes.length) (hdp : st'.dp = st.dp + item.span) :
    At source groups (last ++ [item]) st' := by
  obtain ⟨⟨hf, hg, hfl, hl, hac⟩, hs, hd⟩ := h
  refine ⟨⟨hf, hg, hfl.concat hbit, ?_, ?_⟩, ?_, ?_⟩
  · rw [flatMap_append, bytesAt_append, flatMap_singleton]
    exact ⟨hl, by rw [hs] at hb; exact hb⟩
  · rw [← append_assoc, acceptedFrom_append, zero_add, ← hd]
    exact ⟨hac, ha, trivial⟩
  · rw [hsp, hs, endOf, endOf, flatMap_append, length_append, flatMap_singleton, add_assoc]
  · rw [hdp, hd, ← append_assoc, spans_append (groups.flatten ++ last)]
    simp [spans]

/-- A group of eight items is complete. -/
theorem At.close (h : At source groups last st) (h8 : last.length = 8) :
    At source (groups ++ [last]) [] st.control := by
  obtain ⟨⟨hf, hg, hfl, hl, hac⟩, hs, hd⟩ := h
  have hlen : ((groups ++ [last]).flatMap groupBytes).length = endOf groups last := by
    rw [flatMap_append, flatMap_singleton, length_append, groupBytes, length_cons, endOf]
    omega
  refine ⟨⟨forall_mem_append.mpr ⟨hf, by simpa using h8⟩, ?_, by simp [Flagged], trivial, ?_⟩,
    ?_, ?_⟩
  · rw [flatMap_append, flatMap_singleton, bytesAt_append, zero_add]
    exact ⟨hg, hfl.eq_controlByte h8, hl⟩
  · simpa using hac
  · rw [endOf, hlen]
    simp [DecompressState.control, hs]
  · simpa [DecompressState.control] using hd

theorem decompressTag_within (hw : Within source slen rawsize st) (h : At source groups last st)
    (hlast : last.length < 8)
    (hbit : (source (groups.flatMap groupBytes).length >>> last.length) &&& 1 ≠ 0)
    (hs : st.sp < slen) (hd : st.dp < rawsize) :
    Within source slen rawsize (finalState (decompressTag source slen rawsize st)) ∧
      ∀ st', decompressTag source slen rawsize st = .ok st' → st'.dp < rawsize →
        At source groups (last ++ [tag (tagLen source st.sp) (tagOff source st.sp)]) st' := by
  have hread : Within source slen rawsize (st.readTag source) := by
    refine hw.read _ ?_ (st.sp + tagSize (source st.sp))
    by_cases hsz : st.sp + tagSize (source st.sp) ≤ slen
    · refine .inr fun i hi => ?_
      obtain ⟨k, hk, rfl⟩ := mem_map.mp hi
      have := mem_range.mp hk
      omega
    rw [bit_iff, BitVec.getLsbD_ushiftRight, add_zero] at hbit
    exact .inl ⟨groups, last, h.begins, hlast, hbit, h.dp ▸ hd, h.sp ▸ hs, by rw [← h.sp]; omega⟩
  obtain ⟨hb, h3, hl, ho⟩ := tag_of_source source st.sp
  obtain ⟨hsz, -, -⟩ := tag_at hb h3 hl ho
  unfold decompressTag
  dsimp only
  split
  · exact ⟨hread, nofun⟩
  next hok =>
    have hkeep : (st.readTag source).dp = st.dp := rfl
    refine ⟨hread.copyMatch (by omega) (by omega) le_rfl (by omega), ?_⟩
    rintro _ ⟨⟩ hdp
    obtain ⟨hsp, hdp'⟩ := copyMatch_fields (min (tagLen source st.sp) (rawsize - st.dp))
      (st.readTag source) (tagOff source st.sp) (min (tagLen source st.sp) (rawsize - st.dp))
    rw [hdp'] at hdp
    refine h.append (by simpa [isTag] using hbit) hb ⟨h3, hl, by omega, ho, by omega⟩
      (hsp.trans (by rw [← hsz]; rfl)) (hdp'.trans ?_)
    simp only [LzItem.span] at hdp ⊢
    omega

/-- **The items of a group**, from any state inside it. -/
theorem decompressItems_within {count : Nat} (hcount : last.length + count = 8)
    (hw : Within source slen rawsize st) (h : st.dp < rawsize → At source groups last st) :
    Within source slen rawsize (finalState (decompressItems source slen rawsize count
        (source (groups.flatMap groupBytes).length >>> last.length) st)) ∧
      ∀ st', decompressItems source slen rawsize count
          (source (groups.flatMap groupBytes).length >>> last.length) st = .ok st' →
        st'.sp < slen → st'.dp < rawsize → ∃ groups, At source groups [] st'.control := by
  induction count generalizing st last with
  | zero =>
    refine ⟨hw, ?_⟩
    rintro _ ⟨⟩ - hd
    exact ⟨_, (h hd).close hcount⟩
  | succ count ih =>
    have hnext : ∀ item, last.length + 1 = (last ++ [item]).length := fun item => by simp
    rw [decompressItems]
    split
    case isFalse hs =>
      refine ⟨hw, ?_⟩
      rintro _ ⟨⟩ hsp hd
      exact absurd ⟨hsp, hd⟩ hs
    case isTrue hs =>
      have hat := h hs.2
      rw [← BitVec.shiftRight_add]
      split
      next hbit =>
        obtain ⟨hw', hat'⟩ := decompressTag_within hw hat (by omega) hbit hs.1 hs.2
        cases ht : decompressTag source slen rawsize st with
        | error st' =>
          rw [ht] at hw'
          exact ⟨hw', nofun⟩
        | ok st' =>
          rw [ht] at hw'
          rw [hnext (tag (tagLen source st.sp) (tagOff source st.sp))]
          exact ih (by rw [← hnext]; omega) hw' (hat' st' ht)
      next hbit =>
        have hw' : Within source slen rawsize (st.literal source) := by
          have hr := hw.read [st.sp] (.inr (by simpa using hs.1)) (st.sp + 1)
          exact ⟨hr.reads, hw.output (if_pos ⟨rfl, hs.2⟩), hs.2⟩
        rw [hnext (.literal (source st.sp))]
        refine ih (by rw [← hnext]; omega) hw' fun _ => ?_
        exact hat.append (by simpa [isTag] using hbit) ⟨rfl, trivial⟩ trivial rfl rfl

/-- **All groups.** -/
theorem decompressGroups_within (turns : Nat) (hw : Within source slen rawsize st)
    (h : st.sp < slen → st.dp < rawsize → ∃ groups, At source groups [] st.control) :
    Within source slen rawsize (finalState (decompressGroups source slen rawsize turns st)) := by
  induction turns generalizing st with
  | zero => exact hw
  | succ turns ih =>
    rw [decompressGroups]
    split
    case isFalse => exact hw
    case isTrue hs =>
      obtain ⟨groups, hat⟩ := h hs.1 hs.2
      have hsp : st.sp = (groups.flatMap groupBytes).length := by
        have := hat.sp
        simp only [DecompressState.control, endOf, flatMap_nil, length_nil] at this
        omega
      obtain ⟨hw', hat'⟩ := @decompressItems_within st.control source slen rawsize groups [] 8 rfl
        (hw.read _ (.inr (by simpa using hs.1)) (st.sp + 1)) fun _ => hat
      rw [length_nil, BitVec.ushiftRight_zero, ← hsp] at hw' hat'
      cases hi : decompressItems source slen rawsize 8 (source st.sp) st.control with
      | error st' =>
        rw [hi] at hw'
        exact hw'
      | ok st' =>
        rw [hi] at hw'
        exact ih hw' (hat' st' hi)

end Within

/-! ## The end of the loops -/

theorem copyMatch_turns {turns : Nat} {off len : Nat} (hp : 0 < off) (h : len ≤ turns) :
    copyMatch (turns + 1) st off len = copyMatch turns st off len := by
  induction turns generalizing st off len with
  | zero => exact if_neg (by omega)
  | succ turns ih =>
    rw [copyMatch]
    conv_rhs => rw [copyMatch]
    split
    · exact ih (by omega) (by omega)
    · rfl

theorem sp_le_decompressItems {count : Nat} {ctrl : PgByte}
    (h : decompressItems source srcend destend count ctrl st = .ok st') : st.sp ≤ st'.sp := by
  induction count generalizing ctrl st with
  | zero =>
    cases h
    exact le_rfl
  | succ count ih =>
    rw [decompressItems] at h
    split at h
    case isFalse =>
      cases h
      exact le_rfl
    case isTrue =>
      split at h
      · cases ht : decompressTag source srcend destend st with
        | error st₁ =>
          rw [ht] at h
          cases h
        | ok st₁ =>
          rw [ht] at h
          refine le_trans ?_ (ih h)
          simp only [decompressTag] at ht
          split at ht
          · cases ht
          cases ht
          rw [(copyMatch_fields _ _ _ _).1]
          exact Nat.le_add_right _ _
      · exact (Nat.le_succ _).trans (ih h)

theorem decompressGroups_turns {turns : Nat} (ht : srcend ≤ st.sp + turns) :
    decompressGroups source srcend destend (turns + 1) st =
      decompressGroups source srcend destend turns st := by
  induction turns generalizing st with
  | zero => exact if_neg fun hs => absurd hs.1 (by omega)
  | succ turns ih =>
    rw [decompressGroups]
    conv_rhs => rw [decompressGroups]
    split
    · cases hi : decompressItems source srcend destend 8 (source st.sp) st.control with
      | error st' => rfl
      | ok st' =>
        have hle := sp_le_decompressItems hi
        simp only [DecompressState.control] at hle
        exact ih (by omega)
    · rfl

/-- What `pglz_decompress` should do with any source: it ends, reads inside the source, writes the
output in order, copying only what is written, and returns -1 or the number of bytes written. -/
structure PglzSafe (source : PgBuffer) (slen : Nat) (dest : PgBuffer) (rawsize : Nat)
    (checkComplete : Bool) : Prop where
  terminates : ∀ turns ≥ slen,
    decompressGroups source slen rawsize (turns + 1) ⟨0, 0, dest, [], []⟩ =
      decompressGroups source slen rawsize turns ⟨0, 0, dest, [], []⟩
  copyTerminates : ∀ turns (st : DecompressState) off len, 0 < off → len ≤ turns →
    copyMatch (turns + 1) st off len = copyMatch turns st off len
  reads : ∀ i ∈ (finalState (decompressGroups source slen rawsize slen ⟨0, 0, dest, [], []⟩)).reads,
    i < slen
  writes : ∃ n ≤ rawsize,
    (finalState (decompressGroups source slen rawsize slen
      ⟨0, 0, dest, [], []⟩)).outputs.foldlM (LzOutput.check rawsize) 0 = some n ∧
      ((pglzDecompress source slen dest rawsize checkComplete).1 = -1 ∨
        (pglzDecompress source slen dest rawsize checkComplete).1 = n)

/-- Decompression comes to the end of a beginning that leaves room in the output; if it refuses the
tag there, that is the end. -/
theorem Begins.reached {groups : List (List LzItem)} {last : List LzItem} {slen rawsize : Nat}
    (h : Begins source groups last) (h8 : last.length < 8)
    (hbit : (source (groups.flatMap groupBytes).length).getLsbD last.length = true)
    (hroom : spans (groups.flatten ++ last) < rawsize) (hend : endOf groups last < slen)
    (dest : PgBuffer) :
    ∃ st, At source groups last st ∧ ∀ bad, decompressTag source slen rawsize st = .error bad →
      decompressGroups source slen rawsize slen ⟨0, 0, dest, [], []⟩ = .error bad := by
  obtain ⟨hf, hg, hfl, hl, hac⟩ := id h
  have hlen := length_le_groupBytes groups
  rw [endOf] at hend
  rw [spans_append] at hroom
  rw [acceptedFrom_append] at hac
  obtain ⟨turns, ht⟩ : ∃ turns, slen = groups.length + (turns + 1) :=
    ⟨slen - groups.length - 1, by omega⟩
  obtain ⟨st₁, heq₁, hd₁⟩ := @decompressGroups_begin source ⟨0, 0, dest, [], []⟩ slen rawsize
    (turns + 1) groups (wellGrouped_of_full hf) (.inl hf) hg hac.1 (by simp only; omega)
    (by simp only; omega)
  have hsp₁ : st₁.control.sp = (groups.flatMap groupBytes).length + 1 := by
    simp [DecompressState.control, hd₁.sp]
  have hdp₁ : st₁.control.dp = 0 + spans groups.flatten := hd₁.dp
  have hsp : st₁.sp = (groups.flatMap groupBytes).length := Nat.succ.inj hsp₁
  obtain ⟨st, heq, hd⟩ := @decompressItems_begin source st₁.control slen rawsize last
    (7 - last.length + 1) _ hfl (hsp₁ ▸ hl) (hdp₁ ▸ hac.2) (by omega) (by omega)
  have hat : At source groups last st := by
    refine ⟨h, by rw [hd.sp, hsp₁, endOf], ?_⟩
    rw [hd.dp, hdp₁, spans_append, zero_add]
  refine ⟨st, hat, fun bad hbad => ?_⟩
  have hone : source (groups.flatMap groupBytes).length >>> last.length &&& 1 ≠ 0 := by
    rw [bit_iff, BitVec.getLsbD_ushiftRight, add_zero]
    exact hbit
  have hst := hat.sp
  have hdt := hat.dp
  rw [endOf] at hst
  rw [spans_append] at hdt
  have hdp : st₁.dp = st₁.control.dp := rfl
  rw [show last.length + (7 - last.length + 1) = 8 by omega] at heq
  nth_rewrite 2 [ht]
  rw [heq₁, decompressGroups, if_pos (by omega), hsp, heq, decompressItems, if_pos (by omega),
    if_pos hone, hbad]

/-- A tag that is cut off is read to its end. -/
theorem TagCutOff.reads {slen rawsize : Nat} (h : TagCutOff source slen rawsize) (dest : PgBuffer) :
    ∃ i ∈ (finalState (decompressGroups source slen rawsize slen ⟨0, 0, dest, [], []⟩)).reads,
      slen ≤ i := by
  obtain ⟨groups, last, hb, h8, hbit, hroom, hlt, hcut⟩ := h
  obtain ⟨st, hat, hrun⟩ := hb.reached h8 hbit hroom hlt dest
  rw [← hat.sp] at hcut
  rw [hrun (st.readTag source) (if_pos (.inl hcut))]
  refine ⟨st.sp + (tagSize (source st.sp) - 1),
    mem_append_right _ (mem_map.mpr ⟨_, mem_range.mpr ?_, rfl⟩), by omega⟩
  unfold tagSize
  split <;> decide

/-- **Decompression is safe if and only if no tag is cut off** by the end of the source: the bytes
of a tag are read before the test for the end. -/
theorem pglzDecompress_safe_iff (source : PgBuffer) (slen : Nat) (dest : PgBuffer) (rawsize : Nat)
    (checkComplete : Bool) :
    PglzSafe source slen dest rawsize checkComplete ↔ ¬ TagCutOff source slen rawsize := by
  refine ⟨fun h hcut => ?_, fun hno => ?_⟩
  · obtain ⟨i, hi, hle⟩ := hcut.reads dest
    exact absurd (h.reads i hi) (not_lt.mpr hle)
  have hw := @decompressGroups_within ⟨0, 0, dest, [], []⟩ source slen rawsize slen
    ⟨.inr nofun, rfl, Nat.zero_le _⟩
    fun _ _ => ⟨[], ⟨nofun, trivial, by simp [Flagged], trivial, trivial⟩, rfl, rfl⟩
  refine ⟨fun turns ht => decompressGroups_turns (by simpa using ht),
    fun turns st off len => copyMatch_turns, hw.reads.resolve_left hno, _, hw.room, hw.outputs, ?_⟩
  rw [pglzDecompress]
  cases hd : decompressGroups source slen rawsize slen ⟨0, 0, dest, [], []⟩ with
  | error st => exact .inl rfl
  | ok st =>
    dsimp only
    split
    · exact .inl rfl
    · exact .inr rfl

/-- A control byte and the first byte of a tag: two more bytes are read behind the end. -/
theorem pglzDecompress_unsafe :
    ¬ PglzSafe (fun i => if i = 0 then 0x01 else 0x0f) 2 (fun _ => 0) 10 true := by
  intro h
  have hr := h.reads 3 (by decide)
  exact absurd hr (by decide)

end AthenaPG
