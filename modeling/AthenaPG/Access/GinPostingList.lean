import Mathlib.Data.Nat.Bitwise
import Mathlib.Tactic

/-!
Compressed posting lists (`src/backend/access/gin/ginpostinglist.c`), on a little-endian
machine.

A segment holds its first item as it is and the others as the differences between
neighbours, in a variable number of bytes.  An array of bytes and what follows it in
memory is a list; `uint64` values are numbers, reduced where they could overflow.

* `decodeVarbyte_encodeVarbyte`: the varbyte code reads back.
* `packItems_spec`: what the packing loop writes, and when it stops.
* `decodeSegments_image`: segments stored one after another decode in turn.
* `ginPostingList_codec`: the codec as a whole.
* `ginCompressPostingList_sublist`: removing items never grows a posting list.
-/

namespace AthenaPG
open List Nat
open BitVec (eq_of_toNat_eq lt_def ofNat toNat_ofNat)

/-! ## Item pointers -/

structure ItemPointerData where
  block : BitVec 32
  offset : BitVec 16
  deriving DecidableEq, Repr

def maxHeapTuplesPerPageBits : Nat := 11

def maxBytesPerInteger : Nat := 7

variable (iptr : ItemPointerData)

def itemptrToUint64 : Nat := iptr.block.toNat <<< maxHeapTuplesPerPageBits ||| iptr.offset.toNat

def uint64ToItemptr (val : Nat) : ItemPointerData where
  offset := ofNat 16 (val &&& (1 <<< maxHeapTuplesPerPageBits - 1))
  block := ofNat 32 (val >>> maxHeapTuplesPerPageBits)

/-! ## Varbyte encoding -/

/-- The loop of `encode_varbyte`; a `uint64` takes at most ten bytes. -/
def encodeVarbyteFrom : Nat → Nat → List UInt8
  | 0, val => [UInt8.ofNat val]
  | fuel + 1, val =>
    if 0x7F < val then UInt8.ofNat (0x80 ||| (val &&& 0x7F)) :: encodeVarbyteFrom fuel (val >>> 7)
    else [UInt8.ofNat val]

def encodeVarbyte (val : Nat) : List UInt8 := encodeVarbyteFrom 9 val

/-- `decode_varbyte` from the byte on that `more` bytes can follow; the value and how
many bytes it takes.  The last byte has no continuation bit. -/
def decodeVarbyteFrom : Nat → Nat → List UInt8 → Nat × Nat
  | 0, val, ptr => (val ||| (ptr.headD 0).toNat <<< 42, 1)
  | more + 1, val, ptr =>
    let c := (ptr.headD 0).toNat
    let val := val ||| (c &&& 0x7F) <<< (7 * (6 - (more + 1)))
    if c &&& 0x80 ≠ 0 then
      let (val, n) := decodeVarbyteFrom more val ptr.tail
      (val, n + 1)
    else (val, 1)

def decodeVarbyte (ptr : List UInt8) : Nat × Nat := decodeVarbyteFrom 6 0 ptr

/-! ## Segments -/

def shortAlign (len : Nat) : Nat := (len + 1) / 2 * 2

def shortAlignDown (len : Nat) : Nat := len / 2 * 2

/-- `offsetof(GinPostingList, bytes)`. -/
def ginPostingListHeader : Nat := 8

structure GinPostingList where
  first : ItemPointerData
  nbytes : BitVec 16
  bytes : List UInt8
  deriving DecidableEq

open GinPostingList

def sizeOfGinPostingList (plist : GinPostingList) : Nat :=
  ginPostingListHeader + shortAlign plist.nbytes.toNat

/-- The difference of two `uint64`. -/
def uint64Sub (val prev : Nat) : Nat := (val + 2 ^ 64 - prev) % 2 ^ 64

/-- The loop of `ginCompressPostingList`: the bytes written and `totalpacked`. -/
def packItems (maxbytes : Int) : List ItemPointerData → Nat → List UInt8 → Nat → List UInt8 × Nat
  | [], _, packed, totalpacked => (packed, totalpacked)
  | item :: rest, prev, packed, totalpacked =>
    let val := itemptrToUint64 item
    let delta := uint64Sub val prev
    if maxBytesPerInteger ≤ maxbytes - packed.length then
      packItems maxbytes rest val (packed ++ encodeVarbyte delta) (totalpacked + 1)
    else
      -- check if the next item fits before writing it out
      let buf := encodeVarbyte delta
      if maxbytes - packed.length < buf.length then (packed, totalpacked)
      else packItems maxbytes rest val (packed ++ buf) (totalpacked + 1)

/-- A byte array with one byte written, in it or right after it. -/
def writeByte (bytes : List UInt8) (i : Nat) (value : UInt8) : List UInt8 :=
  if i < bytes.length then bytes.set i value else bytes ++ [value]

/-- `ginCompressPostingList` for the items `first :: rest`, with `*nwritten`. -/
def ginCompressPostingList (first : ItemPointerData) (rest : List ItemPointerData) (maxsize : Nat) :
    GinPostingList × Nat :=
  let maxbytes : Int := shortAlignDown maxsize - ginPostingListHeader
  let (packed, totalpacked) := packItems maxbytes rest (itemptrToUint64 first) [] 1
  let nbytes := ofNat 16 packed.length
  let bytes := if nbytes.toNat ≠ shortAlign nbytes.toNat then writeByte packed nbytes.toNat 0
    else packed
  (⟨first, nbytes, bytes⟩, totalpacked)

/-! ## Decoding -/

def uint16Bytes (n : BitVec 16) : List UInt8 := [UInt8.ofNat n.toNat, UInt8.ofNat (n.toNat / 256)]

def readUint16 (mem : List UInt8) : BitVec 16 :=
  ofNat 16 ((mem.getD 0 0).toNat + 256 * (mem.getD 1 0).toNat)

/-- An `ItemPointerData` in memory: the high and low half of the block number, and the
offset number. -/
def itemPointerBytes : List UInt8 :=
  uint16Bytes (ofNat 16 (iptr.block.toNat / 2 ^ 16)) ++
    uint16Bytes (ofNat 16 iptr.block.toNat) ++ uint16Bytes iptr.offset

def readItemPointer (mem : List UInt8) : ItemPointerData where
  block := ofNat 32
    ((readUint16 mem).toNat * 2 ^ 16 + (readUint16 (mem.drop 2)).toNat)
  offset := readUint16 (mem.drop 4)

def GinPostingList.image (plist : GinPostingList) : List UInt8 :=
  itemPointerBytes plist.first ++ uint16Bytes plist.nbytes ++
    plist.bytes.take (shortAlign plist.nbytes.toNat)

/-- The inner loop of `ginPostingListDecodeAllSegments`; `left` is `endptr - ptr`. -/
def decodeItems : Nat → List UInt8 → Int → Nat → List ItemPointerData
  | 0, _, _, _ => []
  | fuel + 1, ptr, left, val =>
    if left ≤ 0 then []
    else
      let (delta, n) := decodeVarbyte ptr
      let val := (val + delta) % 2 ^ 64
      uint64ToItemptr val :: decodeItems fuel (ptr.drop n) (left - n) val

/-- The loop over the segments; `left` is `endseg - segment`. -/
def decodeSegments : Nat → List UInt8 → Int → List ItemPointerData
  | 0, _, _ => []
  | fuel + 1, segment, left =>
    if left ≤ 0 then []
    else
      let first := readItemPointer segment
      let nbytes := (readUint16 (segment.drop 6)).toNat
      let size := ginPostingListHeader + shortAlign nbytes
      first :: decodeItems nbytes (segment.drop ginPostingListHeader) nbytes (itemptrToUint64 first) ++
        decodeSegments fuel (segment.drop size) (left - size)

def ginPostingListDecodeAllSegments (segment : List UInt8) (len : Nat) : List ItemPointerData :=
  decodeSegments len segment len

def ginPostingListDecode (plist : GinPostingList) : List ItemPointerData :=
  ginPostingListDecodeAllSegments plist.image (sizeOfGinPostingList plist)

/-! ## Item pointers as numbers -/

/-- The item pointers that the code can represent. -/
def ValidItem : Prop := 1 ≤ iptr.offset.toNat ∧ iptr.offset.toNat < 2 ^ maxHeapTuplesPerPageBits

variable {iptr : ItemPointerData} {n val fuel prev : Nat}

theorem itemptrToUint64_eq (h : ValidItem iptr) :
    itemptrToUint64 iptr = iptr.block.toNat * 2 ^ 11 + iptr.offset.toNat := by
  rw [itemptrToUint64, ← shiftLeft_add_eq_or_of_lt h.2, shiftLeft_eq]
  rfl

theorem itemptrToUint64_lt (h : ValidItem iptr) : itemptrToUint64 iptr < 2 ^ 43 := by
  have ho : iptr.offset.toNat < 2 ^ 11 := h.2
  rw [itemptrToUint64_eq h]
  omega

theorem uint64ToItemptr_itemptrToUint64 (h : ValidItem iptr) :
    uint64ToItemptr (itemptrToUint64 iptr) = iptr := by
  have ho : iptr.offset.toNat < 2 ^ 11 := h.2
  have hl : itemptrToUint64 iptr &&& (1 <<< maxHeapTuplesPerPageBits - 1) = iptr.offset.toNat := by
    have hm : (1 <<< maxHeapTuplesPerPageBits - 1 : Nat) = 2 ^ 11 - 1 := rfl
    rw [hm, and_two_pow_sub_one_eq_mod, itemptrToUint64_eq h]
    omega
  have hh : itemptrToUint64 iptr >>> maxHeapTuplesPerPageBits = iptr.block.toNat := by
    rw [shiftRight_eq_div_pow, itemptrToUint64_eq h]
    show (iptr.block.toNat * 2 ^ 11 + iptr.offset.toNat) / 2 ^ 11 = _
    omega
  rw [uint64ToItemptr, hl, hh]
  simp

/-! ## Varbyte encoding -/

theorem and_low (n : Nat) : n &&& 0x7F = n % 128 := and_two_pow_sub_one_eq_mod n 7

theorem or_high (h : n < 128) : 0x80 ||| n = 128 + n := by
  have heq := shiftLeft_add_eq_or_of_lt (i := 7) h 1
  simpa using heq.symm

theorem and_high (h : n < 256) : n &&& 0x80 ≠ 0 ↔ 128 ≤ n := by
  have hb : n &&& 0x80 = (n.testBit 7).toNat * 2 ^ 7 := and_two_pow n 7
  rw [hb]
  by_cases hlt : n < 128
  · rw [testBit_lt_two_pow (show n < 2 ^ 7 from hlt)]
    simp
    omega
  have hs : n = 2 ^ 7 + (n - 128) := by omega
  rw [hs, testBit_two_pow_add_eq, testBit_lt_two_pow (show n - 128 < 2 ^ 7 by omega)]
  simp

theorem encodeVarbyteFrom_small (fuel : Nat) (h : val < 128) :
    encodeVarbyteFrom fuel val = [UInt8.ofNat val] := by
  cases fuel with
  | zero => rfl
  | succ fuel => rw [encodeVarbyteFrom, if_neg (by omega)]

theorem encodeVarbyteFrom_length (more : Nat) (hf : more ≤ fuel) (h : val < 2 ^ (7 * (more + 1))) :
    1 ≤ (encodeVarbyteFrom fuel val).length ∧ (encodeVarbyteFrom fuel val).length ≤ more + 1 ∧
      val < 2 ^ (7 * (encodeVarbyteFrom fuel val).length) := by
  induction more generalizing fuel val with
  | zero =>
    rw [encodeVarbyteFrom_small fuel (by simpa using h)]
    simpa using h
  | succ more ih =>
    obtain ⟨fuel, rfl⟩ := exists_eq_succ_of_ne_zero (show fuel ≠ 0 by omega)
    rw [encodeVarbyteFrom]
    split
    · have hs : val >>> 7 < 2 ^ (7 * (more + 1)) := by
        rw [shiftRight_eq_div_pow, div_lt_iff_lt_mul (by positivity), ← pow_add]
        exact h
      obtain ⟨hl, hup, hlt⟩ := ih (show more ≤ fuel by omega) hs
      have hq := (shiftRight_eq_div_pow val 7).symm.trans_lt hlt
      rw [div_lt_iff_lt_mul (by positivity), ← pow_add] at hq
      rw [length_cons]
      exact ⟨by omega, by omega, hq⟩
    simp
    omega

theorem or_shift {acc s : Nat} (h : acc < 2 ^ s) : acc ||| n <<< s = acc + n * 2 ^ s := by
  rw [Nat.or_comm, ← shiftLeft_add_eq_or_of_lt h, shiftLeft_eq, Nat.add_comm]

theorem decodeVarbyteFrom_encode (more : Nat) (hmr : more ≤ 6) {acc : Nat} (hf : more ≤ fuel)
    (hv : val < 2 ^ (7 * (more + 1))) (ha : acc < 2 ^ (7 * (6 - more))) (rest : List UInt8) :
    decodeVarbyteFrom more acc (encodeVarbyteFrom fuel val ++ rest) =
      (acc + val * 2 ^ (7 * (6 - more)), (encodeVarbyteFrom fuel val).length) := by
  induction more generalizing fuel val acc with
  | zero =>
    have hlt : val < 128 := by simpa using hv
    rw [encodeVarbyteFrom_small fuel hlt, decodeVarbyteFrom]
    have hb : (([UInt8.ofNat val] ++ rest).headD 0).toNat = val := by
      simp only [cons_append, headD_cons, UInt8.toNat_ofNat']
      omega
    rw [hb, or_shift ha]
    rfl
  | succ more ih =>
    obtain ⟨fuel, rfl⟩ := exists_eq_succ_of_ne_zero (show fuel ≠ 0 by omega)
    by_cases hbg : 0x7F < val
    · have hb : (UInt8.ofNat (0x80 ||| (val &&& 0x7F))).toNat = 128 + val % 128 := by
        rw [and_low, or_high (mod_lt _ (by omega)), UInt8.toNat_ofNat']
        omega
      have hs : val >>> 7 < 2 ^ (7 * (more + 1)) := by
        rw [shiftRight_eq_div_pow, div_lt_iff_lt_mul (by positivity), ← pow_add]
        exact hv
      have hp : 2 ^ (7 * (6 - more)) = 128 * 2 ^ (7 * (6 - (more + 1))) := by
        rw [show 7 * (6 - more) = 7 + 7 * (6 - (more + 1)) by omega, pow_add]
        rfl
      have ha' : acc + val % 128 * 2 ^ (7 * (6 - (more + 1))) < 2 ^ (7 * (6 - more)) := by
        have hm : val % 128 ≤ 127 := by omega
        have hml := mul_le_mul_right (2 ^ (7 * (6 - (more + 1)))) hm
        omega
      rw [encodeVarbyteFrom, if_pos hbg, cons_append, decodeVarbyteFrom]
      simp only [headD_cons, hb, tail_cons]
      rw [if_pos ((and_high (by omega)).mpr (by omega)), and_low, or_shift ha,
        show (128 + val % 128) % 128 = val % 128 by omega,
        ih (by omega) (by omega) hs ha']
      refine Prod.ext ?_ (by simp)
      rw [hp, shiftRight_eq_div_pow]
      have hd : val = val % 128 + 128 * (val / 2 ^ 7) := by omega
      generalize 2 ^ (7 * (6 - (more + 1))) = place
      conv_rhs => rw [hd]
      ring
    have hlt : val < 128 := by omega
    have hb : (UInt8.ofNat val).toNat = val := by
      rw [UInt8.toNat_ofNat']
      omega
    rw [encodeVarbyteFrom_small _ hlt, singleton_append, decodeVarbyteFrom]
    simp only [headD_cons, hb]
    rw [if_neg (fun hc => by have := (and_high (by omega)).mp hc; omega), and_low, or_shift ha,
      mod_eq_of_lt hlt]
    rfl

/-- **The varbyte code reads back.** -/
theorem decodeVarbyte_encodeVarbyte (h : val < 2 ^ 43) (rest : List UInt8) :
    decodeVarbyte (encodeVarbyte val ++ rest) = (val, (encodeVarbyte val).length) := by
  have hd := decodeVarbyteFrom_encode 6 le_rfl (show 6 ≤ 9 by omega)
    (show val < 2 ^ (7 * (6 + 1)) by norm_num; omega) (show 0 < 2 ^ (7 * (6 - 6)) by norm_num) rest
  simpa [decodeVarbyte, encodeVarbyte] using hd

theorem encodeVarbyte_length (h : val < 2 ^ 43) :
    1 ≤ (encodeVarbyte val).length ∧ (encodeVarbyte val).length ≤ maxBytesPerInteger ∧
      val < 2 ^ (7 * (encodeVarbyte val).length) :=
  encodeVarbyteFrom_length 6 (by omega) (by norm_num; omega)

/-- The code of a sum is not longer than the codes of its parts together. -/
theorem encodeVarbyte_add_le (h : n + val < 2 ^ 43) :
    (encodeVarbyte (n + val)).length ≤ (encodeVarbyte n).length + (encodeVarbyte val).length := by
  obtain ⟨hn, -, hnl⟩ := encodeVarbyte_length (show n < 2 ^ 43 by omega)
  obtain ⟨hv, -, hvl⟩ := encodeVarbyte_length (show val < 2 ^ 43 by omega)
  obtain ⟨-, hmx, -⟩ := encodeVarbyte_length h
  generalize (encodeVarbyte n).length = i at *
  generalize (encodeVarbyte val).length = j at *
  by_cases hs : i + j ≤ maxBytesPerInteger
  · have hsm : n + val < 2 ^ (7 * (i + j - 1 + 1)) := by
      have ht {k : Nat} (hk : 1 ≤ k) : 2 ≤ 2 ^ (7 * k) := Nat.le_self_pow (by omega) 2
      have hm := add_le_mul (ht hn) (ht hv)
      rw [← pow_add, show 7 * i + 7 * j = 7 * (i + j - 1 + 1) by omega] at hm
      omega
    simp only [maxBytesPerInteger] at hs
    have hle := (encodeVarbyteFrom_length (i + j - 1) (show _ ≤ 9 by omega) hsm).2.1
    rw [encodeVarbyte]
    omega
  omega

/-! ## Packing -/

/-- What the items after one with number `prev` are packed as. -/
def deltas : Nat → List ItemPointerData → List Nat
  | _, [] => []
  | prev, item :: rest => uint64Sub (itemptrToUint64 item) prev :: deltas (itemptrToUint64 item) rest

/-- Items after `prev`, in increasing order. -/
def ItemsAfter : Nat → List ItemPointerData → Prop
  | _, [] => True
  | prev, item :: rest =>
    ValidItem item ∧ prev < itemptrToUint64 item ∧ ItemsAfter (itemptrToUint64 item) rest

theorem uint64Sub_eq (hv : val < 2 ^ 43) (h : prev < val) : uint64Sub val prev = val - prev := by
  unfold uint64Sub
  omega

theorem uint64Sub_lt (hv : ValidItem iptr) (h : prev < itemptrToUint64 iptr) :
    uint64Sub (itemptrToUint64 iptr) prev < 2 ^ 43 := by
  have hlt := itemptrToUint64_lt hv
  rw [uint64Sub_eq hlt h]
  omega

theorem deltas_take (prev : Nat) (items : List ItemPointerData) (k : Nat) :
    deltas prev (items.take k) = (deltas prev items).take k := by
  induction items generalizing prev k with
  | nil => simp [deltas]
  | cons item rest ih =>
    cases k with
    | zero => simp [deltas]
    | succ k => simp [deltas, ih]

section

variable {items : List ItemPointerData}

theorem ItemsAfter.take (h : ItemsAfter prev items) (k : Nat) : ItemsAfter prev (items.take k) := by
  induction items generalizing prev k with
  | nil => simp [ItemsAfter]
  | cons item rest ih =>
    cases k with
    | zero => simp [ItemsAfter]
    | succ k => exact ⟨h.1, h.2.1, ih h.2.2 k⟩

/-- What the packing loop has done when it ends after `k` more items. -/
structure PackedItems (maxbytes : Int) (items : List ItemPointerData) (prev : Nat)
    (packed : List UInt8) (k : Nat) (packed' : List UInt8) : Prop where
  le : k ≤ items.length
  bytes : packed' = packed ++ (deltas prev (items.take k)).flatMap encodeVarbyte
  fits : packed'.length ≤ maxbytes
  full : ∀ delta, (deltas prev items)[k]? = some delta →
    maxbytes - packed'.length < (encodeVarbyte delta).length

/-- **The packing loop**: it stops at the first item whose code does not fit. -/
theorem packItems_spec (maxbytes : Int) (h : ItemsAfter prev items)
    {packed : List UInt8} (hft : packed.length ≤ maxbytes) (tp : Nat) :
    ∃ k, (packItems maxbytes items prev packed tp).2 = tp + k ∧
      PackedItems maxbytes items prev packed k (packItems maxbytes items prev packed tp).1 := by
  induction items generalizing prev packed tp with
  | nil => exact ⟨0, rfl, by simp, by simp [packItems, deltas], hft, by simp [deltas]⟩
  | cons item rest ih =>
    obtain ⟨hv, hlt, hrs⟩ := h
    have hdl := uint64Sub_lt hv hlt
    obtain ⟨-, hsv, -⟩ := encodeVarbyte_length hdl
    -- one more item is written
    have hst {result} (hr : ((encodeVarbyte
        (uint64Sub (itemptrToUint64 item) prev)).length : Int) ≤ maxbytes - packed.length)
        (heq : result = packItems maxbytes rest (itemptrToUint64 item)
          (packed ++ encodeVarbyte (uint64Sub (itemptrToUint64 item) prev)) (tp + 1)) :
        ∃ k, result.2 = tp + k ∧
          PackedItems maxbytes (item :: rest) prev packed k result.1 := by
      rw [heq]
      have hn : ((packed ++ encodeVarbyte (uint64Sub (itemptrToUint64 item) prev)).length :
          Int) ≤ maxbytes := by
        rw [length_append]
        omega
      obtain ⟨k, ht, hs⟩ := ih hrs hn (tp + 1)
      refine ⟨k + 1, by omega, ?_, ?_, hs.fits, ?_⟩
      · have hle := hs.le
        rw [length_cons]
        omega
      · rw [hs.bytes, take_succ_cons, deltas, flatMap_cons, append_assoc]
      intro delta hd
      exact hs.full delta hd
    by_cases hf : (maxBytesPerInteger : Int) ≤ maxbytes - packed.length
    · refine hst (by omega) ?_
      rw [packItems]
      simp only [hf, if_true]
    by_cases hr : maxbytes - packed.length <
        (encodeVarbyte (uint64Sub (itemptrToUint64 item) prev)).length
    · have heq : packItems maxbytes (item :: rest) prev packed tp = (packed, tp) := by
        rw [packItems]
        simp only [hf, if_false, hr, if_true]
      rw [heq]
      refine ⟨0, rfl, by simp, by simp [deltas], hft, ?_⟩
      intro delta hd
      obtain rfl := Option.some.inj hd
      exact hr
    refine hst (by omega) ?_
    rw [packItems]
    simp only [hf, if_false, hr]

/-! ## Decoding a segment -/

theorem deltas_length (prev : Nat) (items : List ItemPointerData) :
    (deltas prev items).length = items.length := by
  induction items generalizing prev with
  | nil => rfl
  | cons item rest ih => simp [deltas, ih]

theorem length_le_packed (h : ItemsAfter prev items) :
    items.length ≤ ((deltas prev items).flatMap encodeVarbyte).length := by
  induction items generalizing prev with
  | nil => simp
  | cons item rest ih =>
    obtain ⟨hv, hlt, hr⟩ := h
    have ho := (encodeVarbyte_length (uint64Sub_lt hv hlt)).1
    have ht := ih hr
    rw [deltas, flatMap_cons, length_append, length_cons]
    omega

theorem decodeItems_packed (h : ItemsAfter prev items)
    (hf : items.length ≤ fuel) (rest : List UInt8) :
    decodeItems fuel ((deltas prev items).flatMap encodeVarbyte ++ rest)
      ((deltas prev items).flatMap encodeVarbyte).length prev = items := by
  induction items generalizing prev fuel with
  | nil =>
    cases fuel with
    | zero => rfl
    | succ fuel => simp [decodeItems, deltas]
  | cons item items ih =>
    obtain ⟨hv, hlt, hr⟩ := h
    have hvl := itemptrToUint64_lt hv
    have hsb := uint64Sub_eq hvl hlt
    obtain ⟨delta, hd⟩ : ∃ delta, uint64Sub (itemptrToUint64 item) prev = delta := ⟨_, rfl⟩
    have hs : delta < 2 ^ 43 := by omega
    have ho := (encodeVarbyte_length hs).1
    rw [length_cons] at hf
    obtain ⟨fuel, rfl⟩ := exists_eq_succ_of_ne_zero (show fuel ≠ 0 by omega)
    have hn : (prev + delta) % 2 ^ 64 = itemptrToUint64 item := by omega
    rw [deltas, hd, flatMap_cons, append_assoc, decodeItems, if_neg (by
      rw [length_append]
      omega)]
    simp only [decodeVarbyte_encodeVarbyte hs, hn, uint64ToItemptr_itemptrToUint64 hv, drop_left]
    have hl : (((encodeVarbyte delta ++
        (deltas (itemptrToUint64 item) items).flatMap encodeVarbyte).length : Nat) : Int) -
          ((encodeVarbyte delta).length : Nat) =
        (((deltas (itemptrToUint64 item) items).flatMap encodeVarbyte).length : Nat) := by
      rw [length_append]
      omega
    rw [hl, ih hr (by simpa using hf)]

theorem readUint16_bytes (n : BitVec 16) (rest : List UInt8) :
    readUint16 (uint16Bytes n ++ rest) = n := by
  apply eq_of_toNat_eq
  simp only [readUint16, uint16Bytes, cons_append, nil_append, getD_cons_zero,
    getD_cons_succ, UInt8.toNat_ofNat', toNat_ofNat]
  omega

theorem length_uint16Bytes (n : BitVec 16) : (uint16Bytes n).length = 2 := rfl

theorem length_itemPointerBytes (iptr : ItemPointerData) : (itemPointerBytes iptr).length = 6 := rfl

theorem readItemPointer_bytes (iptr : ItemPointerData) (rest : List UInt8) :
    readItemPointer (itemPointerBytes iptr ++ rest) = iptr := by
  obtain ⟨block, offset⟩ := iptr
  have hh := readUint16_bytes (ofNat 16 (block.toNat / 2 ^ 16))
    (uint16Bytes (ofNat 16 block.toNat) ++ uint16Bytes offset ++ rest)
  have hl := readUint16_bytes (ofNat 16 block.toNat) (uint16Bytes offset ++ rest)
  have ho := readUint16_bytes offset rest
  rw [readItemPointer]
  congr 1
  · apply eq_of_toNat_eq
    have h1 : readUint16 (itemPointerBytes ⟨block, offset⟩ ++ rest) =
        ofNat 16 (block.toNat / 2 ^ 16) := hh
    have h2 : readUint16 ((itemPointerBytes ⟨block, offset⟩ ++ rest).drop 2) =
        ofNat 16 block.toNat := hl
    rw [h1, h2]
    simp only [toNat_ofNat]
    omega

/-! ## Segments in memory -/

/-- A segment that holds `first :: items`. -/
structure HoldsItems (plist : GinPostingList) (items : List ItemPointerData) : Prop where
  after : ItemsAfter (itemptrToUint64 plist.first) items
  nbytes : plist.nbytes.toNat =
    ((deltas (itemptrToUint64 plist.first) items).flatMap encodeVarbyte).length
  bytes : ∃ pad, plist.bytes =
    (deltas (itemptrToUint64 plist.first) items).flatMap encodeVarbyte ++ pad ∧
    plist.bytes.length = shortAlign plist.nbytes.toNat

theorem HoldsItems.length_image {plist : GinPostingList}
    (h : HoldsItems plist items) : plist.image.length = sizeOfGinPostingList plist := by
  obtain ⟨pad, -, hl⟩ := h.bytes
  rw [image, take_of_length_le hl.le, length_append, length_append,
    length_itemPointerBytes, length_uint16Bytes, hl]
  rfl

/-- **Segments stored one after another** decode in turn. -/
theorem decodeSegments_image (segm : List (GinPostingList × List ItemPointerData))
    (h : ∀ s ∈ segm, HoldsItems s.1 s.2) (hf : segm.length ≤ fuel) :
    decodeSegments fuel (segm.flatMap fun s => s.1.image)
        ((segm.flatMap fun s => s.1.image).length : Nat) =
      segm.flatMap fun s => s.1.first :: s.2 := by
  induction segm generalizing fuel with
  | nil =>
    cases fuel with
    | zero => rfl
    | succ fuel => simp [decodeSegments]
  | cons seg segm ih =>
    obtain ⟨plist, items⟩ := seg
    have hsg : HoldsItems plist items := h (plist, items) (by simp)
    have hl := hsg.length_image
    obtain ⟨pad, hb, hp⟩ := hsg.bytes
    rw [length_cons] at hf
    obtain ⟨fuel, rfl⟩ := exists_eq_succ_of_ne_zero (show fuel ≠ 0 by omega)
    obtain ⟨mem, hm⟩ : ∃ mem, (segm.flatMap fun s => s.1.image) = mem := ⟨_, rfl⟩
    have hr := ih (fun s hs => h s (by simp [hs])) (show segm.length ≤ fuel by simpa using hf)
    rw [hm] at hr
    have hi : plist.image ++ mem = itemPointerBytes plist.first ++ (uint16Bytes plist.nbytes ++
        ((deltas (itemptrToUint64 plist.first) items).flatMap encodeVarbyte ++ (pad ++ mem))) := by
      rw [image, take_of_length_le hp.le, hb]
      simp only [append_assoc]
    have hfr : readItemPointer (plist.image ++ mem) = plist.first := by
      rw [hi, readItemPointer_bytes]
    have hd6 : (plist.image ++ mem).drop 6 = uint16Bytes plist.nbytes ++
        ((deltas (itemptrToUint64 plist.first) items).flatMap encodeVarbyte ++ (pad ++ mem)) := by
      rw [hi]
      exact drop_left' (length_itemPointerBytes _)
    have hd8 : (plist.image ++ mem).drop ginPostingListHeader =
        (deltas (itemptrToUint64 plist.first) items).flatMap encodeVarbyte ++ (pad ++ mem) := by
      rw [hi, ← append_assoc]
      exact drop_left' rfl
    have hd : (plist.image ++ mem).drop (sizeOfGinPostingList plist) = mem := drop_left' hl
    have he : items.length ≤ plist.nbytes.toNat := hsg.nbytes ▸ length_le_packed hsg.after
    have hit := decodeItems_packed hsg.after he (pad ++ mem)
    rw [← hsg.nbytes] at hit
    rw [flatMap_cons, flatMap_cons, hm, decodeSegments, if_neg (by
      rw [length_append, hl, sizeOfGinPostingList, ginPostingListHeader]
      omega)]
    simp only [hfr, hd6, readUint16_bytes, hd8, hit]
    have hsz : ginPostingListHeader + shortAlign plist.nbytes.toNat =
        sizeOfGinPostingList plist := rfl
    have hlf : (((plist.image ++ mem).length : Nat) : Int) - (sizeOfGinPostingList plist : Nat) =
        (mem.length : Nat) := by
      rw [length_append, hl]
      omega
    rw [hsz, hd, hlf, hr]

end

/-! ## The codec -/

def ItemLt (a b : ItemPointerData) : Prop :=
  a.block < b.block ∨ a.block = b.block ∧ a.offset < b.offset

theorem itemptrToUint64_lt_of_itemLt {a b : ItemPointerData} (ha : ValidItem a) (hb : ValidItem b)
    (h : ItemLt a b) : itemptrToUint64 a < itemptrToUint64 b := by
  have ho : a.offset.toNat < 2 ^ 11 := ha.2
  rw [itemptrToUint64_eq ha, itemptrToUint64_eq hb]
  obtain hbl | ⟨hbl, hlt⟩ := h
  · have hlt := lt_def.mp hbl
    omega
  have hlt := lt_def.mp hlt
  rw [hbl]
  omega

variable {rest : List ItemPointerData} {first : ItemPointerData}

theorem itemsAfter_of_pairwise
    (hv : ∀ item ∈ first :: rest, ValidItem item) (h : (first :: rest).Pairwise ItemLt) :
    ItemsAfter (itemptrToUint64 first) rest := by
  induction rest generalizing first with
  | nil => trivial
  | cons item rest ih =>
    have hi := hv item (by simp)
    obtain ⟨hf, hr⟩ := pairwise_cons.mp h
    refine ⟨hi, ?_, ih (fun x hx => hv x (mem_cons_of_mem _ hx)) hr⟩
    exact itemptrToUint64_lt_of_itemLt (hv first (by simp)) hi (hf item (by simp))

/-- The arguments of a call of `ginCompressPostingList`. -/
structure CompressCall where
  first : ItemPointerData
  rest : List ItemPointerData
  maxsize : Nat

open CompressCall

namespace CompressCall

variable (call : CompressCall)

def items : List ItemPointerData := call.first :: call.rest

def plist : GinPostingList := (ginCompressPostingList call.first call.rest call.maxsize).1

def nwritten : Nat := (ginCompressPostingList call.first call.rest call.maxsize).2

def maxbytes : Int := shortAlignDown call.maxsize - ginPostingListHeader

def packed : List UInt8 := (packItems call.maxbytes call.rest (itemptrToUint64 call.first) [] 1).1

/-- Increasing items that can be represented, and space for the first. -/
structure Valid : Prop where
  items : ∀ item ∈ call.items, ValidItem item
  increasing : call.items.Pairwise ItemLt
  maxsize : ginPostingListHeader ≤ call.maxsize

/-- What is expected of a call. -/
structure Right : Prop where
  positive : 1 ≤ call.nwritten
  le : call.nwritten ≤ call.items.length
  size : sizeOfGinPostingList call.plist ≤ shortAlignDown call.maxsize
  decode : ginPostingListDecode call.plist = call.items.take call.nwritten
  /-- The code of the next difference does not fit. -/
  full : ∀ prev next, call.items[call.nwritten - 1]? = some prev →
    call.items[call.nwritten]? = some next →
    shortAlignDown call.maxsize < ginPostingListHeader + call.plist.nbytes.toNat +
      (encodeVarbyte (itemptrToUint64 next - itemptrToUint64 prev)).length

end CompressCall

theorem deltas_getElem? {prev next : ItemPointerData} {k : Nat}
    (hp : (first :: rest)[k]? = some prev) (hn : rest[k]? = some next) :
    (deltas (itemptrToUint64 first) rest)[k]? =
      some (uint64Sub (itemptrToUint64 next) (itemptrToUint64 prev)) := by
  induction rest generalizing first k with
  | nil => simp at hn
  | cons item rest ih =>
    cases k with
    | zero =>
      obtain rfl : first = prev := by simpa using hp
      obtain rfl : item = next := by simpa using hn
      rfl
    | succ k => exact ih (by simpa using hp) (by simpa using hn)

theorem shortAlign_even (n : Nat) : shortAlign n = n ∨ shortAlign n = n + 1 := by
  unfold shortAlign
  omega

variable {call : CompressCall}

theorem CompressCall.Valid.after (hv : call.Valid) :
    ItemsAfter (itemptrToUint64 call.first) call.rest :=
  itemsAfter_of_pairwise hv.items hv.increasing

theorem packItems_call (hv : call.Valid) :
    ∃ k, call.nwritten = k + 1 ∧
      PackedItems call.maxbytes call.rest (itemptrToUint64 call.first) [] k call.packed := by
  have hm := hv.maxsize
  have hr : ((([] : List UInt8).length : Nat) : Int) ≤ call.maxbytes := by
    simp only [maxbytes, shortAlignDown, ginPostingListHeader, length_nil] at hm ⊢
    omega
  obtain ⟨k, ht, hs⟩ := packItems_spec call.maxbytes hv.after hr 1
  refine ⟨k, ?_, hs⟩
  show (packItems call.maxbytes call.rest (itemptrToUint64 call.first) [] 1).2 = k + 1
  omega

theorem ginCompressPostingList_holds (hv : call.Valid) (hb : call.packed.length < 2 ^ 16) :
    ∃ k, call.nwritten = k + 1 ∧ HoldsItems call.plist (call.rest.take k) ∧
      call.plist.first = call.first ∧ call.plist.nbytes.toNat = call.packed.length ∧
      PackedItems call.maxbytes call.rest (itemptrToUint64 call.first) [] k call.packed := by
  obtain ⟨k, hk, hs⟩ := packItems_call hv
  have hn : call.plist.nbytes.toNat = call.packed.length := by
    show (ofNat 16 call.packed.length).toNat = _
    rw [toNat_ofNat, mod_eq_of_lt hb]
  have hp : call.packed =
      (deltas (itemptrToUint64 call.first) (call.rest.take k)).flatMap encodeVarbyte :=
    hs.bytes
  have hpl : call.plist.bytes =
      if call.plist.nbytes.toNat ≠ shortAlign call.plist.nbytes.toNat then
        writeByte call.packed call.plist.nbytes.toNat 0
      else call.packed := rfl
  refine ⟨k, hk, ⟨hv.after.take k, hn.trans (congrArg List.length hp), ?_⟩, rfl, hn, hs⟩
  rw [hpl, hn]
  show ∃ pad, _ = (deltas (itemptrToUint64 call.first) (call.rest.take k)).flatMap encodeVarbyte ++
    pad ∧ _
  rw [← hp]
  split
  next ho =>
    rw [writeByte, if_neg (lt_irrefl _)]
    refine ⟨[0], rfl, ?_⟩
    have he := shortAlign_even call.packed.length
    rw [length_append, length_singleton]
    omega
  next he => exact ⟨[], by simp, not_not.mp he⟩

theorem decodeAllSegments_calls (calls : List CompressCall) (hv : ∀ call ∈ calls, call.Valid)
    (hb : ∀ call ∈ calls, call.packed.length < 2 ^ 16) :
    ginPostingListDecodeAllSegments (calls.flatMap fun call => call.plist.image)
        (calls.map fun call => sizeOfGinPostingList call.plist).sum =
      calls.flatMap fun call => call.items.take call.nwritten := by
  have hh (call : CompressCall) (hc : call ∈ calls) :
      HoldsItems call.plist (call.rest.take (call.nwritten - 1)) ∧
        call.plist.first :: call.rest.take (call.nwritten - 1) =
          call.items.take call.nwritten := by
    obtain ⟨k, hk, hhl, hf, -⟩ := ginCompressPostingList_holds (hv call hc) (hb call hc)
    rw [hk, Nat.add_sub_cancel, hf, items, take_succ_cons]
    exact ⟨hhl, rfl⟩
  have hsz : (calls.map fun call => sizeOfGinPostingList call.plist).sum =
      (calls.flatMap fun call => call.plist.image).length := by
    rw [length_flatMap]
    congr 1
    exact map_congr_left fun call hc => (hh call hc).1.length_image.symm
  have hm : (calls.flatMap fun call => call.plist.image) =
      (calls.map fun call => (call.plist, call.rest.take (call.nwritten - 1))).flatMap
        fun s => s.1.image := by
    rw [flatMap_map]
  have hl : calls.length ≤ (calls.flatMap fun call => call.plist.image).length := by
    rw [← hsz, ← length_map (f := fun call => sizeOfGinPostingList call.plist)]
    refine length_le_sum_of_one_le _ fun n hn => ?_
    obtain ⟨call, -, rfl⟩ := mem_map.mp hn
    simp only [sizeOfGinPostingList, ginPostingListHeader]
    omega
  rw [ginPostingListDecodeAllSegments, hsz, hm, decodeSegments_image]
  · rw [flatMap_map]
    exact flatMap_congr fun call hc => (hh call hc).2
  · intro s hs
    obtain ⟨call, hc, rfl⟩ := mem_map.mp hs
    exact (hh call hc).1
  rw [← hm, length_map]
  exact hl

/-- **The posting list codec.**  As long as `nbytes` can hold the number of packed
bytes, each segment holds the items that fit, and segments stored one after another
decode to all of them. -/
theorem ginPostingList_codec (calls : List CompressCall) (hvalid : ∀ call ∈ calls, call.Valid)
    (hbytes : ∀ call ∈ calls, call.packed.length < 2 ^ 16) :
    (∀ call ∈ calls, call.Right) ∧
    ginPostingListDecodeAllSegments (calls.flatMap fun call => call.plist.image)
        (calls.map fun call => sizeOfGinPostingList call.plist).sum =
      calls.flatMap fun call => call.items.take call.nwritten := by
  refine ⟨fun call hc => ?_, decodeAllSegments_calls calls hvalid hbytes⟩
  have hv := hvalid call hc
  obtain ⟨k, hk, -, -, hnb, hs⟩ := ginCompressPostingList_holds hv (hbytes call hc)
  have hf := hs.fits
  have hle := hs.le
  simp only [maxbytes, ginPostingListHeader] at hf
  refine ⟨by omega, ?_, ?_, ?_, ?_⟩
  · rw [hk, items, length_cons]
    omega
  · have he := shortAlign_even call.packed.length
    simp only [sizeOfGinPostingList, hnb, ginPostingListHeader, shortAlign,
      shortAlignDown] at he hf ⊢
    omega
  · have ho := decodeAllSegments_calls [call] (by simpa using hv) (by simpa using hbytes call hc)
    simpa [ginPostingListDecode] using ho
  intro prev next hp hn
  rw [hk, Nat.add_sub_cancel, items] at hp
  rw [hk, items, getElem?_cons_succ] at hn
  have hd := deltas_getElem? hp hn
  have hfl := hs.full _ hd
  have hvl := hv.items next
    (mem_cons_of_mem _ (mem_of_getElem? hn))
  have hlt : itemptrToUint64 prev < itemptrToUint64 next := by
    refine itemptrToUint64_lt_of_itemLt (hv.items prev (mem_of_getElem? hp)) hvl ?_
    obtain ⟨hk1, rfl⟩ := List.getElem?_eq_some_iff.mp hp
    obtain ⟨hk2, rfl⟩ := List.getElem?_eq_some_iff.mp hn
    exact pairwise_iff_getElem.mp hv.increasing k (k + 1) hk1
      (by simpa [items] using hk2) (lt_succ_self k)
  rw [uint64Sub_eq (itemptrToUint64_lt hvl) hlt] at hfl
  simp only [maxbytes, ginPostingListHeader] at hfl ⊢
  omega

theorem packed_length_lt (hv : call.Valid) (h : call.maxsize ≤ 65543) :
    call.packed.length < 2 ^ 16 := by
  obtain ⟨k, -, hs⟩ := packItems_call hv
  have hf := hs.fits
  simp only [maxbytes, shortAlignDown, ginPostingListHeader] at hf
  omega

/-- Three items, for two of which there is space. -/
def threeItems : CompressCall := ⟨⟨0, 1⟩, [⟨0, 2⟩, ⟨5, 7⟩], 10⟩

theorem threeItems_valid : threeItems.Valid :=
  ⟨by simp [threeItems, items, ValidItem, maxHeapTuplesPerPageBits],
    by simp [threeItems, items, ItemLt], by decide⟩

theorem ginPostingList_codec_three :
    (∀ call ∈ [threeItems, threeItems], call.Right) ∧
    ginPostingListDecodeAllSegments (threeItems.plist.image ++ threeItems.plist.image) 20 =
      [⟨0, 1⟩, ⟨0, 2⟩, ⟨0, 1⟩, ⟨0, 2⟩] := by
  have hb := packed_length_lt threeItems_valid (by decide)
  refine ginPostingList_codec [threeItems, threeItems] (by simp [threeItems_valid]) ?_
  simpa using hb

/-! ## Removing items -/

/-- Without its first item a list takes no more bytes: the two differences become one. -/
theorem packed_tail_le {items : List ItemPointerData} (h : ItemsAfter prev (iptr :: items)) :
    ItemsAfter prev items ∧ ((deltas prev items).flatMap encodeVarbyte).length ≤
      ((deltas prev (iptr :: items)).flatMap encodeVarbyte).length := by
  cases items with
  | nil => simp [ItemsAfter, deltas]
  | cons next rest =>
    obtain ⟨hv, hlt, hn, hl, hr⟩ := h
    refine ⟨⟨hn, hlt.trans hl, hr⟩, ?_⟩
    have hvl := itemptrToUint64_lt hn
    have hs : uint64Sub (itemptrToUint64 next) prev = uint64Sub (itemptrToUint64 iptr) prev +
        uint64Sub (itemptrToUint64 next) (itemptrToUint64 iptr) := by
      rw [uint64Sub_eq hvl (hlt.trans hl), uint64Sub_eq hvl hl,
        uint64Sub_eq (itemptrToUint64_lt hv) hlt]
      omega
    have ha := encodeVarbyte_add_le (hs ▸ uint64Sub_lt hn (hlt.trans hl))
    simp only [deltas, flatMap_cons, length_append, hs]
    omega

theorem packed_sublist_le {items sub : List ItemPointerData} (hs : sub <+ items)
    (h : ItemsAfter prev items) : ((deltas prev sub).flatMap encodeVarbyte).length ≤
      ((deltas prev items).flatMap encodeVarbyte).length := by
  induction hs generalizing prev with
  | slnil => exact le_rfl
  | cons item _ ih =>
    obtain ⟨ha, hle⟩ := packed_tail_le h
    exact (ih ha).trans hle
  | cons_cons item _ ih =>
    simp only [deltas, flatMap_cons, length_append]
    exact Nat.add_le_add_left (ih h.2.2) _

theorem packed_items_le (hv : call.Valid) (hs : first :: rest <+ call.items) :
    ((deltas (itemptrToUint64 first) rest).flatMap encodeVarbyte).length ≤
      ((deltas (itemptrToUint64 call.first) call.rest).flatMap encodeVarbyte).length := by
  obtain hr | ⟨rfl, hr⟩ := cons_sublist_cons'.mp hs
  · -- the first item is removed, and the new one is not packed any more
    refine le_trans ?_ (packed_sublist_le hr hv.after)
    simp [deltas]
  exact packed_sublist_le hr hv.after

/-- **Removing items never grows a posting list**: when a call has written all its items, any of
them can be written in the same space, or in the size of the list that was written, and they take no
more bytes. -/
theorem ginCompressPostingList_sublist {sub : CompressCall} (hvalid : call.Valid)
    (hall : call.nwritten = call.items.length) (hsub : sub.items <+ call.items)
    (hmax : ginPostingListHeader ≤ sub.maxsize) :
    (call.maxsize ≤ sub.maxsize → sub.nwritten = sub.items.length) ∧
      (call.packed.length < 2 ^ 16 → sizeOfGinPostingList call.plist ≤ sub.maxsize →
        sub.nwritten = sub.items.length) ∧
      sub.packed.length ≤ call.packed.length ∧
      (call.packed.length < 2 ^ 16 →
        sizeOfGinPostingList sub.plist ≤ sizeOfGinPostingList call.plist) := by
  have hv : sub.Valid := ⟨fun item hi => hvalid.items item (hsub.subset hi),
    hvalid.increasing.sublist hsub, hmax⟩
  obtain ⟨k, hk, hsp⟩ := packItems_call hvalid
  obtain ⟨j, hj, hs⟩ := packItems_call hv
  have hl : k = call.rest.length := by
    rw [items, length_cons] at hall
    omega
  have hp := hsp.bytes
  rw [hl, take_length, nil_append] at hp
  have hpr (i : Nat) : ((deltas (itemptrToUint64 sub.first)
      (sub.rest.take i)).flatMap encodeVarbyte).length ≤ call.packed.length := by
    rw [hp]
    exact packed_items_le hvalid (((take_sublist i _).cons_cons _).trans hsub)
  have hle : sub.packed.length ≤ call.packed.length := by
    rw [hs.bytes]
    exact hpr j
  have hn (c : CompressCall) : c.plist.nbytes.toNat = c.packed.length % 2 ^ 16 := rfl
  have hroom (hr : (call.packed.length : Int) ≤ sub.maxbytes) : sub.nwritten = sub.items.length := by
    rw [hj, items, length_cons]
    refine congrArg succ (hs.le.antisymm (not_lt.mp fun hlt => ?_))
    -- the next difference would have fitted
    rw [← deltas_length (itemptrToUint64 sub.first)] at hlt
    have hf := hs.full _ (getElem?_eq_getElem hlt)
    have hnx := hpr (j + 1)
    rw [deltas_take, take_succ_eq_append_getElem hlt, flatMap_append, ← deltas_take] at hnx
    have hb := congrArg List.length hs.bytes
    simp only [length_append, length_nil, flatMap_singleton] at *
    omega
  refine ⟨fun hr => hroom ?_, fun hb hr => hroom ?_, hle, fun hb => ?_⟩
  · have hft := hsp.fits
    simp only [maxbytes, shortAlignDown] at *
    omega
  · simp only [sizeOfGinPostingList, shortAlign, hn, ginPostingListHeader] at hr
    simp only [maxbytes, shortAlignDown, ginPostingListHeader]
    omega
  simp only [sizeOfGinPostingList, shortAlign, hn]
  omega

/-- The first of three items is removed, and the others are written in the size of the old list. -/
theorem ginCompressPostingList_sublist_two :
    (ginCompressPostingList ⟨0, 2⟩ [⟨5, 7⟩]
        (sizeOfGinPostingList (ginCompressPostingList ⟨0, 1⟩ [⟨0, 2⟩, ⟨5, 7⟩] 100).1)).2 = 2 ∧
      sizeOfGinPostingList (ginCompressPostingList ⟨0, 2⟩ [⟨5, 7⟩] 12).1 ≤
        sizeOfGinPostingList (ginCompressPostingList ⟨0, 1⟩ [⟨0, 2⟩, ⟨5, 7⟩] 100).1 :=
  ⟨(@ginCompressPostingList_sublist ⟨⟨0, 1⟩, [⟨0, 2⟩, ⟨5, 7⟩], 100⟩
    ⟨⟨0, 2⟩, [⟨5, 7⟩], sizeOfGinPostingList
      (ginCompressPostingList ⟨0, 1⟩ [⟨0, 2⟩, ⟨5, 7⟩] 100).1⟩
    ⟨threeItems_valid.1, threeItems_valid.2, by decide⟩ (by decide) (sublist_cons_self _ _)
    (by decide)).2.1 (by decide) (by decide),
  (@ginCompressPostingList_sublist ⟨⟨0, 1⟩, [⟨0, 2⟩, ⟨5, 7⟩], 100⟩
    ⟨⟨0, 2⟩, [⟨5, 7⟩], 12⟩ ⟨threeItems_valid.1, threeItems_valid.2, by decide⟩
    (by decide) (sublist_cons_self _ _) (by decide)).2.2.2 (by decide)⟩

/-! ## More bytes than `nbytes` can hold -/

/-- The item pointers in order, 2047 to a block. -/
def denseItem (i : Nat) : ItemPointerData := ⟨ofNat 32 (i / 2047), ofNat 16 (i % 2047 + 1)⟩

theorem denseItem_valid (i : Nat) : ValidItem (denseItem i) := by
  simp only [ValidItem, denseItem, toNat_ofNat, maxHeapTuplesPerPageBits]
  omega

theorem itemptrToUint64_denseItem {i : Nat} (h : i < 2 ^ 32) :
    itemptrToUint64 (denseItem i) = 2048 * (i / 2047) + i % 2047 + 1 := by
  rw [itemptrToUint64_eq (denseItem_valid i)]
  simp only [denseItem, toNat_ofNat]
  omega

theorem denseItem_lt {i j : Nat} (hij : i < j) (hj : j < 2 ^ 32) :
    ItemLt (denseItem i) (denseItem j) := by
  simp only [ItemLt, denseItem, lt_def, toNat_ofNat, ← BitVec.toNat_inj]
  omega

theorem deltas_dense (n s : Nat) (h : s + n < 2 ^ 32) :
    ∀ d ∈ deltas (itemptrToUint64 (denseItem s)) ((List.range' (s + 1) n).map denseItem),
      d < 128 := by
  induction n generalizing s with
  | zero => simp [deltas]
  | succ n ih =>
    rw [range'_succ, map_cons, deltas]
    refine forall_mem_cons.mpr ⟨?_, ih (s + 1) (by omega)⟩
    rw [itemptrToUint64_denseItem (by omega), itemptrToUint64_denseItem (by omega), uint64Sub]
    omega

theorem flatMap_encodeVarbyte_length {ds : List Nat} (h : ∀ d ∈ ds, d < 128) :
    (ds.flatMap encodeVarbyte).length = ds.length := by
  induction ds with
  | nil => rfl
  | cons d ds ih =>
    rw [flatMap_cons, length_append, ih fun x hx => h x (by simp [hx]), encodeVarbyte,
      encodeVarbyteFrom_small 9 (h d (by simp)), length_singleton, length_cons]
    omega

/-- `n + 1` dense items, and space for all of them. -/
def denseCall (n : Nat) : CompressCall := ⟨denseItem 0, (List.range' 1 n).map denseItem, n + 8⟩

theorem denseCall_valid (h : n < 2 ^ 20) : (denseCall n).Valid := by
  have hi : (denseCall n).items = (List.range' 0 (n + 1)).map denseItem := by
    rw [range'_succ, map_cons]
    rfl
  refine ⟨?_, ?_, ?_⟩
  · rw [hi]
    intro item hit
    obtain ⟨i, -, rfl⟩ := mem_map.mp hit
    exact denseItem_valid i
  · rw [hi, pairwise_map]
    have hlt := pairwise_lt_range' (s := 0) (n := n + 1)
    refine List.Pairwise.imp_of_mem (fun _ hj hlt => denseItem_lt hlt ?_) hlt
    have hj' := mem_range'_1.mp hj
    omega
  simp only [denseCall, ginPostingListHeader]
  omega

theorem denseCall_packed (h : n < 2 ^ 20) (he : n % 2 = 0) :
    (denseCall n).packed.length = n ∧ (denseCall n).nwritten = n + 1 := by
  have hv := denseCall_valid h
  have ha := itemsAfter_of_pairwise hv.items hv.increasing
  have hm : (denseCall n).maxbytes = n := by
    simp only [maxbytes, denseCall, shortAlignDown, ginPostingListHeader]
    omega
  have hr : ((([] : List UInt8).length : Nat) : Int) ≤ (denseCall n).maxbytes := by
    rw [hm]
    simp
  obtain ⟨k, ht, hs⟩ := packItems_spec (denseCall n).maxbytes ha hr 1
  have hrs : (denseCall n).rest.length = n := by simp [denseCall]
  have hsm : ∀ d ∈ deltas (itemptrToUint64 (denseCall n).first) (denseCall n).rest, d < 128 :=
    deltas_dense n 0 (by omega)
  have hle := hs.le
  have hp : (denseCall n).packed =
      (deltas (itemptrToUint64 (denseCall n).first) ((denseCall n).rest.take k)).flatMap
        encodeVarbyte := hs.bytes
  have hl : (denseCall n).packed.length = k := by
    rw [hp, deltas_take, flatMap_encodeVarbyte_length fun d hd =>
      hsm d (mem_of_mem_take hd), length_take, deltas_length]
    omega
  have hal : k = n := by
    by_contra hne
    have hlt : k < (deltas (itemptrToUint64 (denseCall n).first) (denseCall n).rest).length := by
      rw [deltas_length]
      omega
    have hf : (denseCall n).maxbytes - (denseCall n).packed.length < _ :=
      hs.full _ (getElem?_eq_getElem hlt)
    rw [encodeVarbyte, encodeVarbyteFrom_small 9 (hsm _ (getElem_mem hlt)),
      length_singleton, hm, hl] at hf
    omega
  refine ⟨by omega, ?_⟩
  have hn : (denseCall n).nwritten = 1 + k := ht
  omega

/-- All 65537 items are reported as written, but only the first decodes. -/
theorem ginPostingList_nbytes_wraps :
    (denseCall 65536).Valid ∧ (denseCall 65536).nwritten = 65537 ∧
      ginPostingListDecode (denseCall 65536).plist = [denseItem 0] := by
  have hw (n : Nat) (h : n < 2 ^ 20) (hn : n % 2 ^ 16 = 0) :
      (denseCall n).Valid ∧ (denseCall n).nwritten = n + 1 ∧
        ginPostingListDecode (denseCall n).plist = [denseItem 0] := by
    obtain ⟨hl, hnw⟩ := denseCall_packed h (by omega)
    refine ⟨denseCall_valid h, hnw, ?_⟩
    have hnb : (denseCall n).plist.nbytes = 0#16 := by
      have ho : (denseCall n).plist.nbytes = ofNat 16 (denseCall n).packed.length := rfl
      rw [ho, hl]
      apply eq_of_toNat_eq
      simpa using hn
    have hi : (denseCall n).plist.image = itemPointerBytes (denseItem 0) ++ uint16Bytes 0#16 := by
      have hz : shortAlign (0#16).toNat = 0 := by decide
      have hf : (denseCall n).plist.first = denseItem 0 := rfl
      rw [image, hnb, hz, hf, take_zero, append_nil]
    rw [ginPostingListDecode, hi, sizeOfGinPostingList, hnb]
    decide
  exact hw 65536 (by norm_num) (by norm_num)

end AthenaPG
