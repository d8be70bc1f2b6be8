import Mathlib.Tactic.Ring

/-!
Positions in the write-ahead log (`src/backend/access/transam/xlog.c`).

The log is a sequence of pages, some of which begin a segment and have a longer header.  A usable
byte position counts the bytes that are not in a header.  Positions are numbers: they are taken
to stay below `2 ^ 64`.

* `xlogBytePosToRecPtr`, `xlogBytePosToEndRecPtr`, `xlogRecPtrToBytePos`: the conversions;
* `reserveXLogInsertLocation`, `reserveXLogSwitch`: the space of a record is reserved;
* `recPtr_pageStart`, `endRecPtr_pageStart`, `recPtrToBytePos_page`: the conversions by page;
* `Reachable.aligned`: records begin at aligned positions.
-/

namespace AthenaPG.XLog
open Nat

def sizeOfXLogShortPHD : Nat := 24

def sizeOfXLogLongPHD : Nat := 40

def sizeOfXLogRecord : Nat := 24

def maxAlign (n : Nat) : Nat := (n + 7) / 8 * 8

/-- `XLOG_BLCKSZ`, and how many pages a segment has. -/
structure WalGeometry where
  blcksz : Nat
  pages : Nat
  aligned : 8 ∣ blcksz
  large : sizeOfXLogLongPHD < blcksz
  pages_pos : 0 < pages

open WalGeometry

variable (g : WalGeometry)

def WalGeometry.walSegmentSize : Nat := g.pages * g.blcksz

def WalGeometry.usableBytesInPage : Nat := g.blcksz - sizeOfXLogShortPHD

def WalGeometry.usableBytesInSegment : Nat :=
  g.walSegmentSize / g.blcksz * g.usableBytesInPage - (sizeOfXLogLongPHD - sizeOfXLogShortPHD)

def xlogBytePosToRecPtr (bytepos : Nat) : Nat :=
  let fullsegs := bytepos / g.usableBytesInSegment
  let bytesleft := bytepos % g.usableBytesInSegment
  let segOffset :=
    if bytesleft < g.blcksz - sizeOfXLogLongPHD then bytesleft + sizeOfXLogLongPHD
    else
      let bytesleft := bytesleft - (g.blcksz - sizeOfXLogLongPHD)
      g.blcksz + (bytesleft / g.usableBytesInPage * g.blcksz +
        bytesleft % g.usableBytesInPage + sizeOfXLogShortPHD)
  fullsegs * g.walSegmentSize + segOffset

def xlogBytePosToEndRecPtr (bytepos : Nat) : Nat :=
  let fullsegs := bytepos / g.usableBytesInSegment
  let bytesleft := bytepos % g.usableBytesInSegment
  let segOffset :=
    if bytesleft < g.blcksz - sizeOfXLogLongPHD then
      if bytesleft = 0 then 0 else bytesleft + sizeOfXLogLongPHD
    else
      let bytesleft := bytesleft - (g.blcksz - sizeOfXLogLongPHD)
      let fullpages := bytesleft / g.usableBytesInPage
      let bytesleft := bytesleft % g.usableBytesInPage
      if bytesleft = 0 then g.blcksz + (fullpages * g.blcksz + bytesleft)
      else g.blcksz + (fullpages * g.blcksz + bytesleft + sizeOfXLogShortPHD)
  fullsegs * g.walSegmentSize + segOffset

def xlogRecPtrToBytePos (ptr : Nat) : Nat :=
  let fullsegs := ptr / g.walSegmentSize
  let fullpages := ptr % g.walSegmentSize / g.blcksz
  let offset := ptr % g.blcksz
  if fullpages = 0 then
    fullsegs * g.usableBytesInSegment + (if 0 < offset then offset - sizeOfXLogLongPHD else 0)
  else
    fullsegs * g.usableBytesInSegment + (g.blcksz - sizeOfXLogLongPHD) +
      (fullpages - 1) * g.usableBytesInPage +
      (if 0 < offset then offset - sizeOfXLogShortPHD else 0)

/-! ## Reserving space -/

/-- `CurrBytePos` and `PrevBytePos` of `XLogCtlInsert`. -/
structure XLogCtlInsert where
  currBytePos : Nat
  prevBytePos : Nat

structure Reservation where
  startPos : Nat
  endPos : Nat
  prevPtr : Nat

def reserveXLogInsertLocation (insert : XLogCtlInsert) (size : Nat) :
    Reservation × XLogCtlInsert :=
  let size := maxAlign size
  let startbytepos := insert.currBytePos
  let endbytepos := startbytepos + size
  (⟨xlogBytePosToRecPtr g startbytepos, xlogBytePosToEndRecPtr g endbytepos,
      xlogBytePosToRecPtr g insert.prevBytePos⟩, ⟨endbytepos, startbytepos⟩)

/-- `ReserveXLogSwitch`: nothing is reserved at the beginning of a segment. -/
def reserveXLogSwitch (insert : XLogCtlInsert) : Option (Reservation × XLogCtlInsert) :=
  let size := maxAlign sizeOfXLogRecord
  let startbytepos := insert.currBytePos
  let ptr := xlogBytePosToEndRecPtr g startbytepos
  if ptr % g.walSegmentSize = 0 then none
  else
    let endbytepos := startbytepos + size
    let endPos := xlogBytePosToEndRecPtr g endbytepos
    let segleft := g.walSegmentSize - endPos % g.walSegmentSize
    let endPos' := if segleft ≠ g.walSegmentSize then endPos + segleft else endPos
    let endbytepos' :=
      if segleft ≠ g.walSegmentSize then xlogRecPtrToBytePos g endPos' else endbytepos
    some (⟨xlogBytePosToRecPtr g startbytepos, endPos', xlogBytePosToRecPtr g insert.prevBytePos⟩,
      ⟨endbytepos', startbytepos⟩)

/-- The insert positions that occur: the log begins at an aligned position, and space is
reserved for records and for switches. -/
inductive Reachable : XLogCtlInsert → Prop
  | init (curr prev : Nat) (h : 8 ∣ curr) : Reachable ⟨curr, prev⟩
  | insert {insert : XLogCtlInsert} (h : Reachable insert) (size : Nat) :
    Reachable (reserveXLogInsertLocation g insert size).2
  | switch {insert insert' : XLogCtlInsert} {r : Reservation} (h : Reachable insert)
    (hswitch : reserveXLogSwitch g insert = some (r, insert')) : Reachable insert'

/-! ## Pages -/

variable (p : Nat)

def WalGeometry.header : Nat := if p % g.pages = 0 then sizeOfXLogLongPHD else sizeOfXLogShortPHD

def WalGeometry.usable : Nat := g.blcksz - g.header p

def WalGeometry.before (k : Nat) : Nat :=
  if k = 0 then 0 else g.blcksz - sizeOfXLogLongPHD + (k - 1) * g.usableBytesInPage

def WalGeometry.pageStart : Nat := p / g.pages * g.usableBytesInSegment + g.before (p % g.pages)

variable {g}

theorem header_add_usable : g.header p + g.usable p = g.blcksz := by
  have := g.large
  unfold usable header sizeOfXLogLongPHD sizeOfXLogShortPHD at *
  split <;> omega

theorem usable_pos : 0 < g.usable p := by
  have := g.large
  unfold usable header sizeOfXLogLongPHD sizeOfXLogShortPHD at *
  split <;> omega

theorem header_pos : 0 < g.header p := by
  unfold header sizeOfXLogLongPHD sizeOfXLogShortPHD
  split <;> omega

theorem before_succ (k : Nat) : g.before (k + 1) =
    g.before k + (g.blcksz - if k = 0 then sizeOfXLogLongPHD else sizeOfXLogShortPHD) := by
  unfold before
  rw [if_neg (succ_ne_zero k), Nat.add_sub_cancel]
  by_cases h0 : k = 0
  · simp [h0]
  rw [if_neg h0, if_neg h0]
  obtain ⟨m, rfl⟩ : ∃ m, k = m + 1 := ⟨k - 1, by omega⟩
  rw [Nat.add_sub_cancel, Nat.add_mul, Nat.one_mul, Nat.add_assoc]
  rfl

theorem usableBytesInSegment_eq : g.usableBytesInSegment = g.before g.pages := by
  have hl := g.large
  have hp : 0 < g.blcksz := by omega
  obtain ⟨k, hk⟩ : ∃ k, g.pages = k + 1 := ⟨g.pages - 1, by have := g.pages_pos; omega⟩
  unfold usableBytesInSegment walSegmentSize before
  rw [Nat.mul_div_cancel _ hp, hk, Nat.add_mul, if_neg (succ_ne_zero k), Nat.add_sub_cancel]
  unfold usableBytesInPage sizeOfXLogLongPHD sizeOfXLogShortPHD at *
  omega

theorem pageStart_eq (q : Nat) {k : Nat} (hk : k < g.pages) :
    g.pageStart (q * g.pages + k) = q * g.usableBytesInSegment + g.before k := by
  unfold pageStart
  rw [add_comm (q * g.pages), add_mul_div_right _ _ g.pages_pos, div_eq_of_lt hk,
    add_mul_mod_self_right, mod_eq_of_lt hk, zero_add]

theorem header_eq (q : Nat) {k : Nat} (hk : k < g.pages) : g.header (q * g.pages + k) =
    if k = 0 then sizeOfXLogLongPHD else sizeOfXLogShortPHD := by
  unfold header
  rw [add_comm (q * g.pages), add_mul_mod_self_right, mod_eq_of_lt hk]

theorem page_cases : ∃ q k, k < g.pages ∧ p = q * g.pages + k :=
  ⟨p / g.pages, p % g.pages, mod_lt _ g.pages_pos, by
    rw [mul_comm]
    exact (div_add_mod p g.pages).symm⟩

theorem pageStart_succ : g.pageStart (p + 1) = g.pageStart p + g.usable p := by
  obtain ⟨q, k, hk, rfl⟩ := @page_cases g p
  unfold usable
  rw [pageStart_eq q hk, header_eq q hk, add_assoc _ (g.before k), ← before_succ]
  obtain hlt | hge := lt_or_ge (k + 1) g.pages
  · rw [add_assoc, pageStart_eq q hlt]
  -- the last page of a segment
  have hl : k + 1 = g.pages := by omega
  have heq : q * g.pages + k + 1 = (q + 1) * g.pages + 0 := by
    rw [add_mul]
    omega
  rw [heq, pageStart_eq (q + 1) g.pages_pos, hl, ← usableBytesInSegment_eq, add_mul, one_mul]
  rfl

theorem exists_page (b : Nat) : ∃ p j, j < g.usable p ∧ b = g.pageStart p + j := by
  induction b with
  | zero => exact ⟨0, 0, usable_pos 0, by simp [pageStart, before]⟩
  | succ b ih =>
    obtain ⟨p, j, hj, rfl⟩ := ih
    obtain hlt | hge := lt_or_ge (j + 1) (g.usable p)
    · exact ⟨p, j + 1, hlt, rfl⟩
    · exact ⟨p + 1, 0, usable_pos _, by rw [pageStart_succ]; omega⟩

theorem segment_lt {q k j : Nat} (hk : k < g.pages) (hj : j < g.usable (q * g.pages + k)) :
    g.before k + j < g.usableBytesInSegment := by
  have hm : Monotone g.before := monotone_nat_of_le_succ fun k => by
    rw [before_succ]
    exact le_add_right _ _
  have hn := hm (show k + 1 ≤ g.pages from hk)
  unfold usable at hj
  rw [header_eq q hk] at hj
  rw [before_succ] at hn
  rw [usableBytesInSegment_eq]
  omega

theorem byte_parts {q k j : Nat} (hk : k < g.pages) (hj : j < g.usable (q * g.pages + k)) :
    (g.pageStart (q * g.pages + k) + j) / g.usableBytesInSegment = q ∧
      (g.pageStart (q * g.pages + k) + j) % g.usableBytesInSegment = g.before k + j := by
  have hlt := segment_lt hk hj
  rw [pageStart_eq q hk, add_assoc, add_comm (q * _)]
  exact ⟨by rw [add_mul_div_right _ _ (by omega), div_eq_of_lt hlt, zero_add],
    by rw [add_mul_mod_self_right, mod_eq_of_lt hlt]⟩

theorem page_parts {m j : Nat} (first : Nat) (hj : j < g.usableBytesInPage) :
    (first + m * g.usableBytesInPage + j - first) / g.usableBytesInPage = m ∧
      (first + m * g.usableBytesInPage + j - first) % g.usableBytesInPage = j := by
  rw [Nat.add_assoc, Nat.add_sub_cancel_left, Nat.add_comm]
  exact ⟨by rw [add_mul_div_right _ _ (by omega), div_eq_of_lt hj, zero_add],
    by rw [add_mul_mod_self_right, mod_eq_of_lt hj]⟩

theorem ptrs_pageStart {p j : Nat} (hj : j < g.usable p) :
    xlogBytePosToRecPtr g (g.pageStart p + j) = p * g.blcksz + g.header p + j ∧
      xlogBytePosToEndRecPtr g (g.pageStart p + j) =
        if j = 0 then p * g.blcksz else p * g.blcksz + g.header p + j := by
  obtain ⟨q, k, hk, rfl⟩ := @page_cases g p
  obtain ⟨hd, hm⟩ := byte_parts hk hj
  unfold xlogBytePosToRecPtr xlogBytePosToEndRecPtr
  rw [hd, hm, header_eq q hk]
  unfold usable at hj
  rw [header_eq q hk] at hj
  unfold walSegmentSize before
  by_cases h0 : k = 0
  · rw [if_pos h0] at hj
    simp only [if_pos h0, zero_add, if_pos hj]
    rw [h0, add_zero, mul_assoc]
    exact ⟨by ring, by split <;> ring⟩
  rw [if_neg h0] at hj
  obtain ⟨m, rfl⟩ : ∃ m, k = m + 1 := ⟨k - 1, by omega⟩
  obtain ⟨hp, hb⟩ := @page_parts g m j (g.blcksz - sizeOfXLogLongPHD) hj
  simp only [if_neg h0, Nat.add_sub_cancel]
  rw [if_neg (by omega), if_neg (by omega), hp, hb]
  refine ⟨by ring, ?_⟩
  split
  next hz =>
    rw [hz]
    ring
  · ring

/-- The place of a byte behind the header of its page. -/
theorem recPtr_pageStart {p j : Nat} (hj : j < g.usable p) :
    xlogBytePosToRecPtr g (g.pageStart p + j) = p * g.blcksz + g.header p + j :=
  (ptrs_pageStart hj).1

/-- The end of a record: at the beginning of a page, before its header. -/
theorem endRecPtr_pageStart {p j : Nat} (hj : j < g.usable p) :
    xlogBytePosToEndRecPtr g (g.pageStart p + j) =
      if j = 0 then p * g.blcksz else p * g.blcksz + g.header p + j :=
  (ptrs_pageStart hj).2

/-- The byte position of a place on a page. -/
theorem recPtrToBytePos_page (p : Nat) {o : Nat} (ho : o < g.blcksz) :
    xlogRecPtrToBytePos g (p * g.blcksz + o) =
      g.pageStart p + if 0 < o then o - g.header p else 0 := by
  obtain ⟨q, k, hk, rfl⟩ := @page_cases g p
  have hlt := calc k * g.blcksz + o < (k + 1) * g.blcksz := by rw [add_mul, one_mul]; omega
      _ ≤ g.walSegmentSize := Nat.mul_le_mul_right _ hk
  have he : (q * g.pages + k) * g.blcksz + o = k * g.blcksz + o + q * g.walSegmentSize := by
    unfold walSegmentSize
    ring
  have hof : ((q * g.pages + k) * g.blcksz + o) % g.blcksz = o := by
    rw [mul_add_mod_self_right, mod_eq_of_lt ho]
  have hpg : (k * g.blcksz + o) / g.blcksz = k := by
    rw [add_comm, add_mul_div_right _ _ (by omega), div_eq_of_lt ho, zero_add]
  unfold xlogRecPtrToBytePos
  rw [hof, he, add_mul_div_right _ _ (by omega), div_eq_of_lt hlt, add_mul_mod_self_right,
    mod_eq_of_lt hlt, hpg, zero_add, pageStart_eq q hk, header_eq q hk]
  unfold before
  by_cases h0 : k = 0
  · simp [h0]
  · simp [h0, add_assoc]

theorem recPtrToBytePos_boundary : xlogRecPtrToBytePos g (p * g.blcksz) = g.pageStart p := by
  simpa using @recPtrToBytePos_page g p 0 (by have := g.large; omega)

/-- A switch ends with its record, if that ends a segment, or with the page before the next. -/
theorem reserveXLogSwitch_cases {insert insert' : XLogCtlInsert} {r : Reservation} {E : Nat}
    (hE : xlogBytePosToEndRecPtr g (insert.currBytePos + maxAlign sizeOfXLogRecord) = E)
    (h : reserveXLogSwitch g insert = some (r, insert')) :
    (r.startPos = xlogBytePosToRecPtr g insert.currBytePos ∧
      r.prevPtr = xlogBytePosToRecPtr g insert.prevBytePos ∧
      insert'.prevBytePos = insert.currBytePos) ∧
    (E % g.walSegmentSize = 0 ∧ r.endPos = E ∧
        insert'.currBytePos = insert.currBytePos + maxAlign sizeOfXLogRecord ∨
      E % g.walSegmentSize ≠ 0 ∧ ∃ p, E ≤ p * g.blcksz ∧ r.endPos = p * g.blcksz ∧
        insert'.currBytePos = g.pageStart p) := by
  have hm := mod_lt E (show 0 < g.walSegmentSize from
    mul_pos g.pages_pos (by have := g.large; omega))
  have hd := div_add_mod E g.walSegmentSize
  have he : E + (g.walSegmentSize - E % g.walSegmentSize) =
      (E / g.walSegmentSize + 1) * g.pages * g.blcksz := by
    rw [mul_assoc, mul_comm _ (g.pages * g.blcksz)]
    change _ = g.walSegmentSize * (E / g.walSegmentSize + 1)
    rw [mul_add]
    omega
  unfold reserveXLogSwitch at h
  dsimp only at h
  rw [hE] at h
  split_ifs at h with hi hl
  · cases h
    refine ⟨⟨rfl, rfl, rfl⟩, .inr ⟨by omega, _, ?_, he, ?_⟩⟩
    · omega
    rw [he, recPtrToBytePos_boundary]
  · cases h
    exact ⟨⟨rfl, rfl, rfl⟩, .inl ⟨by omega, rfl, rfl⟩⟩

/-! ## Alignment -/

theorem header_aligned : 8 ∣ g.header p := by
  unfold header sizeOfXLogLongPHD sizeOfXLogShortPHD
  split <;> decide

theorem usable_aligned : 8 ∣ g.usable p := dvd_sub g.aligned (header_aligned p)

theorem pageStart_aligned : 8 ∣ g.pageStart p := by
  induction p with
  | zero => simp [pageStart, before]
  | succ p ih =>
    rw [pageStart_succ]
    exact Nat.dvd_add ih (usable_aligned p)

theorem maxAlign_add {a n : Nat} (h : 8 ∣ a) : maxAlign (a + n) = a + maxAlign n := by
  unfold maxAlign
  omega

theorem maxAlign_endRecPtr (b : Nat) :
    maxAlign (xlogBytePosToEndRecPtr g b) = xlogBytePosToEndRecPtr g (maxAlign b) := by
  obtain ⟨p, j, hj, rfl⟩ := @exists_page g b
  have hp := Dvd.dvd.mul_left g.aligned p
  have hh := @header_aligned g p
  have hu := @usable_aligned g p
  rw [maxAlign_add (pageStart_aligned p), endRecPtr_pageStart hj]
  by_cases h0 : j = 0
  · rw [if_pos h0, h0]
    have hz : maxAlign 0 = 0 := rfl
    rw [hz, endRecPtr_pageStart (usable_pos p), if_pos rfl]
    unfold maxAlign
    omega
  rw [if_neg h0, add_assoc, maxAlign_add hp, maxAlign_add hh]
  obtain hlt | hge := lt_or_ge (maxAlign j) (g.usable p)
  · have hne : maxAlign j ≠ 0 := by
      unfold maxAlign
      omega
    rw [endRecPtr_pageStart hlt, if_neg hne, add_assoc]
  -- the padding fills the page
  have hf : maxAlign j = g.usable p := by
    unfold maxAlign at *
    omega
  have hn := @endRecPtr_pageStart g (p + 1) 0 (usable_pos _)
  rw [add_zero, if_pos rfl, pageStart_succ] at hn
  rw [hf, hn, header_add_usable, add_mul, one_mul]

/-- **Records begin at aligned positions.** -/
theorem Reachable.aligned {insert : XLogCtlInsert} (h : Reachable g insert) :
    8 ∣ insert.currBytePos := by
  induction h with
  | init curr prev h => exact h
  | insert h size ih => exact Nat.dvd_add ih (Dvd.intro_left _ rfl)
  | switch h hs ih =>
    obtain ⟨-, ⟨-, -, hc⟩ | ⟨-, p, -, -, hc⟩⟩ := reserveXLogSwitch_cases rfl hs
    · rw [hc]
      exact Nat.dvd_add ih (by decide)
    rw [hc]
    exact pageStart_aligned p

end AthenaPG.XLog
