import AthenaPG.Access.XLogPositions

/-!
Copying a record to the log (`CopyXLogRecordToWAL` of `src/backend/access/transam/xlog.c`).

The buffers are the log itself: a byte is written to a place of the log.  The state of the copy
carries what the source keeps by hand, that `freespace` is the room left on the page.

* `copyXLogRecordToWAL`: the function, with its panic as an error;
* `Copied`: what holds after some bytes of the record;
* `copyPiece_spec`: one piece of the record;
* **`copyXLogRecordToWAL_agrees`**: what is written is what was reserved.
-/

namespace AthenaPG.XLog
open List Nat

variable (g : WalGeometry)

def insertFreespace (endptr : Nat) : Nat :=
  if endptr % g.blcksz = 0 then 0 else g.blcksz - endptr % g.blcksz

theorem insertFreespace_add {c n : Nat} (h : n ≤ insertFreespace g c) :
    insertFreespace g c - n = insertFreespace g (c + n) := by
  have hp : 0 < g.blcksz := by have := g.large; omega
  have hlt := mod_lt c hp
  unfold insertFreespace at *
  split at h
  next hz => rw [le_zero.mp h, add_zero, if_pos hz]
  rename_i hne
  rw [if_neg hne, add_mod c n]
  obtain hr | hf := lt_or_ge n (g.blcksz - c % g.blcksz)
  · rw [mod_eq_of_lt (show n < g.blcksz by omega),
      mod_eq_of_lt (show c % g.blcksz + n < g.blcksz by omega), if_neg (by omega)]
    omega
  have hs : c % g.blcksz + n = g.blcksz := by omega
  rw [mod_eq_of_lt (show n < g.blcksz by omega), hs, mod_self, if_pos rfl]
  omega

/-- The variables of the copy; `bytes` and `remLens` are what was written to the log so far:
the bytes of the record, and `xlp_rem_len` of the pages it continues on. -/
structure CopyState where
  currPos : Nat
  freespace : Nat
  written : Nat
  bytes : List (Nat × UInt8)
  remLens : List (Nat × Nat)
  free_eq : freespace = insertFreespace g currPos

variable {g}

/-- `memcpy` to a place of the log. -/
def memcpy (dest : Nat) (data : List UInt8) : List (Nat × UInt8) :=
  data.mapIdx fun i byte => (dest + i, byte)

variable (s : CopyState g)

/-- What fits on this page is written, and the next page begins. -/
def CopyState.nextPage (writeLen : Nat) (data : List UInt8) : CopyState g :=
  let written := s.written + s.freespace
  let currPos := s.currPos + s.freespace
  let skipped :=
    if currPos % g.walSegmentSize = 0 then currPos + sizeOfXLogLongPHD
    else currPos + sizeOfXLogShortPHD
  { currPos := skipped
    freespace := insertFreespace g skipped
    written := written
    bytes := s.bytes ++ memcpy s.currPos (data.take s.freespace)
    remLens := s.remLens ++ [(currPos, writeLen - written)]
    free_eq := rfl }

def CopyState.lastPage (data : List UInt8) (h : data.length ≤ s.freespace) :
    CopyState g :=
  { currPos := s.currPos + data.length
    freespace := s.freespace - data.length
    written := s.written + data.length
    bytes := s.bytes ++ memcpy s.currPos data
    remLens := s.remLens
    free_eq := by
      have hfree := s.free_eq
      rw [hfree] at h ⊢
      exact insertFreespace_add g h }

theorem nextPage_freespace (wl : Nat) (data : List UInt8) : (s.nextPage wl data).freespace ≠ 0 := by
  have hl := g.large
  have hb : (s.currPos + s.freespace) % g.blcksz = 0 := by
    have ha := insertFreespace_add g s.free_eq.le
    rw [← s.free_eq, Nat.sub_self] at ha
    unfold insertFreespace at ha
    split at ha
    · assumption
    have := mod_lt (s.currPos + s.freespace) (show 0 < g.blcksz by omega)
    omega
  have hr : ∀ k, 0 < k → k < g.blcksz → insertFreespace g (s.currPos + s.freespace + k) ≠ 0 := by
    intro k hk hlt
    unfold insertFreespace
    rw [add_mod, hb, zero_add, mod_mod, mod_eq_of_lt hlt, if_neg (by omega)]
    omega
  unfold CopyState.nextPage
  dsimp only
  unfold sizeOfXLogLongPHD sizeOfXLogShortPHD at *
  split
  · exact hr 40 (by omega) (by omega)
  · exact hr 24 (by omega) (by omega)

def copyPiece (writeLen : Nat) (s : CopyState g) (data : List UInt8) : CopyState g :=
  if h : s.freespace < data.length then
    copyPiece writeLen (s.nextPage writeLen data) (data.drop s.freespace)
  else s.lastPage data (not_lt.mp h)
termination_by 2 * data.length + (if s.freespace = 0 then 1 else 0)
decreasing_by
  rw [if_neg (nextPage_freespace s writeLen data), length_drop]
  split <;> omega

/-- The rest of the segment after a switch: one page at a time, its header zeroed. -/
def consumePages (g : WalGeometry) (currPos endPos : Nat) : Nat × List Nat :=
  if currPos < endPos then
    let rest := consumePages g (currPos + g.blcksz) endPos
    (rest.1, currPos :: rest.2)
  else (currPos, [])
termination_by endPos - currPos
decreasing_by
  have := g.large
  omega

/-- What a copy left in the log: bytes of the record, `xlp_rem_len` by page, zeroed headers. -/
structure WalWrite where
  bytes : List (Nat × UInt8)
  remLens : List (Nat × Nat)
  zeroed : List Nat

def copyXLogRecordToWAL (g : WalGeometry) (writeLen : Nat) (isLogSwitch : Bool)
    (rdata : List (List UInt8)) (startPos endPos : Nat) : Except String WalWrite :=
  let s := rdata.foldl (copyPiece writeLen) ⟨startPos, insertFreespace g startPos, 0, [], [], rfl⟩
  let last :=
    if isLogSwitch ∧ s.currPos % g.walSegmentSize ≠ 0 then
      consumePages g (s.currPos + s.freespace) endPos
    else (maxAlign s.currPos, [])
  if last.1 ≠ endPos then
    .error "space reserved for WAL record does not match what was written"
  else .ok ⟨s.bytes, s.remLens, last.2⟩

/-! ## Places -/

theorem pageStart_strictMono : StrictMono g.pageStart :=
  strictMono_nat_of_lt_succ fun p => by
    rw [pageStart_succ]
    have := @usable_pos g p
    omega

theorem place_cases {b c : Nat} (h : c = xlogBytePosToRecPtr g b ∨ c = xlogBytePosToEndRecPtr g b) :
    ∃ p, (∃ j, j < g.usable p ∧ b = g.pageStart p + j ∧ c = p * g.blcksz + g.header p + j) ∨
      b = g.pageStart p ∧ c = p * g.blcksz := by
  obtain ⟨p, j, hj, rfl⟩ := @exists_page g b
  rw [recPtr_pageStart hj, endRecPtr_pageStart hj] at h
  obtain h | h := h
  · exact ⟨p, .inl ⟨j, hj, rfl, h⟩⟩
  split at h
  next hz => exact ⟨p, .inr ⟨by rw [hz, add_zero], h⟩⟩
  · exact ⟨p, .inl ⟨j, hj, rfl, h⟩⟩

theorem freespace_inside {p j : Nat} (hj : j < g.usable p) :
    insertFreespace g (p * g.blcksz + g.header p + j) = g.usable p - j := by
  have hs := @header_add_usable g p
  have hp := @header_pos g p
  unfold insertFreespace
  rw [add_assoc, mul_add_mod_self_right, mod_eq_of_lt (by omega), if_neg (by omega)]
  omega

theorem freespace_boundary (p : Nat) : insertFreespace g (p * g.blcksz) = 0 := by
  unfold insertFreespace
  rw [mul_mod_left, if_pos rfl]

theorem endRecPtr_boundary (p : Nat) : xlogBytePosToEndRecPtr g (g.pageStart p) = p * g.blcksz := by
  have := @endRecPtr_pageStart g p 0 (usable_pos p)
  rwa [add_zero, if_pos rfl] at this

theorem recPtr_boundary (p : Nat) :
    xlogBytePosToRecPtr g (g.pageStart p) = p * g.blcksz + g.header p := by
  have := @recPtr_pageStart g p 0 (usable_pos p)
  rwa [add_zero, add_zero] at this

theorem skip_header (p : Nat) :
    (if p * g.blcksz % g.walSegmentSize = 0 then p * g.blcksz + sizeOfXLogLongPHD
      else p * g.blcksz + sizeOfXLogShortPHD) = p * g.blcksz + g.header p := by
  have hp : 0 < g.blcksz := by have := g.large; omega
  have hi : p * g.blcksz % g.walSegmentSize = 0 ↔ p % g.pages = 0 := by
    unfold WalGeometry.walSegmentSize
    rw [mul_mod_mul_right, mul_eq_zero]
    omega
  unfold WalGeometry.header
  by_cases h : p % g.pages = 0
  · rw [if_pos (hi.mpr h), if_pos h]
  · rw [if_neg (fun hz => h (hi.mp hz)), if_neg h]

theorem page_lt_inside {p p' j : Nat} (hj : j < g.usable p) :
    p' * g.blcksz < p * g.blcksz + g.header p + j ↔ p' ≤ p := by
  have hs := @header_add_usable g p
  have hp := @header_pos g p
  constructor
  · intro h
    by_contra hgt
    have := mul_le_mul_right g.blcksz (show p + 1 ≤ p' by omega)
    rw [add_mul] at this
    omega
  · intro h
    have := mul_le_mul_right g.blcksz h
    omega

theorem page_lt_boundary {p p' : Nat} : p' * g.blcksz < p * g.blcksz ↔ p' < p :=
  Nat.mul_lt_mul_right (by have := g.large; omega)

theorem pageStart_lt_inside {p p' j : Nat} (hj : 0 < j) (hj' : j ≤ g.usable p) :
    g.pageStart p' < g.pageStart p + j ↔ p' ≤ p := by
  constructor
  · intro h
    by_contra hgt
    have := (@pageStart_strictMono g).monotone (show p + 1 ≤ p' by omega)
    rw [pageStart_succ] at this
    omega
  · intro h
    have := (@pageStart_strictMono g).monotone h
    omega

theorem page_lt_endRecPtr {p b : Nat} :
    p * g.blcksz < xlogBytePosToEndRecPtr g b ↔ g.pageStart p < b := by
  obtain ⟨p0, j, hj, rfl⟩ := @exists_page g b
  rw [endRecPtr_pageStart hj]
  split
  next hz =>
    rw [page_lt_boundary, hz, add_zero]
    exact pageStart_strictMono.lt_iff_lt.symm
  rw [page_lt_inside hj, pageStart_lt_inside (by omega) hj.le]

/-! ## The copy -/

/-- The state after the bytes `done` of a record that begins at the byte position `start`. -/
structure Copied (start writeLen : Nat) (done : List UInt8) (s : CopyState g) : Prop where
  written : s.written = done.length
  place : s.currPos = xlogBytePosToRecPtr g (start + done.length) ∨
    s.currPos = xlogBytePosToEndRecPtr g (start + done.length)
  first : done = [] → s.currPos = xlogBytePosToRecPtr g start
  bytes : s.bytes = done.mapIdx fun i byte => (xlogBytePosToRecPtr g (start + i), byte)
  remLens : ∀ page rem, (page, rem) ∈ s.remLens ↔ ∃ p, start < g.pageStart p ∧
    p * g.blcksz < s.currPos ∧ page = p * g.blcksz ∧ rem = start + writeLen - g.pageStart p

section Run

variable {st wl : Nat} {done data : List UInt8} {s : CopyState g}

theorem bytes_append {p j : Nat} (hj : j + data.length ≤ g.usable p)
    (hb : st + done.length = g.pageStart p + j) :
    (done.mapIdx fun i byte => (xlogBytePosToRecPtr g (st + i), byte)) ++
        memcpy (p * g.blcksz + g.header p + j) data =
      (done ++ data).mapIdx fun i byte => (xlogBytePosToRecPtr g (st + i), byte) := by
  rw [mapIdx_append]
  congr 1
  unfold memcpy
  refine ext_getElem (by simp) fun i hi _ => ?_
  rw [length_mapIdx] at hi
  rw [getElem_mapIdx, getElem_mapIdx]
  have hp : st + (i + done.length) = g.pageStart p + (j + i) := by omega
  rw [hp, recPtr_pageStart (by omega), add_assoc (p * g.blcksz + g.header p)]

section

variable (h : Copied st wl done s)
include h

theorem Copied.done_ne_nil {p : Nat} (hp : s.currPos = p * g.blcksz) : done ≠ [] := by
  intro hn
  obtain ⟨p', j, hj, rfl⟩ := @exists_page g st
  have hf := h.first hn
  rw [recPtr_pageStart hj] at hf
  have hfr := @freespace_inside g p' j hj
  rw [← hf, hp, freespace_boundary] at hfr
  omega

theorem Copied.pageEnd :
    ∃ p, s.currPos + s.freespace = p * g.blcksz ∧
      st + done.length + s.freespace = g.pageStart p ∧ st < g.pageStart p ∧
      ∀ p', p' * g.blcksz < s.currPos ↔ p' < p := by
  have hf := s.free_eq
  obtain ⟨p, ⟨j, hj, hb, hc⟩ | ⟨hb, hc⟩⟩ := place_cases h.place
  · rw [hc, freespace_inside hj] at hf
    have hs := @header_add_usable g p
    refine ⟨p + 1, ?_, ?_, ?_, fun p' => ?_⟩
    · rw [hc, hf, add_mul]
      omega
    · rw [pageStart_succ]
      omega
    · rw [pageStart_succ]
      omega
    rw [hc, page_lt_inside hj]
    omega
  rw [hc, freespace_boundary] at hf
  have hne := length_pos_iff.mpr (h.done_ne_nil hc)
  exact ⟨p, by rw [hc, hf, add_zero], by omega, by omega, fun p' => by rw [hc, page_lt_boundary]⟩

/-- **A step to the next page.** -/
theorem Copied.nextPage (hlt : s.freespace < data.length) :
    Copied st wl (done ++ data.take s.freespace) (s.nextPage wl data) := by
  obtain ⟨p, hp, hby, hs, hbf⟩ := h.pageEnd
  have hl : (data.take s.freespace).length = s.freespace := by
    rw [length_take]
    omega
  have hn : (s.nextPage wl data).currPos = p * g.blcksz + g.header p := by
    unfold CopyState.nextPage
    dsimp only
    rw [hp, skip_header]
  refine ⟨?_, .inl ?_, fun hnl => ?_, ?_, fun page rem => ?_⟩
  · change s.written + s.freespace = _
    rw [length_append, hl, h.written]
  · rw [hn, length_append, hl, ← add_assoc, hby, recPtr_boundary]
  · obtain ⟨hd, ht⟩ := append_eq_nil_iff.mp hnl
    rw [ht, length_nil] at hl
    rw [hd, length_nil] at hby
    omega
  · change s.bytes ++ memcpy s.currPos (data.take s.freespace) = _
    obtain ⟨p', ⟨j, hj, hb, hc⟩ | ⟨hb, hc⟩⟩ := place_cases h.place
    · have hf := s.free_eq
      rw [hc, freespace_inside hj] at hf
      rw [h.bytes, hc]
      exact bytes_append (by rw [hl]; omega) hb
    have hf := s.free_eq
    rw [hc, freespace_boundary] at hf
    rw [hf, take_zero, append_nil, h.bytes]
    exact append_nil _
  rw [hn]
  change (page, rem) ∈ s.remLens ++ [(s.currPos + s.freespace, wl - (s.written + s.freespace))] ↔ _
  rw [mem_append, h.remLens, mem_singleton, Prod.mk.injEq, hp]
  have hr : wl - (s.written + s.freespace) = st + wl - g.pageStart p := by
    rw [h.written]
    omega
  have hi : ∀ p', p' * g.blcksz < p * g.blcksz + g.header p ↔ p' ≤ p := fun p' =>
    @page_lt_inside g p p' 0 (usable_pos p)
  rw [hr]
  constructor
  · rintro (⟨p', h1, h2, h3, h4⟩ | ⟨h3, h4⟩)
    · exact ⟨p', h1, (hi p').mpr (((hbf p').mp h2).le), h3, h4⟩
    · exact ⟨p, hs, (hi p).mpr le_rfl, h3, h4⟩
  · rintro ⟨p', h1, h2, h3, h4⟩
    obtain hlt' | hge := lt_or_ge p' p
    · exact .inl ⟨p', h1, (hbf p').mpr hlt', h3, h4⟩
    obtain rfl : p' = p := le_antisymm ((hi p').mp h2) hge
    exact .inr ⟨h3, h4⟩

/-- **The rest of a piece.** -/
theorem Copied.lastPage (hle : data.length ≤ s.freespace) :
    Copied st wl (done ++ data) (s.lastPage data hle) ∧
      (data ≠ [] → (s.lastPage data hle).currPos =
        xlogBytePosToEndRecPtr g (st + (done ++ data).length)) := by
  have hf := s.free_eq
  by_cases hn : data = []
  · subst hn
    refine ⟨⟨?_, ?_, fun hd => ?_, ?_, h.remLens⟩, fun hne => absurd rfl hne⟩
    · rw [append_nil]
      exact h.written
    · rw [append_nil]
      exact h.place
    · exact h.first (by rwa [append_nil] at hd)
    rw [append_nil]
    change s.bytes ++ [] = _
    rw [append_nil, h.bytes]
  have hp := length_pos_iff.mpr hn
  obtain ⟨p, ⟨j, hj, hb, hc⟩ | ⟨-, hc⟩⟩ := place_cases h.place
  · rw [hc, freespace_inside hj] at hf
    have he : (s.lastPage data hle).currPos =
        xlogBytePosToEndRecPtr g (st + (done ++ data).length) := by
      change s.currPos + data.length = _
      have hsm := @header_add_usable g p
      rw [length_append, ← add_assoc, hb, hc, add_assoc (g.pageStart p)]
      obtain hlt | hge := lt_or_ge (j + data.length) (g.usable p)
      · rw [endRecPtr_pageStart hlt, if_neg (by omega), add_assoc]
      have hfl : j + data.length = g.usable p := by omega
      rw [hfl, ← pageStart_succ, endRecPtr_boundary, add_mul]
      omega
    refine ⟨⟨?_, .inr he, fun hd => ?_, ?_, fun page rem => ?_⟩, fun _ => he⟩
    · change s.written + data.length = _
      rw [length_append, h.written]
    · exact absurd (append_eq_nil_iff.mp hd).2 hn
    · change s.bytes ++ memcpy s.currPos data = _
      rw [h.bytes, hc]
      exact bytes_append (by omega) hb
    -- no page begins within the piece
    have hs : ∀ p', p' * g.blcksz < (s.lastPage data hle).currPos ↔ p' * g.blcksz < s.currPos := by
      intro p'
      rw [he, page_lt_endRecPtr, hc, page_lt_inside hj, length_append, ← add_assoc, hb, add_assoc,
        pageStart_lt_inside (by omega) (by omega)]
    simp only [hs]
    exact h.remLens page rem
  rw [hc, freespace_boundary] at hf
  omega

/-- **One piece of the record.** -/
theorem copyPiece_spec (data : List UInt8) :
    Copied st wl (done ++ data) (copyPiece wl s data) ∧
      (data ≠ [] → (copyPiece wl s data).currPos =
        xlogBytePosToEndRecPtr g (st + (done ++ data).length)) ∧
      (data = [] → (copyPiece wl s data).currPos = s.currPos) := by
  induction s, data using copyPiece.induct wl generalizing done with
  | case1 s data hlt ih =>
    rw [copyPiece, dif_pos hlt]
    obtain ⟨hc, he, -⟩ := ih (h.nextPage hlt)
    rw [append_assoc, take_append_drop] at hc he
    refine ⟨hc, fun _ => he fun hn => ?_, fun hn => ?_⟩
    · have := congrArg List.length hn
      rw [length_drop, length_nil] at this
      omega
    rw [hn, length_nil] at hlt
    omega
  | case2 s data hle =>
    rw [copyPiece, dif_neg hle]
    obtain ⟨hc, he⟩ := h.lastPage (not_lt.mp hle)
    exact ⟨hc, he, fun hn => by subst hn; rfl⟩

/-- **All pieces.** -/
theorem copyPieces_spec
    (he : done ≠ [] → s.currPos = xlogBytePosToEndRecPtr g (st + done.length))
    (rdata : List (List UInt8)) :
    Copied st wl (done ++ rdata.flatten) (rdata.foldl (copyPiece wl) s) ∧
      (done ++ rdata.flatten ≠ [] → (rdata.foldl (copyPiece wl) s).currPos =
        xlogBytePosToEndRecPtr g (st + (done ++ rdata.flatten).length)) := by
  induction rdata generalizing done s with
  | nil => simpa using ⟨h, he⟩
  | cons data rdata ih =>
    obtain ⟨hc, hs, hnn⟩ := copyPiece_spec h data
    rw [flatten_cons, ← append_assoc, foldl_cons]
    refine ih hc fun hne => ?_
    by_cases hn : data = []
    · rw [hnn hn, hn, append_nil]
      rw [hn, append_nil] at hne
      exact he hne
    exact hs hn

end

end Run

/-! ## Reserved and written space -/

theorem consumePages_eq {a e : Nat} (h : a ≤ e) :
    (consumePages g (a * g.blcksz) (e * g.blcksz)).1 = e * g.blcksz := by
  induction hn : e - a generalizing a with
  | zero =>
    obtain rfl : a = e := by omega
    rw [consumePages, if_neg (lt_irrefl _)]
  | succ n ih =>
    rw [consumePages, if_pos (page_lt_boundary.mpr (by omega))]
    have hnx : a * g.blcksz + g.blcksz = (a + 1) * g.blcksz := by rw [add_mul, one_mul]
    rw [hnx]
    exact ih (by omega) (by omega)

theorem recPtr_lt_endRecPtr {c b : Nat} (h : c < b) :
    xlogBytePosToRecPtr g c < xlogBytePosToEndRecPtr g b := by
  obtain ⟨p, j, hj, rfl⟩ := @exists_page g c
  obtain ⟨p', j', hj', rfl⟩ := @exists_page g b
  have hs := @header_add_usable g p
  rw [recPtr_pageStart hj, endRecPtr_pageStart hj']
  have hp : p ≤ p' := (pageStart_lt_inside (by omega) hj').mp (by omega : _ < _ + (j' + 1))
  obtain hlt | rfl := lt_or_eq_of_le hp
  · have := mul_le_mul_right g.blcksz (show p + 1 ≤ p' by omega)
    rw [add_mul] at this
    split <;> omega
  rw [if_neg (by omega)]
  omega

theorem endRecPtr_le_recPtr (b : Nat) : xlogBytePosToEndRecPtr g b ≤ xlogBytePosToRecPtr g b := by
  obtain ⟨p, j, hj, rfl⟩ := @exists_page g b
  rw [recPtr_pageStart hj, endRecPtr_pageStart hj]
  split <;> omega

theorem recPtr_mono {a c : Nat} (h : a ≤ c) :
    xlogBytePosToRecPtr g a ≤ xlogBytePosToRecPtr g c := by
  obtain hlt | rfl := lt_or_eq_of_le h
  · exact le_trans (recPtr_lt_endRecPtr hlt).le (endRecPtr_le_recPtr c)
  · exact le_rfl

theorem header_le_recPtr (c : Nat) :
    g.header (xlogBytePosToRecPtr g c / g.blcksz) ≤ xlogBytePosToRecPtr g c % g.blcksz := by
  obtain ⟨p, j, hj, rfl⟩ := @exists_page g c
  have hs := @header_add_usable g p
  have hd : (p * g.blcksz + g.header p + j) / g.blcksz = p := by
    rw [add_assoc, add_comm, add_mul_div_right _ _ (by omega), div_eq_of_lt (by omega), zero_add]
  rw [recPtr_pageStart hj, hd, add_assoc, mul_add_mod_self_right, mod_eq_of_lt (by omega)]
  omega

theorem recPtr_eq_page_iff {b p : Nat} :
    xlogBytePosToRecPtr g b = p * g.blcksz + g.header p ↔ b = g.pageStart p := by
  constructor
  · intro h
    obtain ⟨p', j, hj, rfl⟩ := @exists_page g b
    rw [recPtr_pageStart hj] at h
    have hle : p ≤ p' := (@page_lt_inside g p' p j hj).mp (by
      rw [h]
      have := @header_pos g p
      omega)
    have hge : p' ≤ p := (@page_lt_inside g p p' 0 (usable_pos p)).mp (by
      rw [add_zero, ← h]
      have := @header_pos g p'
      omega)
    obtain rfl := le_antisymm hle hge
    omega
  · rintro rfl
    exact recPtr_boundary p

/-- What is written agrees with what was reserved for a record at the byte position `start`: its
bytes are in order, in the reserved range and outside of headers, and each page on which a byte
but the first comes first says how many bytes of the record remain there. -/
structure Agrees (start : Nat) (data : List UInt8) (r : Reservation) (w : WalWrite) : Prop where
  bytes : w.bytes = data.mapIdx fun i byte => (xlogBytePosToRecPtr g (start + i), byte)
  inside : ∀ x ∈ w.bytes, r.startPos ≤ x.1 ∧ x.1 < r.endPos ∧
    g.header (x.1 / g.blcksz) ≤ x.1 % g.blcksz
  remLens : ∀ page rem, (page, rem) ∈ w.remLens ↔ ∃ p i, 0 < i ∧ i < data.length ∧
    xlogBytePosToRecPtr g (start + i) = p * g.blcksz + g.header p ∧
    page = p * g.blcksz ∧ rem = data.length - i

theorem copied_record (st : Nat) {rdata : List (List UInt8)} (hne : rdata.flatten ≠ []) :
    ∃ s : CopyState g, rdata.foldl (copyPiece rdata.flatten.length)
        ⟨xlogBytePosToRecPtr g st, insertFreespace g (xlogBytePosToRecPtr g st), 0, [], [],
          rfl⟩ = s ∧
      Copied st rdata.flatten.length rdata.flatten s ∧
      s.currPos = xlogBytePosToEndRecPtr g (st + rdata.flatten.length) := by
  obtain ⟨p0, j0, hj0, hs⟩ := @exists_page g st
  have hi : Copied st rdata.flatten.length []
      (⟨xlogBytePosToRecPtr g st, insertFreespace g (xlogBytePosToRecPtr g st), 0, [], [],
        rfl⟩ : CopyState g) := by
    refine ⟨rfl, .inl rfl, fun _ => rfl, rfl, fun page rem => ?_⟩
    simp only [not_mem_nil, false_iff]
    rintro ⟨p, hlt, hp, -⟩
    -- no page begins after the first byte and before it
    rw [hs, recPtr_pageStart hj0, page_lt_inside hj0] at hp
    have := (@pageStart_strictMono g).monotone hp
    omega
  have hr := copyPieces_spec hi (fun h => absurd rfl h) rdata
  exact ⟨_, rfl, hr.1, hr.2 hne⟩

theorem Copied.agrees {st : Nat} {data : List UInt8} {s : CopyState g}
    (h : Copied st data.length data s)
    (he : s.currPos = xlogBytePosToEndRecPtr g (st + data.length)) {r : Reservation}
    (hr : r.startPos = xlogBytePosToRecPtr g st)
    (hr' : xlogBytePosToEndRecPtr g (st + data.length) ≤ r.endPos) (zeroed : List Nat) :
    @Agrees g st data r ⟨s.bytes, s.remLens, zeroed⟩ := by
  refine ⟨h.bytes, fun x hx => ?_, fun page rem => ?_⟩
  · rw [h.bytes] at hx
    obtain ⟨i, hi, rfl⟩ := mem_mapIdx.mp hx
    rw [hr]
    exact ⟨recPtr_mono (le_add_right _ _),
      lt_of_lt_of_le (recPtr_lt_endRecPtr (by omega)) hr', header_le_recPtr _⟩
  rw [h.remLens]
  constructor
  · rintro ⟨p, hlt, hpg, rfl, rfl⟩
    rw [he, page_lt_endRecPtr] at hpg
    exact ⟨p, g.pageStart p - st, by omega, by omega,
      recPtr_eq_page_iff.mpr (by omega), rfl, by omega⟩
  · rintro ⟨p, i, hps, hi, hp, rfl, rfl⟩
    have hb := recPtr_eq_page_iff.mp hp
    refine ⟨p, by omega, ?_, rfl, by omega⟩
    rw [he, page_lt_endRecPtr]
    omega

theorem copy_of_last {wl startPos endPos : Nat} {isLogSwitch : Bool}
    {rdata : List (List UInt8)} {s : CopyState g} {last : Nat × List Nat}
    (hr : rdata.foldl (copyPiece wl) ⟨startPos, insertFreespace g startPos, 0, [], [], rfl⟩ = s)
    (hl : (if isLogSwitch ∧ s.currPos % g.walSegmentSize ≠ 0 then
      consumePages g (s.currPos + s.freespace) endPos else (maxAlign s.currPos, [])) = last)
    (heq : last.1 = endPos) :
    copyXLogRecordToWAL g wl isLogSwitch rdata startPos endPos =
      .ok ⟨s.bytes, s.remLens, last.2⟩ := by
  unfold copyXLogRecordToWAL
  dsimp only
  rw [hr, hl, if_neg (not_not.mpr heq)]

/-- **Reserved and written space agree.**  From every insert position that occurs, copying a
record to the space that was reserved for it ends where the reservation ends, with
`ReserveXLogInsertLocation` for any record and with `ReserveXLogSwitch` for a switch. -/
theorem copyXLogRecordToWAL_agrees (g : WalGeometry) {insert : XLogCtlInsert}
    (hreach : Reachable g insert) (rdata : List (List UInt8))
    (hsize : sizeOfXLogRecord ≤ rdata.flatten.length) :
    (∃ w, copyXLogRecordToWAL g rdata.flatten.length false rdata
        (reserveXLogInsertLocation g insert rdata.flatten.length).1.startPos
        (reserveXLogInsertLocation g insert rdata.flatten.length).1.endPos = .ok w ∧
      @Agrees g insert.currBytePos rdata.flatten
        (reserveXLogInsertLocation g insert rdata.flatten.length).1 w) ∧
    (rdata.flatten.length = sizeOfXLogRecord → ∀ r insert',
      reserveXLogSwitch g insert = some (r, insert') →
      ∃ w, copyXLogRecordToWAL g rdata.flatten.length true rdata r.startPos r.endPos = .ok w ∧
        @Agrees g insert.currBytePos rdata.flatten r w) := by
  have hne : rdata.flatten ≠ [] := by
    intro hnl
    rw [hnl] at hsize
    exact absurd hsize (by decide)
  have ha := hreach.aligned
  obtain ⟨s, hr, hc, he⟩ := @copied_record g insert.currBytePos rdata hne
  constructor
  · have hl : maxAlign s.currPos =
        xlogBytePosToEndRecPtr g (insert.currBytePos + maxAlign rdata.flatten.length) := by
      rw [he, maxAlign_endRecPtr, maxAlign_add ha]
    refine ⟨_, copy_of_last hr (if_neg fun h => Bool.false_ne_true h.1) hl, hc.agrees he rfl ?_ _⟩
    · change _ ≤ xlogBytePosToEndRecPtr g (insert.currBytePos + maxAlign rdata.flatten.length)
      rw [← hl, he]
      unfold maxAlign
      omega
  intro hln r insert' hs
  have hsm : maxAlign sizeOfXLogRecord = rdata.flatten.length := by
    rw [hln]
    rfl
  obtain ⟨⟨hst, -⟩, ⟨hz, hen, -⟩ | ⟨hz, q, hq, hen, -⟩⟩ :=
    reserveXLogSwitch_cases (hsm ▸ he.symm) hs
  · -- the record itself ends the segment
    have hl : maxAlign s.currPos = s.currPos := by
      rw [he, maxAlign_endRecPtr, maxAlign_add ha, hln]
      rfl
    rw [hst, hen]
    exact ⟨_, copy_of_last hr (if_neg fun h => h.2 hz) hl, hc.agrees he hst (he ▸ hen.ge) _⟩
  obtain ⟨p, hp, -, -, hb⟩ := hc.pageEnd
  have hle : p ≤ q := by
    by_contra hlt
    have := (hb _).mpr (not_le.mp hlt)
    omega
  have hl : (consumePages g (s.currPos + s.freespace) (q * g.blcksz)).1 = q * g.blcksz := by
    rw [hp]
    exact consumePages_eq hle
  rw [hst, hen]
  exact ⟨_, copy_of_last hr (if_pos ⟨rfl, hz⟩) hl, hc.agrees he hst (he ▸ hen ▸ hq) _⟩

/-- A record of 40 bytes in two pieces, 16 bytes before the end of a page of 64. -/
theorem copyXLogRecordToWAL_agrees_twoPieces :
    ∃ w, copyXLogRecordToWAL ⟨64, 2, by decide, by decide, by decide⟩ 40 false
        [List.replicate 24 1, List.replicate 16 2] 48 112 = .ok w := by
  obtain ⟨w, hw, -⟩ := (copyXLogRecordToWAL_agrees ⟨64, 2, by decide, by decide, by decide⟩
    (.init 8 0 (by decide)) [List.replicate 24 1, List.replicate 16 2] (by decide)).1
  exact ⟨w, hw⟩

end AthenaPG.XLog
