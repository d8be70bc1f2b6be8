import AthenaPG.Access.XLogInsert

/-!
The order of positions in the write-ahead log, and of the space that is reserved there.

* `Reserved`: what one call that reserves space does;
* `walPositions_ordered`: the conversions are ordered, and so are successive reservations.
-/

namespace AthenaPG.XLog
open Nat List

variable (g : WalGeometry)

/-- What a call reserves, and the insert positions it leaves. -/
structure Reserved (insert : XLogCtlInsert) (r : Reservation) (insert' : XLogCtlInsert) : Prop where
  startPos : r.startPos = xlogBytePosToRecPtr g insert.currBytePos
  endPos : r.endPos = xlogBytePosToEndRecPtr g insert'.currBytePos
  prevPtr : r.prevPtr = xlogBytePosToRecPtr g insert.prevBytePos
  prev : insert'.prevBytePos = insert.currBytePos
  curr : insert.currBytePos < insert'.currBytePos

/-- Successive calls, and what they reserve.  A record has data, and a switch at the beginning of
a segment reserves nothing. -/
inductive Reserves : XLogCtlInsert → List Reservation → XLogCtlInsert → Prop
  | nil (insert : XLogCtlInsert) : Reserves insert [] insert
  | insert {insert last : XLogCtlInsert} {size : Nat} {rs : List Reservation} (hsize : 0 < size)
    (h : Reserves (reserveXLogInsertLocation g insert size).2 rs last) :
    Reserves insert ((reserveXLogInsertLocation g insert size).1 :: rs) last
  | switch {insert insert' last : XLogCtlInsert} {r : Reservation} {rs : List Reservation}
    (hswitch : reserveXLogSwitch g insert = some (r, insert')) (h : Reserves insert' rs last) :
    Reserves insert (r :: rs) last
  | switchNothing {insert last : XLogCtlInsert} {rs : List Reservation}
    (hswitch : reserveXLogSwitch g insert = none) (h : Reserves insert rs last) :
    Reserves insert rs last

/-- Nothing but a page header lies between two reservations, and the second names the first. -/
structure Adjacent (r r' : Reservation) : Prop where
  prevPtr : r'.prevPtr = r.startPos
  next : r'.startPos = r.endPos ∨
    ∃ p, r.endPos = p * g.blcksz ∧ r'.startPos = p * g.blcksz + g.header p

/-- The reservations `rs` begin at the insert positions, do not overlap and leave no gap. -/
structure Consecutive (insert : XLogCtlInsert) (rs : List Reservation) : Prop where
  nonempty : ∀ r ∈ rs, r.startPos < r.endPos
  disjoint : rs.Pairwise fun r r' => r.endPos ≤ r'.startPos
  adjacent : rs.IsChain (Adjacent g)
  after : ∀ r ∈ rs, xlogBytePosToRecPtr g insert.currBytePos ≤ r.startPos
  first : ∀ r ∈ rs.head?, r.startPos = xlogBytePosToRecPtr g insert.currBytePos ∧
    r.prevPtr = xlogBytePosToRecPtr g insert.prevBytePos

variable {g} {insert insert' : XLogCtlInsert} {r : Reservation} {rs : List Reservation}

/-! ## Positions -/

theorem recPtrToBytePos_recPtr (b : Nat) : xlogRecPtrToBytePos g (xlogBytePosToRecPtr g b) = b := by
  obtain ⟨p, j, hj, rfl⟩ := @exists_page g b
  have hs := @header_add_usable g p
  have hp := @header_pos g p
  rw [recPtr_pageStart hj, add_assoc, recPtrToBytePos_page p (by omega), if_pos (by omega),
    Nat.add_sub_cancel_left]

theorem recPtr_ne_endRecPtr_iff (b : Nat) :
    xlogBytePosToRecPtr g b ≠ xlogBytePosToEndRecPtr g b ↔ ∃ p, b = g.pageStart p := by
  constructor
  · intro h
    obtain ⟨p, j, hj, rfl⟩ := @exists_page g b
    rw [recPtr_pageStart hj, endRecPtr_pageStart hj] at h
    split at h
    next hz => exact ⟨p, by rw [hz, add_zero]⟩
    · exact absurd rfl h
  · rintro ⟨p, rfl⟩
    have := @header_pos g p
    rw [recPtr_boundary, endRecPtr_boundary]
    omega

theorem recPtrToBytePos_endRecPtr (b : Nat) :
    xlogRecPtrToBytePos g (xlogBytePosToEndRecPtr g b) = b := by
  by_cases h : xlogBytePosToRecPtr g b = xlogBytePosToEndRecPtr g b
  · rw [← h, recPtrToBytePos_recPtr]
  obtain ⟨p, rfl⟩ := (recPtr_ne_endRecPtr_iff b).mp h
  rw [endRecPtr_boundary, recPtrToBytePos_boundary]

theorem recPtr_strictMono : StrictMono (xlogBytePosToRecPtr g) := fun _ b h =>
  (recPtr_lt_endRecPtr h).trans_le (endRecPtr_le_recPtr b)

theorem endRecPtr_strictMono : StrictMono (xlogBytePosToEndRecPtr g) := fun a _ h =>
  (endRecPtr_le_recPtr a).trans_lt (recPtr_lt_endRecPtr h)

/-! ## Reservations -/

theorem reserveXLogInsertLocation_reserved (insert : XLogCtlInsert) {size : Nat} (h : 0 < size) :
    Reserved g insert (reserveXLogInsertLocation g insert size).1
      (reserveXLogInsertLocation g insert size).2 := by
  refine ⟨rfl, rfl, rfl, rfl, ?_⟩
  change insert.currBytePos < insert.currBytePos + maxAlign size
  unfold maxAlign
  omega

theorem reserveXLogSwitch_reserved (h : reserveXLogSwitch g insert = some (r, insert')) :
    Reserved g insert r insert' := by
  have hz : maxAlign sizeOfXLogRecord = 24 := rfl
  obtain ⟨⟨hs, hp, hc⟩, ⟨-, he, hn⟩ | ⟨-, p, hle, he, hn⟩⟩ := reserveXLogSwitch_cases rfl h
  · exact ⟨hs, by rw [he, hn], hp, hc, by omega⟩
  refine ⟨hs, by rw [he, hn, endRecPtr_boundary], hp, hc, ?_⟩
  rw [← endRecPtr_boundary, endRecPtr_strictMono.le_iff_le] at hle
  omega

theorem Consecutive.cons (h : Reserved g insert r insert') (hrs : Consecutive g insert' rs) :
    Consecutive g insert (r :: rs) where
  nonempty := by
    rintro r' (_ | ⟨_, hr⟩)
    · rw [h.startPos, h.endPos]
      exact recPtr_lt_endRecPtr h.curr
    · exact hrs.nonempty r' hr
  disjoint := by
    refine pairwise_cons.mpr ⟨fun r' hr => ?_, hrs.disjoint⟩
    rw [h.endPos]
    exact (endRecPtr_le_recPtr _).trans (hrs.after r' hr)
  adjacent := by
    cases rs with
    | nil => exact .singleton r
    | cons r' rs =>
      obtain ⟨hs, hp⟩ := hrs.first r' rfl
      refine isChain_cons_cons.mpr ⟨⟨by rw [hp, h.prev, h.startPos], ?_⟩, hrs.adjacent⟩
      rw [hs, h.endPos]
      by_cases hb : xlogBytePosToRecPtr g insert'.currBytePos =
          xlogBytePosToEndRecPtr g insert'.currBytePos
      · exact .inl hb
      obtain ⟨p, hp⟩ := (recPtr_ne_endRecPtr_iff _).mp hb
      exact .inr ⟨p, by rw [hp, endRecPtr_boundary], by rw [hp, recPtr_boundary]⟩
  after := by
    rintro r' (_ | ⟨_, hr⟩)
    · exact h.startPos.ge
    · exact (recPtr_mono h.curr.le).trans (hrs.after r' hr)
  first := by
    rintro r' ⟨⟩
    exact ⟨h.startPos, h.prevPtr⟩

theorem Reserves.consecutive {last : XLogCtlInsert} (h : Reserves g insert rs last) :
    Consecutive g insert rs := by
  induction h with
  | nil insert => exact ⟨by simp, .nil, .nil, by simp, by simp⟩
  | insert hsize h ih => exact ih.cons (reserveXLogInsertLocation_reserved _ hsize)
  | switch hs h ih => exact ih.cons (reserveXLogSwitch_reserved hs)
  | switchNothing hs h ih => exact ih

/-- **Positions in the log are in the order of the bytes, and so are reservations.** -/
theorem walPositions_ordered (g : WalGeometry) :
    (∀ b, xlogRecPtrToBytePos g (xlogBytePosToRecPtr g b) = b ∧
      xlogRecPtrToBytePos g (xlogBytePosToEndRecPtr g b) = b) ∧
    StrictMono (xlogBytePosToRecPtr g) ∧ StrictMono (xlogBytePosToEndRecPtr g) ∧
    (∀ b, g.header (xlogBytePosToRecPtr g b / g.blcksz) ≤ xlogBytePosToRecPtr g b % g.blcksz) ∧
    (∀ b, xlogBytePosToRecPtr g b ≠ xlogBytePosToEndRecPtr g b ↔ ∃ p, b = g.pageStart p) ∧
    ∀ insert rs last, Reserves g insert rs last → Consecutive g insert rs :=
  ⟨fun b => ⟨recPtrToBytePos_recPtr b, recPtrToBytePos_endRecPtr b⟩, recPtr_strictMono,
    endRecPtr_strictMono, header_le_recPtr, recPtr_ne_endRecPtr_iff,
    fun _ _ _ h => h.consecutive⟩

end AthenaPG.XLog
