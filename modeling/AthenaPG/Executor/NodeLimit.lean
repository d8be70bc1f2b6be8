import Mathlib.Data.List.TakeWhile

/-!
`LIMIT` as a window cursor (`src/backend/executor/nodeLimit.c`).

`ExecLimit` keeps its own position beside a subplan that may be level with it, one row ahead
or past the end.  Proved here, for every subplan that is a cursor over a list:

* `execLimit_tracks`: one call, from any of the states and in either direction, does what one
  step of a cursor over the window does, and the node keeps track of that cursor;
* `execLimit_windowCursor`: any sequence of calls returns what the cursor over the window
  returns, and no call raises an error.

`position` counts fetched rows, so it never exceeds the subplan's length and is a `Nat`.
`ExecSetTupleBound`, a hint to the subplan, is left out.
-/

namespace AthenaPG.NodeLimit
open List

variable {α : Type}

/-! ## Cursors -/

/-- `es_direction` of a call: `ForwardScanDirection` or `BackwardScanDirection`. -/
inductive ScanDirection where
  | forward
  | backward
  deriving DecidableEq, Repr

/-- A bidirectional cursor over `rows`: before the first row at `0`, on row `pos` from `1` on,
after the last one at `rows.length + 1`. -/
structure Cursor (α : Type) where
  rows : List α
  pos : Nat := 0

open Cursor

/-- One step of a cursor; `none` when it leaves the rows. -/
def Cursor.fetch (cursor : Cursor α) : ScanDirection → Option α × Cursor α
  | .forward => (cursor.rows[cursor.pos]?,
      { cursor with pos := min (cursor.pos + 1) (cursor.rows.length + 1) })
  | .backward => (if cursor.pos ≤ 1 then none else cursor.rows[cursor.pos - 2]?,
      { cursor with pos := cursor.pos - 1 })

def Cursor.fetchAll (cursor : Cursor α) : List ScanDirection → List (Option α)
  | [] => []
  | direction :: calls =>
    (cursor.fetch direction).1 :: (cursor.fetch direction).2.fetchAll calls

/-- The window: rows `offset + 1` to `offset + count`, or all after `offset` without a count,
extended by the run of rows that tie with the last one. -/
def window (rows : List α) (offset : Nat) :
    Option Nat → Option (α → α → Bool) → List α
  | none, _ => rows.drop offset
  | some count, none => (rows.drop offset).take count
  | some count, some tie =>
    let last := ((rows.drop offset).take count).getLast?
    let ties := (rows.drop (offset + count)).takeWhile fun row => last.any (tie row)
    (rows.drop offset).take (count + ties.length)

/-! ## The node -/

inductive LimitOption where
  | count
  | withTies
  deriving DecidableEq, Repr

inductive LimitStateCond where
  | initial
  | rescan
  | empty
  | inWindow
  | windowEndTies
  | subplanEof
  | windowEnd
  | windowStart
  deriving DecidableEq, Repr

/-- `LimitState`.  An expression is `none` when the clause is absent, and otherwise has its
value, `none` for NULL.  `eqfunction` compares a new row with the last one of the count. -/
structure LimitState (α : Type) where
  limitOffset : Option (Option Int)
  limitCount : Option (Option Int)
  limitOption : LimitOption
  eqfunction : α → α → Bool
  outerPlan : Cursor α
  offset : Nat := 0
  count : Nat := 0
  noCount : Bool := false
  lstate : LimitStateCond := .initial
  position : Nat := 0
  subSlot : Option α := none
  lastSlot : Option α := none

/-- `ExecInitLimit`, over a subplan that has not started. -/
def execInitLimit (limitOffset limitCount : Option (Option Int)) (limitOption : LimitOption)
    (eqfunction : α → α → Bool) (rows : List α) : LimitState α :=
  { limitOffset, limitCount, limitOption, eqfunction, outerPlan := { rows } }

variable (node : LimitState α)

def recomputeLimits : Except String (LimitState α) := do
  let offset ← match node.limitOffset with
    | none | some none => pure 0
    | some (some val) =>
      if val < 0 then throw "OFFSET must not be negative" else pure val.toNat
  let limit : Nat × Bool ← match node.limitCount with
    | none | some none => pure (0, true)
    | some (some val) =>
      if val < 0 then throw "LIMIT must not be negative" else pure (val.toNat, false)
  return { node with
    offset, count := limit.1, noCount := limit.2, position := 0, subSlot := none
    lstate := .rescan }

/-- `ExecProcNode(outerPlan)`. -/
def execProcNode (direction : ScanDirection) :
    Option α × LimitState α :=
  let (slot, outerPlan) := node.outerPlan.fetch direction
  (slot, { node with outerPlan })

/-- Take over a fetched row, copied to `last_slot` when it is the last one of the count. -/
def takeRow (slot : α) : LimitState α :=
  { node with
    lastSlot := if node.limitOption = .withTies ∧
        (node.position : Int) - node.offset = (node.count : Int) - 1 then some slot
      else node.lastSlot
    subSlot := some slot
    position := node.position + 1 }

/-- The loop of `LIMIT_RESCAN`: fetch rows until `position > offset`. -/
def skipOffset (node : LimitState α) : Option α × LimitState α :=
  match _fetched : execProcNode node .forward with
  | (none, next) => (none, { next with lstate := .empty })
  | (some slot, next) =>
    if (takeRow next slot).position > next.offset then
      (some slot, { takeRow next slot with lstate := .inWindow })
    else skipOffset (takeRow next slot)
  termination_by node.outerPlan.rows.length - node.outerPlan.pos
  decreasing_by
    simp only [execProcNode, fetch, Prod.mk.injEq] at _fetched
    obtain ⟨hslot, rfl⟩ := _fetched
    have hlt := (List.getElem?_eq_some_iff.1 hslot).1
    simp only [takeRow]
    omega

/-- `ExecLimit` in the state `LIMIT_RESCAN`. -/
def rescan : ScanDirection → Option α × LimitState α
  | .backward => (none, node)
  | .forward =>
    if node.count ≤ 0 ∧ ¬ node.noCount then (none, { node with lstate := .empty })
    else skipOffset node

def stepBack : Except String (Option α × LimitState α) := match execProcNode node .backward with
  | (none, _) => throw "LIMIT subplan failed to run backwards"
  | (some slot, node) =>
    return (some slot, { node with subSlot := some slot, lstate := .inWindow })

/-- A step back inside the window, which may leave it at its start. -/
def backward : Except String (Option α × LimitState α) :=
  if node.position ≤ node.offset + 1 then return (none, { node with lstate := .windowStart })
  else do
    let (slot, node) ← stepBack node
    return (slot, { node with position := node.position - 1 })

/-- `ExecLimit` forward in the state `LIMIT_WINDOWEND_TIES`. -/
def forwardTies : Option α × LimitState α := match execProcNode node .forward with
  | (none, node) => (none, { node with lstate := .subplanEof })
  | (some slot, node) =>
    if node.lastSlot.any (node.eqfunction slot) then
      (some slot, { node with subSlot := some slot, position := node.position + 1 })
    else (none, { node with lstate := .windowEnd })

/-- `ExecLimit` forward in the state `LIMIT_INWINDOW`. -/
def forwardInWindow : Option α × LimitState α :=
  if !node.noCount ∧ (node.position : Int) - node.offset ≥ node.count then
    if node.limitOption = .count then (none, { node with lstate := .windowEnd })
    else forwardTies { node with lstate := .windowEndTies }
  else
    match execProcNode node .forward with
    | (none, node) => (none, { node with lstate := .subplanEof })
    | (some slot, node) => (some slot, takeRow node slot)

def execLimit (direction : ScanDirection) :
    Except String (Option α × LimitState α) :=
  match node.lstate, direction with
  | .initial, _ => return rescan (← recomputeLimits node) direction
  | .rescan, _ => return rescan node direction
  | .empty, _ => return (none, node)
  | .inWindow, .forward => return forwardInWindow node
  | .inWindow, .backward => backward node
  | .windowEndTies, .forward => return forwardTies node
  | .windowEndTies, .backward => backward node
  | .subplanEof, .forward => return (none, node)
  | .subplanEof, .backward => stepBack node
  | .windowEnd, .forward => return (none, node)
  | .windowEnd, .backward =>
    if node.limitOption = .withTies then stepBack node
    else return (node.subSlot, { node with lstate := .inWindow })
  | .windowStart, .forward => return (node.subSlot, { node with lstate := .inWindow })
  | .windowStart, .backward => return (none, node)

def execLimitAll (node : LimitState α) : List ScanDirection → Except String (List (Option α))
  | [] => return []
  | direction :: calls => do
    let (slot, node) ← execLimit node direction
    return slot :: (← execLimitAll node calls)

/-! ## The window, row by row -/

theorem lt_length_takeWhile (p : α → Bool) (rows : List α) (i : Nat)
    (hi : i ≤ (rows.takeWhile p).length) :
    i < (rows.takeWhile p).length ↔ rows[i]?.any p = true := by
  induction rows generalizing i with
  | nil => simp
  | cons row rows ih =>
    cases hr : p row with
    | false =>
      obtain rfl : i = 0 := by simpa [hr] using hi
      simp [hr]
    | true =>
      rw [takeWhile_cons_of_pos hr] at hi ⊢
      cases i with
      | zero => simp [hr]
      | succ i => simpa using ih i (by simpa using hi)

variable (rows : List α) (offset c w : Nat)

theorem window_row (count : Option Nat) (tie : Option (α → α → Bool))
    (hw : w < (window rows offset count tie).length ∨ ∀ c ∈ count, w < c) :
    (window rows offset count tie)[w]? = rows[offset + w]? := by
  rw [← getElem?_drop]
  obtain _ | c := count
  · rfl
  rcases tie with _ | tie <;>
    (simp only [window, length_take, Option.mem_some_iff, forall_eq'] at hw ⊢
     rw [getElem?_take, if_pos (by omega)])

theorem window_ties (tie : α → α → Bool) (hc : c ≤ w) (hp : 1 ≤ w)
    (hw : w ≤ (window rows offset (some c) (some tie)).length) :
    (window rows offset (some c) (some tie))[w]? =
      rows[offset + w]?.filter fun row => rows[offset + (c - 1)]?.any (tie row) := by
  simp only [window, length_take] at hw ⊢
  have hcn : c ≠ 0 := by
    rintro rfl
    cases hrw : rows.drop offset <;> simp [hrw] at hw <;> omega
  have hl : ((rows.drop offset).take c).getLast? = rows[offset + (c - 1)]? := by
    rw [getLast?_eq_getElem?, length_take, min_eq_left (by omega), getElem?_take,
      if_pos (by omega), getElem?_drop]
  rw [hl] at hw ⊢
  have hr := lt_length_takeWhile (fun row => rows[offset + (c - 1)]?.any (tie row))
    (rows.drop (offset + c)) (w - c) (by omega)
  rw [getElem?_drop, show offset + c + (w - c) = offset + w by omega] at hr
  rw [getElem?_take, getElem?_drop]
  cases hrow : rows[offset + w]? with
  | none => simp
  | some row =>
    rw [hrow, Option.any_some] at hr
    exact if_congr (Iff.trans (by omega) hr) rfl rfl

/-- The window of a node whose limits are computed. -/
def nodeWindow : List α :=
  window node.outerPlan.rows node.offset (if node.noCount then none else some node.count)
    (if node.limitOption = .withTies then some node.eqfunction else none)

theorem nodeWindow_row (i : Nat) (hi : i < (nodeWindow node).length) :
    (nodeWindow node)[i]? = node.outerPlan.rows[node.offset + i]? :=
  window_row _ _ _ _ _ (Or.inl hi)

/-! ## The node follows the window's cursor -/

/-- The node stands on row `w` of the window and the subplan on row `p` after the offset. -/
structure At (node : LimitState α) (w p : Nat) : Prop where
  pos : 1 ≤ w
  le : w ≤ (nodeWindow node).length
  position : node.position = node.offset + w
  outer : node.outerPlan.pos = node.offset + p
  sub : node.subSlot = (nodeWindow node)[w - 1]?
  last : node.limitOption = .withTies → node.noCount = false → node.count ≤ w →
    node.lastSlot = node.outerPlan.rows[node.offset + (node.count - 1)]?

/-- Where the node and its subplan stand, state by state, when the window's cursor is at `w`. -/
def Tracks (w : Nat) : Prop := match node.lstate with
  | .initial => False
  | .rescan => w = 0 ∧ node.position = 0 ∧ node.outerPlan.pos = 0
  | .empty => nodeWindow node = []
  | .inWindow => At node w w
  | .windowEndTies => At node w w ∧ node.limitOption = .withTies ∧
      node.noCount = false ∧ node.count ≤ w
  | .subplanEof => w = (nodeWindow node).length + 1 ∧ At node (nodeWindow node).length w
  | .windowEnd => w = (nodeWindow node).length + 1 ∧
      At node (nodeWindow node).length (if node.limitOption = .withTies then w else w - 1)
  | .windowStart => w = 0 ∧ At node 1 1

/-- A call did what one step of the window's cursor at `w` does. -/
def Follows (w : Nat) (direction : ScanDirection)
    (result : Option α × LimitState α) : Prop :=
  let step := (mk (nodeWindow node) w).fetch direction
  result.1 = step.1 ∧ nodeWindow result.2 = nodeWindow node ∧ Tracks result.2 step.2.pos

variable {node : LimitState α} {w p : Nat}

/-- The node with its subplan on row `p` after the offset. -/
def ahead (node : LimitState α) (p : Nat) : LimitState α :=
  { node with outerPlan := { node.outerPlan with pos := node.offset + p } }

theorem At.fetch (h : At node w w) : execProcNode node .forward =
    (node.outerPlan.rows[node.offset + w]?, ahead node (w + 1)) := by
  have hp := h.pos
  have hle := h.le
  have hr := nodeWindow_row node (w - 1) (by omega)
  rw [getElem?_eq_getElem (by omega)] at hr
  have hlt := (List.getElem?_eq_some_iff.1 hr.symm).1
  simp only [execProcNode, Cursor.fetch, h.outer, ahead]
  rw [Nat.min_eq_left (by omega), Nat.add_assoc]

/-- Without a further row in the window the call ends past it, with the subplan one ahead or,
at the end of a plain count, level with the node. -/
theorem follows_end (h : At node w w) (hn : (nodeWindow node)[w]? = none)
    (lstate : LimitStateCond) (p : Nat) (hp : lstate = .subplanEof ∧ p = w + 1 ∨
      lstate = .windowEnd ∧ p = if node.limitOption = .withTies then w + 1 else w) :
    Follows node w .forward (none, { ahead node p with lstate }) := by
  obtain rfl : w = (nodeWindow node).length := le_antisymm h.le (List.getElem?_eq_none_iff.1 hn)
  refine ⟨hn.symm, rfl, ?_⟩
  simp only [fetch]
  rw [min_self]
  obtain ⟨rfl, rfl⟩ | ⟨rfl, rfl⟩ := hp <;>
    exact ⟨rfl, h.pos, le_rfl, h.position, rfl, h.sub, h.last⟩

theorem follows_row {next : LimitState α} {slot : α}
    (hs : (nodeWindow node)[w]? = some slot) (hsm : nodeWindow next = nodeWindow node)
    (hn : w + 1 ≤ (nodeWindow node).length → Tracks next (w + 1)) :
    Follows node w .forward (some slot, next) := by
  have hlt := (List.getElem?_eq_some_iff.1 hs).1
  refine ⟨hs.symm, hsm, ?_⟩
  simp only [fetch]
  rw [min_eq_left (by omega)]
  exact hn hlt

theorem forwardTies_follows (h : At node w w) (ht : node.limitOption = .withTies)
    (hc : node.noCount = false) (hw : node.count ≤ w) (hs : node.lstate = .windowEndTies) :
    Follows node w .forward (forwardTies node) := by
  have hn : (nodeWindow node)[w]? = node.outerPlan.rows[node.offset + w]?.filter
      fun row => node.lastSlot.any (node.eqfunction row) := by
    rw [h.last ht hc hw]
    have hle := h.le
    simp only [nodeWindow, ht, hc] at hle ⊢
    exact window_ties _ _ _ _ _ hw h.pos hle
  rw [forwardTies, h.fetch]
  cases hr : node.outerPlan.rows[node.offset + w]? with
  | none =>
    rw [hr] at hn
    exact follows_end h hn .subplanEof _ (Or.inl ⟨rfl, rfl⟩)
  | some slot =>
    rw [hr, Option.filter] at hn
    change Follows node w .forward
      (if node.lastSlot.any (node.eqfunction slot) = true then _ else _)
    by_cases hti : node.lastSlot.any (node.eqfunction slot) = true
    · rw [if_pos hti] at hn ⊢
      refine follows_row hn rfl fun hle => ?_
      simp only [Tracks, ahead, hs]
      exact ⟨⟨by omega, hle, by rw [h.position]; rfl, rfl, hn.symm,
        fun _ _ _ => h.last ht hc hw⟩, ht, hc, by omega⟩
    rw [if_neg hti] at hn ⊢
    exact follows_end h hn .windowEnd _ (Or.inr ⟨rfl, (if_pos ht).symm⟩)

theorem takeRow_at {slot : α} (hs : (nodeWindow node)[w]? = some slot)
    (hi : node.noCount = false → w < node.count) (hp : node.position = node.offset + w)
    (ho : node.outerPlan.pos = node.offset + (w + 1)) : At (takeRow node slot) (w + 1) (w + 1) := by
  have hlt := (List.getElem?_eq_some_iff.1 hs).1
  refine ⟨by omega, hlt, congrArg (· + 1) hp, ho, hs.symm, ?_⟩
  intro ht hc hle
  have hw : w + 1 = node.count := le_antisymm (hi hc) hle
  have hl : (node.position : Int) - node.offset = (node.count : Int) - 1 := by omega
  simp only [takeRow]
  rw [if_pos ⟨ht, hl⟩, ← hs, nodeWindow_row node w hlt, ← hw, Nat.add_sub_cancel]

theorem nodeWindow_next (hi : node.noCount = false → w < node.count) :
    (nodeWindow node)[w]? = node.outerPlan.rows[node.offset + w]? := by
  refine window_row _ _ _ _ _ (Or.inr fun c hc => ?_)
  cases hno : node.noCount with
  | true => simp [hno] at hc
  | false =>
    obtain rfl : node.count = c := by simpa [hno] using hc
    exact hi hno

theorem forwardInWindow_follows (h : At node w w) (hs : node.lstate = .inWindow) :
    Follows node w .forward (forwardInWindow node) := by
  have hr : (node.position : Int) - node.offset ≥ node.count ↔ node.count ≤ w := by
    rw [h.position]; omega
  simp only [forwardInWindow, hr]
  by_cases hc : (!node.noCount) = true ∧ node.count ≤ w
  · rw [if_pos hc]
    have hno : node.noCount = false := by simpa using hc.1
    by_cases ho : node.limitOption = .count
    · have hnn : (nodeWindow node)[w]? = none := by
        have ht : nodeWindow node = (node.outerPlan.rows.drop node.offset).take node.count := by
          simp [nodeWindow, hno, ho, window]
        rw [ht, List.getElem?_eq_none_iff, length_take]
        omega
      rw [if_pos ho]
      have he := follows_end h hnn .windowEnd w (Or.inr ⟨rfl, by simp [ho]⟩)
      rwa [ahead, ← h.outer] at he
    have hts : node.limitOption = .withTies := by cases hcs : node.limitOption <;> simp_all
    have hat : At { node with lstate := .windowEndTies } w w := { h with }
    rw [if_neg ho]
    exact forwardTies_follows hat hts hno hc.2 rfl
  rw [if_neg hc, h.fetch]
  have hi : node.noCount = false → w < node.count := fun hno => by
    by_contra hge
    exact hc ⟨by simp [hno], by omega⟩
  have hn := nodeWindow_next hi
  cases hrw : node.outerPlan.rows[node.offset + w]? with
  | none => exact follows_end h (hn.trans hrw) .subplanEof _ (Or.inl ⟨rfl, rfl⟩)
  | some slot =>
    have hat := @takeRow_at _ { ahead node (w + 1) with lstate := .inWindow } w slot
      (hn.trans hrw) hi h.position rfl
    refine follows_row (hn.trans hrw) rfl fun _ => ?_
    simp only [Tracks, takeRow, ahead, hs]
    exact hat

theorem skipOffset_follows (hc : node.noCount = false → 0 < node.count)
    (hle : node.position ≤ node.offset) (hp : node.outerPlan.pos = node.position) :
    Follows node 0 .forward (skipOffset node) := by
  have hfr := nodeWindow_next hc
  fun_induction skipOffset node with
  | case1 node next hf =>
    simp only [execProcNode, fetch, Prod.mk.injEq] at hf
    obtain ⟨hn, rfl⟩ := hf
    have hsh := List.getElem?_eq_none_iff.1 hn
    have hnl : nodeWindow node = [] := by
      have he := hfr.trans (getElem?_eq_none (by omega))
      simpa using List.getElem?_eq_none_iff.1 he
    exact ⟨by simp [fetch, hnl], rfl, hnl⟩
  | case2 node slot next hf hgt =>
    simp only [execProcNode, fetch, Prod.mk.injEq] at hf
    obtain ⟨hs, rfl⟩ := hf
    simp only [takeRow] at hgt
    have hat : node.position = node.offset := by omega
    have hlt := (List.getElem?_eq_some_iff.1 hs).1
    rw [hp, hat] at hs
    have hr := @takeRow_at _ { ahead node 1 with lstate := .inWindow } 0 slot
      (hfr.trans hs) hc hat rfl
    have ha : min (node.outerPlan.pos + 1) (node.outerPlan.rows.length + 1) =
      node.offset + 1 := by omega
    refine follows_row (hfr.trans hs) rfl fun _ => ?_
    rw [ha]
    exact hr
  | case3 node slot next hf hgt ih =>
    simp only [execProcNode, fetch, Prod.mk.injEq] at hf
    obtain ⟨hs, rfl⟩ := hf
    have hlt := (List.getElem?_eq_some_iff.1 hs).1
    exact ih hc (by simpa [takeRow] using hgt)
      (by simp only [takeRow]; rw [min_eq_left (by omega), hp]) hfr

theorem stepBack_eq (hp : 1 ≤ w) (hle : w ≤ (nodeWindow node).length)
    (ho : node.outerPlan.pos = node.offset + (w + 1)) :
    stepBack node = .ok ((nodeWindow node)[w - 1]?,
      { node with
        outerPlan := { node.outerPlan with pos := node.offset + w }
        subSlot := (nodeWindow node)[w - 1]?, lstate := .inWindow }) := by
  have hr := nodeWindow_row node (w - 1) (by omega)
  rw [stepBack, execProcNode]
  simp only [fetch, ho]
  rw [if_neg (by omega), show node.offset + (w + 1) - 2 = node.offset + (w - 1) by omega,
    ← hr, getElem?_eq_getElem (by omega)]
  rfl

theorem follows_past (hw : w = (nodeWindow node).length + 1) (h : Tracks node w) :
    Follows node w .forward (none, node) := by
  have hn : (nodeWindow node)[w]? = none := getElem?_eq_none (by omega)
  refine ⟨hn.symm, rfl, ?_⟩
  simp only [fetch]
  rwa [min_eq_right (by omega), ← hw]

theorem follows_back {next : LimitState α} (hp : 1 ≤ w)
    (hs : nodeWindow next = nodeWindow node) (hn : Tracks next w) :
    Follows node (w + 1) .backward ((nodeWindow node)[w - 1]?, next) := by
  refine ⟨?_, hs, hn⟩
  simp only [fetch]
  rw [if_neg (by omega), Nat.add_sub_add_right w 1 1]

theorem stepBack_follows (h : At node w (w + 1)) :
    ∃ result, stepBack node = .ok result ∧ Follows node (w + 1) .backward result :=
  ⟨_, stepBack_eq h.pos h.le h.outer, follows_back h.pos rfl
    ⟨h.pos, h.le, h.position, rfl, rfl, h.last⟩⟩

theorem backward_follows (h : At node w w) :
    ∃ result, backward node = .ok result ∧ Follows node w .backward result := by
  have hp := h.position
  have hps := h.pos
  rw [backward]
  by_cases hs : node.position ≤ node.offset + 1
  · rw [if_pos hs]
    obtain rfl : w = 1 := by omega
    exact ⟨_, rfl, rfl, rfl, rfl, h.pos, h.le, h.position, h.outer, h.sub, h.last⟩
  rw [if_neg hs]
  obtain ⟨w, rfl⟩ : ∃ v, w = v + 1 := ⟨w - 1, by omega⟩
  have hw : 1 ≤ w := by omega
  have hle := Nat.le_of_succ_le h.le
  rw [stepBack_eq hw hle h.outer]
  exact ⟨_, rfl, follows_back hw rfl ⟨hw, hle, congrArg (· - 1) hp, rfl, rfl,
    fun ht hno hc => h.last ht hno (Nat.le_succ_of_le hc)⟩⟩

theorem rescan_follows (hp : node.position = 0) (ho : node.outerPlan.pos = 0)
    (hs : node.lstate = .rescan) (dir : ScanDirection) : Follows node 0 dir (rescan node dir) := by
  cases dir with
  | backward =>
    refine ⟨rfl, rfl, ?_⟩
    simp only [rescan, Tracks, hs]
    exact ⟨rfl, hp, ho⟩
  | forward =>
    rw [rescan]
    by_cases hc : node.count ≤ 0 ∧ ¬ node.noCount
    · rw [if_pos hc]
      have hz : node.count = 0 := by omega
      have hn : nodeWindow node = [] := by
        cases ht : node.outerPlan.rows.drop node.offset <;>
          by_cases hts : node.limitOption = .withTies <;>
          simp [nodeWindow, window, hc.2, hz, hts, ht]
      exact ⟨by simp [fetch, hn], rfl, hn⟩
    rw [if_neg hc]
    refine skipOffset_follows (fun hno => ?_) (by omega) (by omega)
    by_contra hz
    exact hc ⟨by omega, by simp [hno]⟩

/-- **One call does what one step of the window's cursor does**, in every state and in both
directions. -/
theorem execLimit_tracks (h : Tracks node w) (dir : ScanDirection) :
    ∃ result, execLimit node dir = .ok result ∧ Follows node w dir result := by
  unfold Tracks at h
  unfold execLimit
  cases hs : node.lstate <;> simp only [hs] at h
  case rescan =>
    obtain ⟨rfl, hp, ho⟩ := h
    exact ⟨_, rfl, rescan_follows hp ho hs dir⟩
  case empty =>
    have hn : ((mk (nodeWindow node) w).fetch dir).1 = none := by cases dir <;> simp [fetch, h]
    refine ⟨_, rfl, hn.symm, rfl, ?_⟩
    simpa only [Tracks, hs] using h
  case inWindow =>
    cases dir with
    | forward => exact ⟨_, rfl, forwardInWindow_follows h hs⟩
    | backward => exact backward_follows h
  case windowEndTies =>
    obtain ⟨h, ht, hno, hc⟩ := h
    cases dir with
    | forward => exact ⟨_, rfl, forwardTies_follows h ht hno hc hs⟩
    | backward => exact backward_follows h
  case subplanEof =>
    cases dir with
    | forward => exact ⟨_, rfl, follows_past h.1 (by simpa only [Tracks, hs] using h)⟩
    | backward => exact h.1 ▸ stepBack_follows (h.1 ▸ h.2)
  case windowEnd =>
    cases dir with
    | forward => exact ⟨_, rfl, follows_past h.1 (by simpa only [Tracks, hs] using h)⟩
    | backward =>
      obtain ⟨rfl, h⟩ := h
      by_cases ht : node.limitOption = .withTies
      · rw [if_pos ht] at h ⊢
        exact stepBack_follows h
      rw [if_neg ht] at h ⊢
      refine ⟨(node.subSlot, { node with lstate := .inWindow }), rfl, ?_⟩
      have hb := @follows_back _ node _ { node with lstate := .inWindow } h.pos rfl
        { h with }
      rwa [← h.sub] at hb
  case windowStart =>
    obtain ⟨rfl, h⟩ := h
    cases dir with
    | forward =>
      refine ⟨(node.subSlot, { node with lstate := .inWindow }), rfl, h.sub, rfl, ?_⟩
      simp only [fetch]
      rw [min_eq_left (by omega)]
      exact { h with }
    | backward =>
      refine ⟨_, rfl, rfl, rfl, ?_⟩
      simp only [Tracks, hs]
      exact ⟨rfl, h⟩

theorem execLimitAll_tracks (h : Tracks node w) (calls : List ScanDirection) :
    execLimitAll node calls = .ok ((mk (nodeWindow node) w).fetchAll calls) := by
  induction calls generalizing node w with
  | nil => rfl
  | cons dir calls ih =>
    obtain ⟨⟨slot, next⟩, hc, hs, hsm, hn⟩ := execLimit_tracks h dir
    rw [execLimitAll, hc]
    change (execLimitAll next calls >>= fun rest => pure (slot :: rest)) = _
    simp only at hs hsm
    rw [ih hn, hsm, hs]
    cases dir <;> rfl

theorem recomputeLimits_ok (ho : 0 ≤ node.limitOffset.join.getD 0)
    (hc : ∀ count ∈ node.limitCount.join, 0 ≤ count) :
    recomputeLimits node = .ok { node with
      offset := (node.limitOffset.join.getD 0).toNat
      count := (node.limitCount.join.getD 0).toNat
      noCount := node.limitCount.join.isNone
      position := 0, subSlot := none, lstate := .rescan } := by
  unfold recomputeLimits
  rcases hof : node.limitOffset with _ | _ | offset <;>
    rcases hl : node.limitCount with _ | _ | count <;>
    simp_all [Int.not_lt.2, pure, Except.pure, bind, Except.bind]

theorem execLimit_initial {next : LimitState α} {dir : ScanDirection}
    (hs : node.lstate = .initial) (hl : recomputeLimits node = .ok next)
    (hn : next.lstate = .rescan) : execLimit node dir = execLimit next dir := by
  unfold execLimit
  rw [hs, hn, hl]
  rfl

/-- **`LIMIT` is a cursor over its window.**  Whatever the subplan's rows, the offset, the
count, the option and the equality of ties, any sequence of forward and backward calls returns
what a cursor over the window returns, and none of them raises an error. -/
theorem execLimit_windowCursor (rows : List α) (limitOffset limitCount : Option (Option Int))
    (limitOption : LimitOption) (eqfunction : α → α → Bool) (calls : List ScanDirection)
    (hoffset : 0 ≤ limitOffset.join.getD 0) (hcount : ∀ count ∈ limitCount.join, 0 ≤ count) :
    execLimitAll (execInitLimit limitOffset limitCount limitOption eqfunction rows) calls =
      .ok (Cursor.fetchAll ⟨window rows (limitOffset.join.getD 0).toNat
        (limitCount.join.map Int.toNat)
        (if limitOption = .withTies then some eqfunction else none), 0⟩ calls) := by
  cases calls with
  | nil => rfl
  | cons direction calls =>
    -- the first call computes the limits and goes on as from `LIMIT_RESCAN`
    have hl := @recomputeLimits_ok _ (execInitLimit limitOffset limitCount limitOption
      eqfunction rows) hoffset hcount
    rw [execLimitAll, execLimit_initial rfl hl rfl, ← execLimitAll]
    have hw : (if limitCount.join.isNone then none
        else some (limitCount.join.getD 0).toNat) = limitCount.join.map Int.toNat := by
      cases limitCount.join <;> rfl
    rw [← hw]
    refine execLimitAll_tracks (w := 0) ?_ _
    exact ⟨rfl, rfl, rfl⟩

/-- Two rows after the first, and those that tie with the second of them. -/
theorem execLimit_windowCursor_ties :
    execLimitAll (execInitLimit (some (some 1)) (some (some 2)) .withTies (· == ·)
      [1, 2, 3, 3, 4]) [.forward, .forward, .forward, .forward, .backward] =
    .ok (Cursor.fetchAll ⟨window [1, 2, 3, 3, 4] 1 (some 2) (some (· == ·)), 0⟩
      [.forward, .forward, .forward, .forward, .backward]) :=
  execLimit_windowCursor [1, 2, 3, 3, 4] (some (some 1)) (some (some 2)) .withTies (· == ·) _
    (by decide) (by simp)

example : window [1, 2, 3, 3, 4] 1 (some 2) (some (· == ·)) = [2, 3, 3] := by decide

end AthenaPG.NodeLimit
