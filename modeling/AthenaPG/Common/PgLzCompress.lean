import AthenaPG.Common.PgLzDecompress

/-!
Compression with PGLZ (`src/common/pg_lzcompress.c`, `pglz_compress`), and its round
trip.

The positions of the input that may be matched are kept in doubly linked lists, one
for each hash value, over a ring of static entries that earlier calls have left in any
state.  Entry 0 is a dummy that is written to but never read.

* `HistLinked`: the lists hold the last positions with each hash value, newest first;
* `linked_delink`, `linked_link`, `historyOk_histAdd`: what an addition keeps;
* `pglzFindMatch_spec`: a match repeats bytes of the input, and its tag can hold it;
* `GroupOpen`: the output so far, whose last control byte is still to be written;
* **`pglz_round_trip`**: compression ends, for every state of the history tables, and
  what it returns is below the limit and is decompressed to the input.
-/

namespace AthenaPG
open List Function LzItem

/-! ## The history -/

def pglzHistorySize : Nat := 4096

def pglzMaxMatch : Nat := 273

/-- `PGLZ_HistEntry`; the links are entry numbers, `none` being `NULL`. -/
structure PglzHistEntry where
  next : Option Nat
  prev : Option Nat
  hindex : Nat
  pos : Nat

/-- The static tables `hist_start` and `hist_entries`. -/
structure PglzHistory where
  start : Nat → Nat
  entries : Nat → PglzHistEntry

open PglzHistory

namespace PglzHistory

variable (hist : PglzHistory)

def setStart (h n : Nat) : PglzHistory := { hist with start := Function.update hist.start h n }

def setEntry (n : Nat) (entry : PglzHistEntry) : PglzHistory :=
  { hist with entries := Function.update hist.entries n entry }

@[simp] theorem start_setStart (h n k : Nat) :
    (hist.setStart h n).start k = if k = h then n else hist.start k :=
  update_apply hist.start h n k

@[simp] theorem entries_setStart (h n : Nat) : (hist.setStart h n).entries = hist.entries := rfl

@[simp] theorem start_setEntry (n : Nat) (entry : PglzHistEntry) :
    (hist.setEntry n entry).start = hist.start := rfl

@[simp] theorem entries_setEntry (n : Nat) (entry : PglzHistEntry) (m : Nat) :
    (hist.setEntry n entry).entries m = if m = n then entry else hist.entries m :=
  update_apply hist.entries n entry m

end PglzHistory

/-- The tables, with `hist_next` and `hist_recycle`. -/
structure HistCursor where
  hist : PglzHistory
  next : Nat
  recycle : Bool

variable (source : PgBuffer)

/-- `pglz_hist_idx`; a `char` is signed. -/
def pglzHistIdx (dend mask s : Nat) : Nat :=
  let char := fun i => (source (s + i)).signExtend 32
  ((if dend - s < 4 then char 0
    else (char 0 <<< 6) ^^^ (char 1 <<< 4) ^^^ (char 2 <<< 2) ^^^ char 3) &&&
      BitVec.ofNat 32 mask).toNat

/-- The entry `n` is taken out of its list. -/
def delinkEntry (hist : PglzHistory) (n : Nat) : PglzHistory :=
  let myhe := hist.entries n
  let hist := match myhe.prev with
    | none => hist.setStart myhe.hindex (myhe.next.getD 0)
    | some prev => hist.setEntry prev { hist.entries prev with next := myhe.next }
  match myhe.next with
  | none => hist
  | some next => hist.setEntry next { hist.entries next with prev := myhe.prev }

/-- The entry `n` becomes the head of the list of `hindex`, for position `s`. -/
def linkEntry (hist : PglzHistory) (n hindex s : Nat) : PglzHistory :=
  let head := hist.start hindex
  let hist := hist.setEntry n { next := some head, prev := none, hindex := hindex, pos := s }
  -- the dummy entry is scribbled on if the list was empty
  let hist := hist.setEntry head { hist.entries head with prev := some n }
  hist.setStart hindex n

def pglzHistAdd (dend mask s : Nat) (c : HistCursor) : HistCursor :=
  let hist := if c.recycle then delinkEntry c.hist c.next else c.hist
  let hist := linkEntry hist c.next (pglzHistIdx source dend mask s) s
  if c.next + 1 ≥ pglzHistorySize + 1 then ⟨hist, 1, true⟩ else ⟨hist, c.next + 1, c.recycle⟩

/-! ### What the lists hold -/

/-- The last position from `lo` on and before a bound that has the key `h`. -/
def lastPos (key : Nat → Nat) (h lo : Nat) : Nat → Option Nat
  | 0 => none
  | hi + 1 => if lo ≤ hi ∧ key hi = h then some hi else lastPos key h lo hi

section LastPos

variable {key : Nat → Nat} {h lo hi q : Nat}

theorem lastPos_eq_some : lastPos key h lo hi = some q ↔
    lo ≤ q ∧ q < hi ∧ key q = h ∧ ∀ r, q < r → r < hi → key r ≠ h := by
  induction hi with
  | zero => simp [lastPos]
  | succ hi ih =>
    rw [lastPos]
    by_cases hit : lo ≤ hi ∧ key hi = h
    · rw [if_pos hit, Option.some.injEq]
      constructor
      · rintro rfl
        exact ⟨hit.1, Nat.lt_succ_self _, hit.2, fun r hr hr' => by omega⟩
      · rintro ⟨-, hq, -, hl⟩
        by_contra hne
        exact hl hi (by omega) (Nat.lt_succ_self _) hit.2
    rw [if_neg hit, ih]
    refine and_congr_right fun hlo => ⟨?_, ?_⟩
    · rintro ⟨hq, hk, hl⟩
      refine ⟨by omega, hk, fun r hr hr' => ?_⟩
      obtain hlt | rfl := Nat.lt_succ_iff_lt_or_eq.mp hr'
      · exact hl r hr hlt
      · exact fun heq => hit ⟨by omega, heq⟩
    rintro ⟨hq, hk, hl⟩
    refine ⟨?_, hk, fun r hr hr' => hl r hr (by omega)⟩
    obtain hlt | rfl := Nat.lt_succ_iff_lt_or_eq.mp hq
    · exact hlt
    · exact absurd ⟨hlo, hk⟩ hit

theorem lastPos_eq_none : lastPos key h lo hi = none ↔ ∀ r, lo ≤ r → r < hi → key r ≠ h := by
  induction hi with
  | zero => simp [lastPos]
  | succ hi ih =>
    rw [lastPos]
    by_cases hit : lo ≤ hi ∧ key hi = h
    · rw [if_pos hit]
      exact iff_of_false (by simp) fun ha => ha hi hit.1 (Nat.lt_succ_self _) hit.2
    rw [if_neg hit, ih]
    refine forall₂_congr fun r hr => ⟨fun ha hlt => ?_, fun ha hlt => ha (by omega)⟩
    obtain hlt | rfl := Nat.lt_succ_iff_lt_or_eq.mp hlt
    · exact ha hlt
    · exact fun heq => hit ⟨hr, heq⟩

theorem lastPos_succ (hne : lastPos key h lo hi ≠ some lo) :
    lastPos key h (lo + 1) hi = lastPos key h lo hi := by
  cases hl : lastPos key h lo hi with
  | none =>
    rw [lastPos_eq_none] at hl ⊢
    exact fun r hr => hl r (by omega)
  | some q =>
    have hq : q ≠ lo := fun heq => hne (heq ▸ hl)
    rw [lastPos_eq_some] at hl ⊢
    exact ⟨by omega, hl.2⟩

theorem lastPos_succ_of_first (heq : lastPos key h lo hi = some lo) :
    lastPos key h (lo + 1) hi = none := by
  rw [lastPos_eq_some] at heq
  rw [lastPos_eq_none]
  exact fun r hr hr' => heq.2.2.2 r (by omega) hr'

theorem lastPos_of_succ (hq : lastPos key h (lo + 1) hi = some q) :
    lastPos key h lo hi = some q := by
  rw [← hq, lastPos_succ]
  intro hf
  rw [lastPos_succ_of_first hf] at hq
  cases hq

end LastPos

def entryOf (q : Nat) : Nat := q % pglzHistorySize + 1

/-- The entry number for a link, the dummy if there is no position. -/
def entryNumber : Option Nat → Nat
  | none => 0
  | some q => entryOf q

/-- **The tables hold the positions from `lo` to `hi`**, linked by their keys. -/
structure HistLinked (key : Nat → Nat) (hashsz lo hi : Nat) (hist : PglzHistory) : Prop where
  start : ∀ h < hashsz, hist.start h = entryNumber (lastPos key h lo hi)
  pos : ∀ q, lo ≤ q → q < hi → (hist.entries (entryOf q)).pos = q
  hindex : ∀ q, lo ≤ q → q < hi → (hist.entries (entryOf q)).hindex = key q
  next : ∀ q, lo ≤ q → q < hi →
    (hist.entries (entryOf q)).next = some (entryNumber (lastPos key (key q) lo q))
  prev_none : ∀ q, lastPos key (key q) lo hi = some q → (hist.entries (entryOf q)).prev = none
  prev_some : ∀ q q', q' < hi → lastPos key (key q') lo q' = some q →
    (hist.entries (entryOf q)).prev = some (entryOf q')

theorem entryOf_inj {lo q r : Nat} (hq : lo ≤ q) (hq' : q < lo + pglzHistorySize) (hr : lo ≤ r)
    (hr' : r < lo + pglzHistorySize) (heq : entryOf q = entryOf r) : q = r := by
  unfold entryOf pglzHistorySize at *
  omega

theorem entryOf_ne_zero (q : Nat) : entryOf q ≠ 0 := by
  unfold entryOf
  omega

theorem lastPos_of_entryNumber {key : Nat → Nat} {k lo hi q : Nat} (hsz : hi ≤ lo + pglzHistorySize)
    (hq : lo ≤ q) (hq' : q < hi) (heq : entryOf q = entryNumber (lastPos key k lo hi)) :
    lastPos key k lo hi = some q := by
  cases hl : lastPos key k lo hi with
  | none =>
    rw [hl] at heq
    exact absurd heq (entryOf_ne_zero q)
  | some r =>
    rw [hl] at heq
    obtain ⟨hr, hr', -⟩ := lastPos_eq_some.mp hl
    rw [entryOf_inj hq (by omega) hr (by omega) heq]

/-! ### Additions -/

section Additions

variable {key : Nat → Nat} {hashsz lo hi : Nat} {hist : PglzHistory}

theorem exists_nextPos (hlo : lo < hi) (hne : lastPos key (key lo) lo hi ≠ some lo) :
    ∃ q, lo < q ∧ q < hi ∧ key q = key lo ∧ lastPos key (key q) lo q = some lo := by
  have he : ∃ q, lo < q ∧ q < hi ∧ key q = key lo := by
    by_contra hn
    push Not at hn
    exact hne (lastPos_eq_some.mpr ⟨le_refl lo, hlo, rfl, hn⟩)
  obtain ⟨hf, hlt, hk⟩ := Nat.find_spec he
  refine ⟨Nat.find he, hf, hlt, hk, ?_⟩
  rw [lastPos_eq_some, hk]
  refine ⟨le_refl lo, hf, rfl, fun r hr hr' heq => ?_⟩
  exact Nat.find_min he hr' ⟨hr, by omega, heq⟩

/-- **Taking the oldest position out** of a full window. -/
theorem linked_delink (h : HistLinked key hashsz lo hi hist) (hlo : lo < hi)
    (hsz : hi ≤ lo + pglzHistorySize) :
    HistLinked key hashsz (lo + 1) hi (delinkEntry hist (entryOf lo)) := by
  -- the oldest position is the last of its list
  have hn : (hist.entries (entryOf lo)).next = some 0 := by
    have hnn : lastPos key (key lo) lo lo = none :=
      lastPos_eq_none.mpr fun r hr hr' => absurd hr' (by omega)
    rw [h.next lo (le_refl lo) hlo, hnn]
    rfl
  have hind := h.hindex lo (le_refl lo) hlo
  -- it is enough to follow the heads and the links to the back
  suffices hd : (∀ k < hashsz, (delinkEntry hist (entryOf lo)).start k =
        entryNumber (lastPos key k (lo + 1) hi)) ∧
      ∀ q, lo < q → q < hi → (delinkEntry hist (entryOf lo)).entries (entryOf q) =
        { hist.entries (entryOf q) with
          next := some (entryNumber (lastPos key (key q) (lo + 1) q)) } by
    refine ⟨hd.1, fun q hq hq' => ?_, fun q hq hq' => ?_, fun q hq hq' => ?_, fun q hq => ?_,
      fun q q' hq' hq => ?_⟩
    · rw [hd.2 q hq hq']
      exact h.pos q (by omega) hq'
    · rw [hd.2 q hq hq']
      exact h.hindex q (by omega) hq'
    · rw [hd.2 q hq hq']
    · obtain ⟨hql, hqh, -⟩ := lastPos_eq_some.mp hq
      rw [hd.2 q hql hqh]
      exact h.prev_none q (lastPos_of_succ hq)
    obtain ⟨hql, hqh, -⟩ := lastPos_eq_some.mp hq
    rw [hd.2 q hql (by omega)]
    exact h.prev_some q q' hq' (lastPos_of_succ hq)
  have hnx : ∀ q, lo < q → q < hi → lastPos key (key q) lo q ≠ some lo →
      { hist.entries (entryOf q) with
        next := some (entryNumber (lastPos key (key q) (lo + 1) q)) } = hist.entries (entryOf q) := by
    intro q hq hq' hne
    rw [lastPos_succ hne, ← h.next q hq.le hq']
  by_cases ho : lastPos key (key lo) lo hi = some lo
  · -- it is the only one of its list
    have hpr := h.prev_none lo ho
    have hd : delinkEntry hist (entryOf lo) = (hist.setStart (key lo) 0).setEntry 0
        { hist.entries 0 with prev := none } := by
      simp [delinkEntry, hpr, hn, hind]
    rw [hd]
    refine ⟨fun k hk => ?_, fun q hq hq' => ?_⟩
    · rw [start_setEntry, start_setStart]
      by_cases heq : k = key lo
      · rw [if_pos heq, heq, lastPos_succ_of_first ho]
        rfl
      rw [if_neg heq, h.start k hk, lastPos_succ]
      intro hf
      exact heq (lastPos_eq_some.mp hf).2.2.1.symm
    rw [entries_setEntry, if_neg (entryOf_ne_zero q), entries_setStart, hnx q hq hq']
    intro hf
    exact (lastPos_eq_some.mp ho).2.2.2 q hq hq' (lastPos_eq_some.mp hf).2.2.1.symm
  -- the entry in front of it becomes the last
  obtain ⟨p, hp, hp', hpk, hpl⟩ := exists_nextPos hlo ho
  have hpr := h.prev_some lo p hp' hpl
  have hd : delinkEntry hist (entryOf lo) = (hist.setEntry (entryOf p)
      { hist.entries (entryOf p) with next := some 0 }).setEntry 0
        { hist.entries 0 with prev := some (entryOf p) } := by
    simp [delinkEntry, hpr, hn, (entryOf_ne_zero p).symm]
  rw [hd]
  refine ⟨fun k hk => ?_, fun q hq hq' => ?_⟩
  · rw [start_setEntry, start_setEntry, h.start k hk, lastPos_succ]
    intro hf
    have hk := (lastPos_eq_some.mp hf).2.2.1
    exact ho (hk ▸ hf)
  rw [entries_setEntry, if_neg (entryOf_ne_zero q), entries_setEntry]
  split
  next heq =>
    rw [entryOf_inj hq.le (by omega) hp.le (by omega) heq, lastPos_succ_of_first hpl]
    rfl
  next hne =>
    rw [hnx q hq hq']
    intro hf
    -- only `p` is followed by the oldest position
    have hq2 := h.prev_some lo q hq' hf
    rw [hpr, Option.some.injEq] at hq2
    exact hne hq2.symm

/-- **Putting the next position in front** of its list. -/
theorem linked_link (h : HistLinked key hashsz lo hi hist) (hky : key hi < hashsz) (hlo : lo ≤ hi)
    (hsz : hi < lo + pglzHistorySize) :
    HistLinked key hashsz lo (hi + 1) (linkEntry hist (entryOf hi) (key hi) hi) := by
  have hf : ∀ q, lo ≤ q → q < hi → entryOf q ≠ entryOf hi := fun q hq hq' heq => by
    have := entryOf_inj hq (by omega) hlo (by omega) heq
    omega
  -- the old head is the dummy, or holds the last position of the key
  have hh := h.start _ hky
  have hne : hist.start (key hi) ≠ entryOf hi := by
    rw [hh]
    cases hl : lastPos key (key hi) lo hi with
    | none => exact (entryOf_ne_zero hi).symm
    | some q =>
      rw [lastPos_eq_some] at hl
      exact hf q hl.1 hl.2.1
  have he : ∀ n, (linkEntry hist (entryOf hi) (key hi) hi).entries n =
      if n = hist.start (key hi) then { hist.entries n with prev := some (entryOf hi) }
      else if n = entryOf hi then ⟨some (hist.start (key hi)), none, key hi, hi⟩
      else hist.entries n := by
    intro n
    simp only [linkEntry, entries_setStart, entries_setEntry, if_neg hne]
    split
    next heq => rw [heq]
    · rfl
  have hsl : (linkEntry hist (entryOf hi) (key hi) hi).entries (entryOf hi) =
      ⟨some (hist.start (key hi)), none, key hi, hi⟩ := by
    rw [he, if_neg hne.symm, if_pos rfl]
  -- an older entry only changes in the link to its front
  have ho : ∀ q, lo ≤ q → q < hi →
      (linkEntry hist (entryOf hi) (key hi) hi).entries (entryOf q) =
        { hist.entries (entryOf q) with
          prev := if entryOf q = hist.start (key hi) then some (entryOf hi)
            else (hist.entries (entryOf q)).prev } := by
    intro q hq hq'
    rw [he, if_neg (hf q hq hq')]
    split <;> rfl
  have hls : ∀ k, lastPos key k lo (hi + 1) = if key hi = k then some hi else
      lastPos key k lo hi := by
    intro k
    rw [lastPos]
    exact if_congr (and_iff_right hlo) rfl rfl
  have hall : ∀ q, lo ≤ q → q < hi + 1 →
      let entry := (linkEntry hist (entryOf hi) (key hi) hi).entries (entryOf q)
      entry.pos = q ∧ entry.hindex = key q ∧
        entry.next = some (entryNumber (lastPos key (key q) lo q)) := by
    intro q hq hq'
    obtain hlt | rfl := Nat.lt_succ_iff_lt_or_eq.mp hq'
    · rw [ho q hq hlt]
      exact ⟨h.pos q hq hlt, h.hindex q hq hlt, h.next q hq hlt⟩
    rw [hsl, hh]
    exact ⟨rfl, rfl, rfl⟩
  refine ⟨fun k hk => ?_, fun q hq hq' => (hall q hq hq').1, fun q hq hq' => (hall q hq hq').2.1,
    fun q hq hq' => (hall q hq hq').2.2, ?_, ?_⟩
  · rw [linkEntry, start_setStart, hls]
    by_cases heq : k = key hi
    · rw [if_pos heq, if_pos heq.symm]
      rfl
    rw [if_neg heq, if_neg fun h => heq h.symm]
    exact h.start k hk
  · intro q hq
    rw [hls] at hq
    by_cases heq : key hi = key q
    · rw [if_pos heq, Option.some.injEq] at hq
      rw [← hq, hsl]
    rw [if_neg heq] at hq
    obtain ⟨hql, hqh, -⟩ := lastPos_eq_some.mp hq
    rw [ho q hql hqh]
    rw [if_neg, h.prev_none q hq]
    rw [hh]
    intro hs
    have hl := lastPos_of_entryNumber hsz.le hql hqh hs
    exact heq (lastPos_eq_some.mp hl).2.2.1.symm
  intro q q' hq' hq
  obtain ⟨hql, hqq', hqk, hqla⟩ := lastPos_eq_some.mp hq
  obtain hlt | rfl := Nat.lt_succ_iff_lt_or_eq.mp hq'
  · rw [ho q hql (by omega)]
    rw [if_neg, h.prev_some q q' hlt hq]
    rw [hh]
    intro hs
    -- `q'` comes after `q` in the list, so `q` is not its head
    obtain ⟨-, -, hr, hrla⟩ :=
      lastPos_eq_some.mp (lastPos_of_entryNumber hsz.le hql (by omega) hs)
    exact hrla q' hqq' hlt (hqk.symm.trans hr)
  rw [ho q hql hqq']
  rw [if_pos]
  rw [hh, hq]
  rfl

/-- The tables before position `hi`: they hold the last positions, at most as many as
there are entries, and the next entry is the oldest. -/
structure HistoryOk (key : Nat → Nat) (hashsz hi : Nat) (c : HistCursor) : Prop where
  linked : HistLinked key hashsz (hi - pglzHistorySize) hi c.hist
  next : c.next = entryOf hi
  recycle : c.recycle = decide (pglzHistorySize ≤ hi)

/-- **`pglz_hist_add`** keeps the tables. -/
theorem historyOk_histAdd {source : PgBuffer} {dend mask : Nat} {c : HistCursor}
    (hm : ∀ q, pglzHistIdx source dend mask q < hashsz)
    (h : HistoryOk (pglzHistIdx source dend mask) hashsz hi c) :
    HistoryOk (pglzHistIdx source dend mask) hashsz (hi + 1)
      (pglzHistAdd source dend mask hi c) := by
  obtain ⟨hist, next, recycle⟩ := c
  obtain ⟨hl, hn, hr⟩ := h
  simp only at hl hn hr
  subst hn
  have hs : pglzHistorySize = 4096 := rfl
  have he : entryOf hi = hi % 4096 + 1 := rfl
  have he' : entryOf (hi + 1) = (hi + 1) % 4096 + 1 := rfl
  have hnw : HistLinked (pglzHistIdx source dend mask) hashsz (hi + 1 - pglzHistorySize) (hi + 1)
      (linkEntry (if recycle then delinkEntry hist (entryOf hi) else hist) (entryOf hi)
        (pglzHistIdx source dend mask hi) hi) := by
    refine linked_link ?_ (hm hi) (by omega) (by omega)
    by_cases hf : pglzHistorySize ≤ hi
    · -- the entry of the oldest position is used again
      have ho : entryOf hi = entryOf (hi - pglzHistorySize) := by
        unfold entryOf pglzHistorySize
        omega
      rw [hr, decide_eq_true hf, if_pos rfl, ho,
        show hi + 1 - pglzHistorySize = hi - pglzHistorySize + 1 by omega]
      exact linked_delink hl (by omega) (by omega)
    rw [hr, decide_eq_false hf, if_neg Bool.false_ne_true,
      show hi + 1 - pglzHistorySize = hi - pglzHistorySize by omega]
    exact hl
  rw [pglzHistAdd]
  simp only
  split
  · exact ⟨hnw, by simp only; omega, (decide_eq_true (by omega)).symm⟩
  · exact ⟨hnw, by simp only; omega, by simp only [hr, decide_eq_decide]; omega⟩

end Additions

/-! ## Finding a match -/

/-- The loop that compares byte by byte, for at most `limit` bytes. -/
def matchLength (source : PgBuffer) (dend ip hp : Nat) : Nat → Nat
  | 0 => 0
  | limit + 1 =>
    if ip < dend ∧ source ip = source hp then
      matchLength source dend (ip + 1) (hp + 1) limit + 1
    else 0

/-- The length of the match with one entry, given the best length so far: a match of
16 bytes or more is first compared with `memcmp`. -/
def thisLength (dend input hp len : Nat) : Nat :=
  if len ≥ 16 then
    if ∀ i < len, source (input + i) = source (hp + i) then
      len + matchLength source dend (input + len) (hp + len) (pglzMaxMatch - len)
    else 0
  else matchLength source dend input hp pglzMaxMatch

/-- The loop of `pglz_find_match` along a list: the best length and offset, `none` if
it does not reach the end of the list within `fuel` entries. -/
def findMatchLoop (source : PgBuffer) (dend input goodDrop : Nat) (hist : PglzHistory) :
    Nat → Nat → Nat → Nat → Int → Option (Nat × Int)
  | 0, _, _, _, _ => none
  | fuel + 1, goodMatch, hent, len, off =>
    if hent = 0 then some (len, off)
    else
      let thisoff : Int := input - (hist.entries hent).pos
      if thisoff ≥ 0x0fff then some (len, off)
      else
        let thislen := thisLength source dend input (hist.entries hent).pos len
        let best : Nat × Int := if thislen > len then (thislen, thisoff) else (len, off)
        match (hist.entries hent).next with
        | none => none
        | some hent =>
          if hent ≠ 0 ∧ best.1 ≥ goodMatch then some best
          else
            findMatchLoop source dend input goodDrop hist fuel
              (goodMatch - goodMatch * goodDrop / 100) hent best.1 best.2

/-- `pglz_find_match`: the length and the offset of a match, if one saves a byte. -/
def pglzFindMatch (dend mask goodMatch goodDrop : Nat) (hist : PglzHistory) (input : Nat) :
    Option (Option (Nat × Nat)) :=
  (findMatchLoop source dend input goodDrop hist (pglzHistorySize + 1) goodMatch
    (hist.start (pglzHistIdx source dend mask input)) 0 0).map fun best =>
      if best.1 > 2 then some (best.1, best.2.toNat) else none

section Matches

variable {source : PgBuffer} {dend : Nat}

theorem matchLength_spec (source : PgBuffer) (ip hp limit : Nat) (hip : ip ≤ dend) :
    matchLength source dend ip hp limit ≤ limit ∧
      ip + matchLength source dend ip hp limit ≤ dend ∧
      ∀ i < matchLength source dend ip hp limit, source (ip + i) = source (hp + i) := by
  induction limit generalizing ip hp with
  | zero => exact ⟨Nat.le_refl 0, hip, fun i hi => absurd hi (Nat.not_lt_zero i)⟩
  | succ limit ih =>
    rw [matchLength]
    split
    next he =>
      obtain ⟨hl, hen, hs⟩ := ih (ip + 1) (hp + 1) he.1
      refine ⟨by omega, by omega, fun i hi => ?_⟩
      cases i with
      | zero => exact he.2
      | succ i =>
        have := hs i (by omega)
        rwa [show ip + 1 + i = ip + (i + 1) by omega,
          show hp + 1 + i = hp + (i + 1) by omega] at this
    · exact ⟨Nat.zero_le _, hip, fun i hi => absurd hi (Nat.not_lt_zero i)⟩

/-- The input at two positions agrees for so many bytes. -/
def SameBytes (source : PgBuffer) (dend input hp len : Nat) : Prop :=
  len ≤ pglzMaxMatch ∧ input + len ≤ dend ∧ ∀ i < len, source (input + i) = source (hp + i)

theorem sameBytes_thisLength {inp hp len : Nat} (hin : inp ≤ dend)
    (hln : len ≤ pglzMaxMatch) (hen : inp + len ≤ dend) :
    SameBytes source dend inp hp (thisLength source dend inp hp len) := by
  unfold thisLength
  split
  · split
    next he =>
      obtain ⟨hl, hen', hs⟩ :=
        matchLength_spec source (inp + len) (hp + len) (pglzMaxMatch - len) hen
      refine ⟨by omega, by omega, fun i hi => ?_⟩
      by_cases hlt : i < len
      · exact he i hlt
      have := hs (i - len) (by omega)
      rwa [show inp + len + (i - len) = inp + i by omega,
        show hp + len + (i - len) = hp + i by omega] at this
    · exact ⟨Nat.zero_le _, hin, fun i hi => absurd hi (Nat.not_lt_zero i)⟩
  · exact matchLength_spec source inp hp pglzMaxMatch hin

/-- The best match so far is none, or one that a tag can hold. -/
def BestMatch (source : PgBuffer) (dend input len : Nat) (off : Int) : Prop :=
  len = 0 ∨ ∃ hp < input, off = (input : Int) - hp ∧ input - hp < 0xfff ∧
    SameBytes source dend input hp len

theorem BestMatch.bounds {inp len : Nat} {off : Int} (h : BestMatch source dend inp len off)
    (hi : inp ≤ dend) : len ≤ pglzMaxMatch ∧ inp + len ≤ dend := by
  obtain rfl | ⟨hp, _, _, _, hs⟩ := h
  · exact ⟨Nat.zero_le _, hi⟩
  · exact ⟨hs.1, hs.2.1⟩

theorem findMatchLoop_spec {key : Nat → Nat} {has lo inp gd : Nat} {hist : PglzHistory}
    (h : HistLinked key has lo inp hist) (hi : inp ≤ dend) {fuel gm len : Nat}
    {off : Int} {at' : Option Nat} (hat : ∀ q ∈ at', lo ≤ q ∧ q < inp ∧ q < lo + fuel - 1)
    (hfl : 0 < fuel) (hb : BestMatch source dend inp len off) :
    ∃ best, findMatchLoop source dend inp gd hist fuel gm (entryNumber at') len off =
      some best ∧ BestMatch source dend inp best.1 best.2 := by
  induction fuel generalizing gm len off at' with
  | zero => omega
  | succ fuel ih =>
    rw [findMatchLoop]
    cases at' with
    | none => exact ⟨(len, off), if_pos rfl, hb⟩
    | some q =>
      obtain ⟨hql, hq, hqf⟩ := hat q rfl
      have hp : (hist.entries (entryNumber (some q))).pos = q := h.pos q hql hq
      have hn : (hist.entries (entryNumber (some q))).next =
          some (entryNumber (lastPos key (key q) lo q)) := h.next q hql hq
      rw [if_neg (show entryNumber (some q) ≠ 0 from entryOf_ne_zero q), hp]
      simp only [hn]
      by_cases hf : (inp : Int) - q ≥ 0x0fff
      · exact ⟨(len, off), if_pos hf, hb⟩
      rw [if_neg hf]
      have hb' : BestMatch source dend inp
          (if thisLength source dend inp q len > len then
            (thisLength source dend inp q len, (inp : Int) - q) else (len, off)).1
          (if thisLength source dend inp q len > len then
            (thisLength source dend inp q len, (inp : Int) - q) else (len, off)).2 := by
        obtain ⟨hl, he⟩ := hb.bounds hi
        split
        · exact .inr ⟨q, hq, rfl, by omega, sameBytes_thisLength hi hl he⟩
        · exact hb
      generalize (if thisLength source dend inp q len > len then
        (thisLength source dend inp q len, (inp : Int) - q) else (len, off)) = best at hb' ⊢
      split
      · exact ⟨best, rfl, hb'⟩
      refine ih (fun r hr => ?_) (by omega) hb'
      obtain ⟨hrl, hrq, -⟩ := lastPos_eq_some.mp hr
      omega

/-- **`pglz_find_match`** finds a tag that fits the input, or none. -/
theorem pglzFindMatch_spec {has mask gm gd inp : Nat} {c : HistCursor}
    (h : HistoryOk (pglzHistIdx source dend mask) has inp c)
    (hms : ∀ q, pglzHistIdx source dend mask q < has) (hin : inp ≤ dend) :
    pglzFindMatch source dend mask gm gd c.hist inp = some none ∨
      ∃ len off, pglzFindMatch source dend mask gm gd c.hist inp =
          some (some (len, off)) ∧
        (tag len off).Fits source inp ∧ inp + len ≤ dend := by
  have hmx : pglzMaxMatch = 273 := rfl
  have hst : ∀ q ∈ lastPos (pglzHistIdx source dend mask)
      (pglzHistIdx source dend mask inp) (inp - pglzHistorySize) inp,
      inp - pglzHistorySize ≤ q ∧ q < inp ∧
        q < inp - pglzHistorySize + (pglzHistorySize + 1) - 1 := by
    intro q hq
    obtain ⟨hql, hqn, -⟩ := lastPos_eq_some.mp hq
    omega
  have hn : BestMatch source dend inp 0 0 := .inl rfl
  obtain ⟨⟨len, off⟩, hl, hb⟩ := @findMatchLoop_spec source dend _ _ _ _ gd _ h.linked
    hin (pglzHistorySize + 1) gm _ _ _ hst (Nat.succ_pos _) hn
  unfold pglzFindMatch
  rw [h.linked.start _ (hms inp), hl, Option.map_some]
  by_cases hln : len > 2
  · right
    refine ⟨len, off.toNat, by simp only [if_pos hln], ?_⟩
    obtain hz | ⟨hp, hlt, hof, hnr, hm, he, hs⟩ := hb
    · omega
    have ho : off.toNat = inp - hp := by omega
    rw [ho]
    refine ⟨⟨by omega, by omega, by omega, hnr, by omega, fun i hi => ?_⟩, he⟩
    rw [hs i hi]
    congr 1
    omega
  left
  simp only [if_neg hln]

end Matches

/-! ## Output -/

/-- The variables of `pglz_compress` that its loop changes; `ctrlp` is `none` while it
points to `ctrl_dummy`. -/
structure CompressState where
  dp : Nat
  bp : Nat
  dest : PgBuffer
  ctrlp : Option Nat
  ctrlb : PgByte
  ctrl : PgByte
  foundMatch : Bool
  cursor : HistCursor

def writeBytes (dest : PgBuffer) (bp : Nat) : List PgByte → PgBuffer
  | [] => dest
  | byte :: bytes => writeBytes (Function.update dest bp byte) (bp + 1) bytes

/-- `*ctrlp = ctrlb`. -/
def writeControl (st : CompressState) : PgBuffer := match st.ctrlp with
  | none => st.dest
  | some p => Function.update st.dest p st.ctrlb

def pglzOutCtrl (st : CompressState) : CompressState :=
  if st.ctrl &&& 0xff = 0 then
    { st with dest := writeControl st, ctrlp := some st.bp, bp := st.bp + 1, ctrlb := 0, ctrl := 1 }
  else st

/-- `pglz_out_literal` and `pglz_out_tag`. -/
def pglzOut (item : LzItem) (st : CompressState) : CompressState :=
  let st := pglzOutCtrl st
  { st with
    ctrlb := if item.isTag then st.ctrlb ||| st.ctrl else st.ctrlb
    ctrl := st.ctrl <<< 1
    dest := writeBytes st.dest st.bp item.bytes
    bp := st.bp + item.bytes.length }

theorem writeBytes_of_lt {dest : PgBuffer} {bp i : Nat} (bytes : List PgByte) (hi : i < bp) :
    writeBytes dest bp bytes i = dest i := by
  induction bytes generalizing dest bp with
  | nil => rfl
  | cons byte bytes ih => rw [writeBytes, ih (by omega), update_of_ne (by omega)]

theorem bytesAt_writeBytes (dest : PgBuffer) (bp : Nat) (bytes : List PgByte) :
    BytesAt (writeBytes dest bp bytes) bp bytes := by
  induction bytes generalizing dest bp with
  | nil => trivial
  | cons byte bytes ih =>
    refine ⟨?_, ih _ _⟩
    rw [writeBytes, writeBytes_of_lt bytes (Nat.lt_succ_self bp), update_self]

/-- **The output so far**: full groups, and a last group whose control byte is still
in `ctrlb`. -/
structure GroupOpen (st : CompressState) (full : List (List LzItem)) (last : List LzItem) :
    Prop where
  eight : ∀ group ∈ full, group.length = 8
  room : last.length ≤ 8
  ctrlp : st.ctrlp = some (full.flatMap groupBytes).length
  bp : st.bp = (full.flatMap groupBytes).length + 1 + (last.flatMap bytes).length
  ctrl : st.ctrl = (1 : PgByte) <<< last.length
  ctrlb : st.ctrlb = controlByte last
  written : BytesAt st.dest 0 (full.flatMap groupBytes)
  items : BytesAt st.dest ((full.flatMap groupBytes).length + 1) (last.flatMap bytes)

variable {st : CompressState} {full : List (List LzItem)} {last : List LzItem}

theorem GroupOpen.bytesAt (h : GroupOpen st full last) :
    BytesAt (writeControl st) 0 ((full ++ [last]).flatMap groupBytes) ∧
      st.bp = ((full ++ [last]).flatMap groupBytes).length := by
  have hc : writeControl st =
      update st.dest (full.flatMap groupBytes).length (controlByte last) := by
    rw [writeControl, h.ctrlp, h.ctrlb]
  have hb : (full ++ [last]).flatMap groupBytes =
      full.flatMap groupBytes ++ controlByte last :: last.flatMap bytes := by
    simp [groupBytes]
  rw [hb, bytesAt_append, hc]
  refine ⟨⟨h.written.congr fun i _ hi => ?_, ?_, ?_⟩, ?_⟩
  · exact update_of_ne (by omega) _ _
  · rw [zero_add, update_self]
  · rw [zero_add]
    exact h.items.congr fun i hi _ => update_of_ne (by omega) _ _
  rw [h.bp, length_append, length_cons]
  omega

structure NothingOut (st : CompressState) : Prop where
  ctrlp : st.ctrlp = none
  bp : st.bp = 0
  ctrl : st.ctrl = 0

theorem shift_eq_zero_iff : ∀ n ≤ 8, ((1 : PgByte) <<< n &&& 0xff = 0 ↔ n = 8) := by decide

section

variable (h : GroupOpen st full last ∨ NothingOut st ∧ full = [] ∧ last = [])
include h

theorem groupOpen_outCtrl :
    ∃ full' last', GroupOpen (pglzOutCtrl st) full' last' ∧ last'.length < 8 ∧
      full'.flatten ++ last' = full.flatten ++ last := by
  obtain h | ⟨h, rfl, rfl⟩ := h
  · have hz := shift_eq_zero_iff last.length h.room
    rw [← h.ctrl] at hz
    by_cases hf : last.length = 8
    · obtain ⟨hb, hbp⟩ := h.bytesAt
      refine ⟨full ++ [last], [], ?_, by decide, by simp⟩
      rw [pglzOutCtrl, if_pos (hz.mpr hf)]
      refine ⟨forall_mem_append.mpr ⟨h.eight, forall_mem_singleton.mpr hf⟩, by decide, ?_, ?_, rfl,
        rfl, hb, trivial⟩
      · simp only [hbp]
      simp only [hbp, flatMap_nil, length_nil, add_zero]
    refine ⟨full, last, ?_, lt_of_le_of_ne h.room hf, rfl⟩
    rw [pglzOutCtrl, if_neg fun hc => hf (hz.mp hc)]
    exact h
  refine ⟨[], [], ?_, by decide, rfl⟩
  rw [pglzOutCtrl, if_pos (by rw [h.ctrl]; rfl)]
  exact ⟨by simp, by decide, by simp [h.bp], by simp [h.bp], rfl, rfl, trivial, trivial⟩

/-- **An item is put out**: it is the next of the last group. -/
theorem groupOpen_out (item : LzItem) :
    ∃ full' last', GroupOpen (pglzOut item st) full' last' ∧ 1 ≤ last'.length ∧
      full'.flatten ++ last' = full.flatten ++ last ++ [item] := by
  obtain ⟨full', last', ho, hr, hit⟩ := groupOpen_outCtrl h
  refine ⟨full', last' ++ [item], ?_, by simp, by rw [← append_assoc, hit]⟩
  have hf : (last' ++ [item]).flatMap bytes = last'.flatMap bytes ++ item.bytes := by simp
  refine ⟨ho.eight, by simpa using hr, ho.ctrlp, ?_, ?_, ?_, ?_, ?_⟩
  · simp only [pglzOut, hf, length_append, ho.bp]
    omega
  · simp only [pglzOut, ho.ctrl, length_append, length_singleton]
    rw [BitVec.shiftLeft_add]
  · rw [controlByte_append, ← ho.ctrlb]
    simp only [pglzOut, ho.ctrl]
    split
    · rfl
    · simp
  · refine ho.written.congr fun i _ hi => ?_
    refine writeBytes_of_lt _ ?_
    rw [ho.bp]
    omega
  rw [hf, bytesAt_append]
  constructor
  · refine ho.items.congr fun i _ hi => writeBytes_of_lt _ ?_
    rw [ho.bp]
    exact hi
  · rw [← ho.bp]
    exact bytesAt_writeBytes (pglzOutCtrl st).dest (pglzOutCtrl st).bp item.bytes

end

/-! ## pglz_compress -/

structure PglzStrategy where
  minInputSize : Int
  maxInputSize : Int
  minCompRate : Int
  firstSuccessBy : Int
  matchSizeGood : Int
  matchSizeDrop : Int

def pglzStrategyDefault : PglzStrategy := ⟨32, 2147483647, 25, 1024, 128, 10⟩

variable (strategy : PglzStrategy)

/-- `good_match`, limited to the supported range. -/
def goodMatchOf : Nat :=
  if strategy.matchSizeGood > pglzMaxMatch then pglzMaxMatch
  else if strategy.matchSizeGood < 17 then 17
  else strategy.matchSizeGood.toNat

/-- `good_drop`, limited to 0 to 100. -/
def goodDropOf : Nat :=
  if strategy.matchSizeDrop < 0 then 0
  else if strategy.matchSizeDrop > 100 then 100
  else strategy.matchSizeDrop.toNat

/-- `need_rate`, limited to 0 to 99. -/
def needRateOf : Nat :=
  if strategy.minCompRate < 0 then 0
  else if strategy.minCompRate > 99 then 99
  else strategy.minCompRate.toNat

/-- `result_max`. -/
def resultMaxOf (slen : Nat) : Nat :=
  if slen > 2147483647 / 100 then slen / 100 * (100 - needRateOf strategy)
  else slen * (100 - needRateOf strategy) / 100

/-- `hashsz`. -/
def hashSizeOf (slen : Nat) : Nat :=
  if slen < 128 then 512
  else if slen < 256 then 1024
  else if slen < 512 then 2048
  else if slen < 1024 then 4096
  else 8192

def histAddMatch (source : PgBuffer) (dend mask : Nat) : Nat → Nat → HistCursor → HistCursor
  | 0, _, c => c
  | len + 1, dp, c => histAddMatch source dend mask len (dp + 1) (pglzHistAdd source dend mask dp c)

/-- An item is put out, and its positions are added to the history. -/
def emitItem (dend mask : Nat) (item : LzItem) (st : CompressState) :
    CompressState :=
  let out := pglzOut item st
  { out with
    dp := st.dp + item.span
    cursor := histAddMatch source dend mask item.span st.dp st.cursor
    foundMatch := st.foundMatch || item.isTag }

/-- How the loop of `pglz_compress` ends. -/
inductive CompressOutcome
  | failed (st : CompressState)
  | done (st : CompressState)
  | running

/-- The loop of `pglz_compress`; every turn takes a byte of the input. -/
def compressLoop (source : PgBuffer) (dend mask resultMax goodMatch goodDrop : Nat)
    (firstSuccessBy : Int) : Nat → CompressState → CompressOutcome
  | fuel, st =>
    if st.dp < dend then
      match fuel with
      | 0 => .running
      | fuel + 1 =>
        if st.bp ≥ resultMax then .failed st
        else if st.foundMatch = false ∧ (st.bp : Int) ≥ firstSuccessBy then .failed st
        else
          match pglzFindMatch source dend mask goodMatch goodDrop st.cursor.hist st.dp with
          | none => .running
          | some (some (len, off)) =>
            compressLoop source dend mask resultMax goodMatch goodDrop firstSuccessBy fuel
              (emitItem source dend mask (.tag len off) st)
          | some none =>
            compressLoop source dend mask resultMax goodMatch goodDrop firstSuccessBy fuel
              (emitItem source dend mask (.literal (source st.dp)) st)
    else .done st

/-- `pglz_compress`: the result, the output buffer and the tables it leaves; `none` if
it does not end. -/
def pglzCompress (slen : Nat) (dest : PgBuffer) (strategy : Option PglzStrategy)
    (hist : PglzHistory) :
    Option (Int × PgBuffer × PglzHistory) :=
  let strategy := strategy.getD pglzStrategyDefault
  if strategy.matchSizeGood ≤ 0 ∨ (slen : Int) < strategy.minInputSize ∨
      (slen : Int) > strategy.maxInputSize then some (-1, dest, hist)
  else
    let hashsz := hashSizeOf slen
    let hist := { hist with start := fun h => if h < hashsz then 0 else hist.start h }
    let resultMax := resultMaxOf strategy slen
    match compressLoop source slen (hashsz - 1) resultMax (goodMatchOf strategy)
        (goodDropOf strategy) strategy.firstSuccessBy slen
        ⟨0, 0, dest, none, 0, 0, false, ⟨hist, 1, false⟩⟩ with
    | .running => none
    | .failed st => some (-1, st.dest, st.cursor.hist)
    | .done st =>
      let dest := writeControl st
      if st.bp ≥ resultMax then some (-1, dest, st.cursor.hist)
      else some (st.bp, dest, st.cursor.hist)

theorem pglzHistIdx_lt (dend slen s : Nat) :
    pglzHistIdx source dend (hashSizeOf slen - 1) s < hashSizeOf slen := by
  have hs : 0 < hashSizeOf slen ∧ hashSizeOf slen ≤ 8192 := by
    unfold hashSizeOf
    split_ifs <;> decide
  have hm : (BitVec.ofNat 32 (hashSizeOf slen - 1)).toNat = hashSizeOf slen - 1 := by
    rw [BitVec.toNat_ofNat, Nat.mod_eq_of_lt (by omega)]
  have hle : pglzHistIdx source dend (hashSizeOf slen - 1) s ≤ hashSizeOf slen - 1 := by
    rw [pglzHistIdx, BitVec.toNat_and, hm]
    exact Nat.and_le_right
  omega

/-- What the loop keeps: the tables, and an output that stands for the input so far. -/
structure CompressOk (source : PgBuffer) (slen : Nat) (st : CompressState) : Prop where
  bound : st.dp ≤ slen
  history : HistoryOk (pglzHistIdx source slen (hashSizeOf slen - 1)) (hashSizeOf slen) st.dp
    st.cursor
  output : ∃ full last, (GroupOpen st full last ∧ 1 ≤ last.length ∨
      NothingOut st ∧ full = [] ∧ last = []) ∧ LzCovers source 0 (full.flatten ++ last) st.dp

variable {source : PgBuffer}

theorem historyOk_histAddMatch {dend mask has dp len : Nat} {c : HistCursor}
    (hm : ∀ q, pglzHistIdx source dend mask q < has)
    (h : HistoryOk (pglzHistIdx source dend mask) has dp c) :
    HistoryOk (pglzHistIdx source dend mask) has (dp + len)
      (histAddMatch source dend mask len dp c) := by
  induction len generalizing dp c with
  | zero => exact h
  | succ len ih =>
    rw [histAddMatch, add_comm len 1, ← add_assoc]
    exact ih (historyOk_histAdd hm h)

theorem compressOk_emitItem {slen : Nat} (h : CompressOk source slen st)
    {item : LzItem} (hf : item.Fits source st.dp) (he : st.dp + item.span ≤ slen) :
    CompressOk source slen (emitItem source slen (hashSizeOf slen - 1) item st) := by
  obtain ⟨full, last, hot, hc⟩ := h.output
  refine ⟨he, historyOk_histAddMatch (pglzHistIdx_lt source slen slen) h.history, ?_⟩
  obtain ⟨full', last', ho, hp, hi⟩ := groupOpen_out (hot.imp_left And.left) item
  refine ⟨full', last', .inl ⟨?_, hp⟩, ?_⟩
  · exact { ho with }
  rw [hi, lzCovers_append]
  exact ⟨st.dp, hc, hf, rfl⟩

theorem compressLoop_spec {slen rm gm gd : Nat}
    {firstSuccessBy : Int} {fuel : Nat} {st : CompressState} (h : CompressOk source slen st)
    (hfl : slen ≤ st.dp + fuel) :
    (∃ st', compressLoop source slen (hashSizeOf slen - 1) rm gm gd
        firstSuccessBy fuel st = .failed st') ∨
      ∃ st', compressLoop source slen (hashSizeOf slen - 1) rm gm gd
        firstSuccessBy fuel st = .done st' ∧ CompressOk source slen st' ∧ st'.dp = slen := by
  induction fuel generalizing st with
  | zero =>
    have he : ¬ st.dp < slen := by omega
    rw [compressLoop, if_neg he]
    exact .inr ⟨st, rfl, h, by have := h.bound; omega⟩
  | succ fuel ih =>
    rw [compressLoop]
    by_cases he : st.dp < slen
    · rw [if_pos he]
      split
      · exact .inl ⟨_, rfl⟩
      split
      · exact .inl ⟨_, rfl⟩
      rcases @pglzFindMatch_spec source slen (hashSizeOf slen) (hashSizeOf slen - 1) gm
        gd st.dp st.cursor h.history (pglzHistIdx_lt source slen slen) h.bound with
        hn | ⟨len, off, hm, hf, hl⟩
      · rw [hn]
        refine ih (compressOk_emitItem h rfl he) ?_
        change slen ≤ st.dp + 1 + fuel
        omega
      rw [hm]
      have hs := hf.1
      refine ih (compressOk_emitItem h hf hl) ?_
      change slen ≤ st.dp + len + fuel
      omega
    rw [if_neg he]
    exact .inr ⟨st, rfl, h, by have := h.bound; omega⟩

theorem wellGrouped_append (hf : ∀ group ∈ full, group.length = 8) (hp : 1 ≤ last.length)
    (hrm : last.length ≤ 8) : WellGrouped (full ++ [last]) := by
  induction full with
  | nil => exact ⟨hp, hrm⟩
  | cons group full ih =>
    have hr := ih fun g hg => hf g (mem_cons_of_mem group hg)
    have height := hf group mem_cons_self
    cases hc : full ++ [last] with
    | nil => simp at hc
    | cons next rest =>
      rw [cons_append, hc]
      rw [hc] at hr
      exact ⟨height, hr⟩

/-- **The PGLZ round trip.**  In every state of the history tables `pglz_compress` ends;
a nonnegative result is below the limit of the strategy, and the bytes it counts are
decompressed to the whole input. -/
theorem pglz_round_trip (source : PgBuffer) (slen : Nat) (dest : PgBuffer)
    (strategy : Option PglzStrategy) (hist : PglzHistory) :
    ∃ n dest' hist', pglzCompress source slen dest strategy hist = some (n, dest', hist') ∧
      (0 ≤ n → n < resultMaxOf (strategy.getD pglzStrategyDefault) slen ∧
        ∀ compressed, (∀ i < n.toNat, compressed i = dest' i) → ∀ output,
          ∃ output', pglzDecompress compressed n.toNat output slen true = ((slen : Int), output') ∧
            ∀ i < slen, output' i = source i) := by
  unfold pglzCompress
  simp only
  split
  · exact ⟨-1, dest, hist, rfl, fun h => absurd h (by decide)⟩
  set hist₀ : PglzHistory :=
    { hist with start := fun h => if h < hashSizeOf slen then 0 else hist.start h } with hhs₀
  have hin : CompressOk source slen ⟨0, 0, dest, none, 0, 0, false, ⟨hist₀, 1, false⟩⟩ := by
    refine ⟨Nat.zero_le _, ⟨⟨fun h hh => if_pos hh, ?_, ?_, ?_, ?_, ?_⟩, rfl, rfl⟩,
      [], [], .inr ⟨⟨rfl, rfl, rfl⟩, rfl, rfl⟩, rfl⟩
    · exact fun q _ hq => absurd hq (Nat.not_lt_zero q)
    · exact fun q _ hq => absurd hq (Nat.not_lt_zero q)
    · exact fun q _ hq => absurd hq (Nat.not_lt_zero q)
    · exact fun q hq => by cases hq
    · exact fun q q' hq' => absurd hq' (Nat.not_lt_zero q')
  rcases @compressLoop_spec source slen (resultMaxOf (strategy.getD pglzStrategyDefault) slen)
    (goodMatchOf (strategy.getD pglzStrategyDefault))
    (goodDropOf (strategy.getD pglzStrategyDefault))
    (strategy.getD pglzStrategyDefault).firstSuccessBy slen _ hin (by simp) with
    ⟨st, hl⟩ | ⟨st, hl, hok, he⟩
  · rw [hl]
    exact ⟨-1, st.dest, st.cursor.hist, rfl, fun h => absurd h (by decide)⟩
  rw [hl]
  simp only
  split
  · exact ⟨-1, _, _, rfl, fun h => absurd h (by decide)⟩
  rename_i hm
  refine ⟨st.bp, _, _, rfl, fun _ => ⟨by omega, fun compressed hcp output => ?_⟩⟩
  obtain ⟨full, last, hot, hc⟩ := hok.output
  obtain ⟨ho, hp⟩ | ⟨_, rfl, rfl⟩ := hot
  · obtain ⟨hb, hbp⟩ := ho.bytesAt
    have hr : BytesAt compressed 0 ((full ++ [last]).flatMap groupBytes) := by
      refine hb.congr fun i _ hi => hcp i ?_
      omega
    have ht : LzCovers source 0 (full ++ [last]).flatten slen := by
      rw [← he]
      simpa using hc
    rw [hbp]
    exact pglzDecompress_groups (wellGrouped_append ho.eight hp ho.room) hr ht
      output true
  -- an empty input is never compressed
  have hz : slen = 0 := by
    rw [← he]
    exact hc.symm
  rw [hz] at hm
  exact absurd (by simp [resultMaxOf]) hm

end AthenaPG
