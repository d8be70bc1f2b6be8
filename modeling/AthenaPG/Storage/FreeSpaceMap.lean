import AthenaPG.Storage.FreeSpace

/-!
Recording, vacuum and search in the free space map
(`src/backend/storage/freespace/freespace.c`).

* `Exact`, `fsmVacuumPage_spec`: a vacuum makes every upper slot the maximum of the page
  below, whatever part of the tree the file holds;
* `fsmSearchFrom_spec`: a search from a page of an exact tree ends at a block;
* **`freeSpaceMap_correct`**: addresses are mutually inverse, and after a vacuum the map
  finds a recorded block with enough space whenever there is one.
-/

namespace AthenaPG
open Nat Function

/-! ## Categories -/

def fsmCatStep : Nat := fsmBlockSize / 256

/-- `MaxFSMRequestSize`: a block without its header and one line pointer, aligned. -/
def maxFSMRequestSize : Nat := fsmBlockSize - 32

def fsmSpaceAvailToCat (avail : Nat) : Nat :=
  if avail ≥ maxFSMRequestSize then 255
  else if avail / fsmCatStep > 254 then 254
  else avail / fsmCatStep

def fsmSpaceNeededToCat (needed : Nat) : Except String Nat :=
  if needed > maxFSMRequestSize then .error s!"invalid FSM request size {needed}"
  else if needed = 0 then .ok 1
  else if (needed + fsmCatStep - 1) / fsmCatStep > 255 then .ok 255
  else .ok ((needed + fsmCatStep - 1) / fsmCatStep)

variable {needed cat : Nat} {rel : FSMRel} {lv n slot m : Nat} {rel' : FSMRel}
  {known : Nat → Option Nat}

theorem fsmSpaceNeededToCat_pos (h : fsmSpaceNeededToCat needed = .ok cat) : 0 < cat := by
  unfold fsmSpaceNeededToCat fsmCatStep fsmBlockSize at h
  split at h
  · cases h
  split at h
  · cases h
    omega
  · split at h <;> cases h <;> omega

theorem le_of_category_le {av : Nat} (h : fsmSpaceNeededToCat needed = .ok cat)
    (hc : cat ≤ fsmSpaceAvailToCat av) : needed ≤ av := by
  unfold fsmSpaceNeededToCat fsmCatStep maxFSMRequestSize fsmBlockSize at h
  unfold fsmSpaceAvailToCat fsmCatStep maxFSMRequestSize fsmBlockSize at hc
  split at h
  · cases h
  split at h
  · omega
  · split at h <;> cases h <;> split at hc <;> (try split at hc) <;> omega

/-! ## The file -/

structure FSMRel where
  nblocks : Nat
  pages : Nat → FSMPage

open FSMRel

def FSMRel.empty : FSMRel := ⟨0, fun _ => FSMPage.empty⟩

variable (rel)

def FSMRel.setPage (blkno : Nat) (page : FSMPage) : FSMRel :=
  { rel with pages := Function.update rel.pages blkno page }

/-- `fsm_extend`: the new pages are empty. -/
def fsmExtend (nblocks : Nat) : FSMRel where
  nblocks := nblocks
  pages := fun b => if rel.nblocks ≤ b ∧ b < nblocks then FSMPage.empty else rel.pages b

variable (addr : FSMAddress)

/-- `fsm_readbuf` without `extend`. -/
def fsmReadbuf : Option Nat :=
  if fsmLogicalToPhysical addr ≥ rel.nblocks then none else some (fsmLogicalToPhysical addr)

/-- `fsm_readbuf` with `extend`. -/
def fsmReadbufExtend : Nat × FSMRel :=
  (fsmLogicalToPhysical addr,
    if fsmLogicalToPhysical addr ≥ rel.nblocks then fsmExtend rel (fsmLogicalToPhysical addr + 1)
    else rel)

def pageRestarts : Nat := 2

def fsmSetAndSearch (slot newValue minValue : Nat) :
    Option (Option Nat × FSMRel) :=
  let (blkno, rel) := fsmReadbufExtend rel addr
  let page := fsmSetAvail (rel.pages blkno) slot newValue
  if minValue ≠ 0 then
    match fsmSearchAvail minValue (addr.level == 0) pageRestarts page with
    | none => none
    | some (newslot, page) => some (newslot, rel.setPage blkno page)
  else some (none, rel.setPage blkno page)

def recordPageWithFreeSpace (heapBlk spaceAvail : Nat) : Option FSMRel :=
  (fsmSetAndSearch rel (fsmGetLocation heapBlk).1 (fsmGetLocation heapBlk).2
    (fsmSpaceAvailToCat spaceAvail) 0).map Prod.snd

/-! ## Vacuum -/

/-- The address of the page of a level that covers a block, and the slot in it. -/
def locationAt (heapblk : Nat) : Nat → FSMAddress × Nat
  | 0 => fsmGetLocation heapblk
  | level + 1 => fsmGetParent (locationAt heapblk level).1

def startSlot (start : Nat) (addr : FSMAddress) : Nat :=
  let (fsmStart, slot) := locationAt start addr.level
  if fsmStart.logpageno = addr.logpageno then slot
  else if fsmStart.logpageno > addr.logpageno then slotsPerFSMPage
  else 0

/-- `end_slot + 1`. -/
def endSlot (endBlk : Nat) (addr : FSMAddress) : Nat :=
  let (fsmEnd, slot) := locationAt (toBlockNumber ((endBlk : Int) - 1)) addr.level
  if fsmEnd.logpageno = addr.logpageno then slot + 1
  else if fsmEnd.logpageno > addr.logpageno then slotsPerFSMPage
  else 0

def setIfChanged (blkno slot childAvail : Nat) : FSMRel :=
  if fsmGetAvail (rel.pages blkno) slot ≠ childAvail then
    rel.setPage blkno (fsmSetAvail (rel.pages blkno) slot childAvail)
  else rel

variable {rel}

/-- The loop of `fsm_vacuum_page` over the slots of an upper page. -/
def vacuumSlots (vacuumChild : Nat → FSMRel → (Nat × Bool) × FSMRel) (blkno : Nat) :
    Nat → Nat → Bool → FSMRel → FSMRel
  | 0, _, _, rel => rel
  | n + 1, slot, true, rel =>
    vacuumSlots vacuumChild blkno n (slot + 1) true (setIfChanged rel blkno slot 0)
  | n + 1, slot, false, rel =>
    let result := vacuumChild slot rel
    vacuumSlots vacuumChild blkno n (slot + 1) result.1.2
      (setIfChanged result.2 blkno slot result.1.1)

/-- `fp_next_slot` is reset. -/
def resetNextSlot (rel : FSMRel) (blkno : Nat) : FSMRel :=
  rel.setPage blkno { rel.pages blkno with nextSlot := 0 }

/-- `fsm_vacuum_page` at the bottom level: the maximum of the page and `*eof_p`. -/
def vacuumLeaf (rel : FSMRel) (addr : FSMAddress) : (Nat × Bool) × FSMRel :=
  match fsmReadbuf rel addr with
  | none => ((0, true), rel)
  | some blkno => ((fsmGetMaxAvail (rel.pages blkno), false), resetNextSlot rel blkno)

/-- `fsm_vacuum_page` above the bottom level, over its recursive calls. -/
def vacuumUpper (start endBlk : Nat) (vacuumChild : Nat → FSMRel → (Nat × Bool) × FSMRel)
    (rel : FSMRel) (addr : FSMAddress) : (Nat × Bool) × FSMRel :=
  match fsmReadbuf rel addr with
  | none => ((0, true), rel)
  | some blkno =>
    let rel := vacuumSlots vacuumChild blkno (endSlot endBlk addr - startSlot start addr)
      (startSlot start addr) false rel
    ((fsmGetMaxAvail (rel.pages blkno), false), resetNextSlot rel blkno)

def fsmVacuumPage (start endBlk : Nat) : Nat → Int → FSMRel → (Nat × Bool) × FSMRel
  | 0, logpageno, rel => vacuumLeaf rel ⟨0, logpageno⟩
  | level + 1, logpageno, rel =>
    vacuumUpper start endBlk
      (fun slot rel => fsmVacuumPage start endBlk level
        (fsmGetChild ⟨level + 1, logpageno⟩ slot).logpageno rel)
      rel ⟨level + 1, logpageno⟩

variable (rel)

def freeSpaceMapVacuum : FSMRel :=
  (fsmVacuumPage 0 invalidHeapBlock fsmRootAddress.level fsmRootAddress.logpageno rel).2

/-! ## Search -/

/-- The search in the page at an address: the slot, the maximum of the page, the relation. -/
def searchPage (minCat : Nat) (rel : FSMRel) (addr : FSMAddress) :
    Option (Option Nat × Nat × FSMRel) :=
  match fsmReadbuf rel addr with
  | none => some (none, 0, rel)
  | some blkno =>
    match fsmSearchAvail minCat (addr.level == 0) pageRestarts (rel.pages blkno) with
    | none => none
    | some (slot, page) => some (slot, fsmGetMaxAvail page, rel.setPage blkno page)

/-- The loop of `fsm_search`. -/
def fsmSearchFrom (minCat : Nat) (rel : FSMRel) (addr : FSMAddress) (restarts : Nat) :
    Option (Nat × FSMRel) :=
  match searchPage minCat rel addr with
  | none => none
  | some (some slot, _, rel) =>
    if addr.level = 0 then some (fsmGetHeapBlk addr slot, rel)
    else fsmSearchFrom minCat rel (fsmGetChild addr slot) restarts
  | some (none, maxAvail, rel) =>
    if addr.level = fsmRootAddress.level then some (invalidHeapBlock, rel)
    else
      match fsmSetAndSearch rel (fsmGetParent addr).1 (fsmGetParent addr).2 maxAvail 0 with
      | none => none
      | some (_, rel) =>
        if restarts > 10000 then some (invalidHeapBlock, rel)
        else fsmSearchFrom minCat rel fsmRootAddress (restarts + 1)
termination_by (10002 - restarts, addr.level)
decreasing_by
  · refine Prod.Lex.right _ ?_
    simp only [fsmGetChild]
    omega
  · refine Prod.Lex.left _ _ ?_
    omega

def getPageWithFreeSpace (spaceNeeded : Nat) :
    Option (Except String (Nat × FSMRel)) :=
  match fsmSpaceNeededToCat spaceNeeded with
  | .error message => some (.error message)
  | .ok minCat => (fsmSearchFrom minCat rel fsmRootAddress 0).map .ok

/-! ## What the map holds -/

/-- The page at a place of the file; pages past the end count as empty. -/
def FSMRel.page (blkno : Nat) : FSMPage :=
  if blkno < rel.nblocks then rel.pages blkno else FSMPage.empty

/-- The nodes of page `n` of a level. -/
def FSMRel.nodesAt (level n : Nat) : Nat → Nat := (rel.page (physicalOf level n)).nodes

/-- A slot of page `n` of a level. -/
def FSMRel.value (level n slot : Nat) : Nat := rel.nodesAt level n (nonLeafNodesPerPage + slot)

/-- The root of page `n` of a level. -/
def FSMRel.top (level n : Nat) : Nat := rel.nodesAt level n 0

/-- Every page of the file is in order. -/
def RelOk : Prop := ∀ blkno, PageOk (rel.page blkno)

/-- The slots of upper pages that cover no block number are empty. -/
def ClearBeyond : Prop :=
  ∀ level n slot, ValidPage (level + 1) n → slot < slotsPerFSMPage →
    ¬ ValidPage level (n * slotsPerFSMPage + slot) → rel.value (level + 1) n slot = 0

variable {rel}

/-- Page `m` of level `k` belongs to the tree under page `n` of a level. -/
def InsideTree (level n k m : Nat) : Prop := k ≤ level ∧ m / slotsPerFSMPage ^ (level - k) = n

/-- In the tree under a page every slot holds the maximum of the page below it. -/
def Exact (rel : FSMRel) : Nat → Nat → Prop
  | 0, _ => True
  | level + 1, n => ∀ slot < slotsPerFSMPage,
    (rel.value (level + 1) n slot = if ValidPage level (n * slotsPerFSMPage + slot) then
      rel.top level (n * slotsPerFSMPage + slot) else 0) ∧
    (ValidPage level (n * slotsPerFSMPage + slot) → Exact rel level (n * slotsPerFSMPage + slot))

theorem page_setPage {blk : Nat} {page : FSMPage} (h : blk < rel.nblocks) (b : Nat) :
    (rel.setPage blk page).page b = if b = blk then page else rel.page b := by
  unfold FSMRel.page FSMRel.setPage
  obtain rfl | hne := eq_or_ne b blk
  · rw [if_pos rfl, if_pos h]
    exact update_self ..
  rw [if_neg hne]
  simp only [update_of_ne hne]

theorem nodesAt_eq_zero (h : rel.nblocks ≤ physicalOf lv n) (i : Nat) : rel.nodesAt lv n i = 0 := by
  unfold nodesAt page
  rw [if_neg (by omega)]
  rfl

theorem slotsPerFSMPage_pos : 0 < slotsPerFSMPage := by
  rw [slotsPerFSMPage_eq]
  omega

theorem insideTree_self (lv n : Nat) : InsideTree lv n lv n := by
  refine ⟨le_refl _, ?_⟩
  rw [Nat.sub_self, pow_zero, Nat.div_one]

theorem insideTree_child {k : Nat} (hs : slot < slotsPerFSMPage)
    (h : InsideTree lv (n * slotsPerFSMPage + slot) k m) : InsideTree (lv + 1) n k m := by
  refine ⟨le_succ_of_le h.1, ?_⟩
  rw [succ_sub h.1, pow_succ, ← Nat.div_div_eq_div_mul, h.2, mul_comm,
    mul_add_div slotsPerFSMPage_pos, div_eq_of_lt hs, add_zero]

theorem not_insideTree_sibling {slot' k : Nat} (hne : slot ≠ slot')
    (h : InsideTree lv (n * slotsPerFSMPage + slot) k m) :
    ¬ InsideTree lv (n * slotsPerFSMPage + slot') k m := by
  intro h'
  have := h.2.symm.trans h'.2
  omega

theorem not_insideTree_parent {a : Nat} : ¬ InsideTree lv a (lv + 1) n := by
  intro h
  have := h.1
  omega

theorem Exact.congr (h : Exact rel lv n) (hvl : ValidPage lv n)
    (hs : ∀ k m, ValidPage k m → InsideTree lv n k m → rel'.nodesAt k m = rel.nodesAt k m) :
    Exact rel' lv n := by
  induction lv generalizing n with
  | zero => trivial
  | succ lv ih =>
    intro slot hsl
    obtain ⟨hv, he⟩ := h slot hsl
    constructor
    · unfold value top at hv ⊢
      rw [hs _ _ hvl (insideTree_self _ _), hv]
      split
      next hc => rw [hs _ _ hc (insideTree_child hsl (insideTree_self _ _))]
      · rfl
    · intro hc
      exact ih (he hc) hc fun k m hkm hin => hs k m hkm (insideTree_child hsl hin)

theorem exact_beyond (hv : ValidPage lv n) (h : rel.nblocks ≤ physicalOf lv n) :
    Exact rel lv n := by
  induction lv generalizing n with
  | zero => trivial
  | succ lv ih =>
    intro slot _
    have hc : rel.nblocks ≤ physicalOf lv (n * slotsPerFSMPage + slot) :=
      le_trans h (physicalOf_child hv)
    constructor
    · unfold value top
      rw [nodesAt_eq_zero h, nodesAt_eq_zero hc, ite_self]
    · exact fun hv' => ih hv' hc

/-! ## The vacuum -/

structure Vacuumed (rel rel' : FSMRel) (level n : Nat) : Prop where
  nblocks : rel'.nblocks = rel.nblocks
  ok : RelOk rel'
  clear : ClearBeyond rel'
  outside : ∀ k m, ValidPage k m → ¬ InsideTree level n k m → rel'.nodesAt k m = rel.nodesAt k m
  leaves : ∀ m, ValidPage 0 m → rel'.nodesAt 0 m = rel.nodesAt 0 m

theorem Vacuumed.refl (hok : RelOk rel) (hc : ClearBeyond rel) (lv n : Nat) :
    Vacuumed rel rel lv n :=
  ⟨rfl, hok, hc, fun _ _ _ _ => rfl, fun _ _ => rfl⟩

theorem Vacuumed.trans {a b c : FSMRel} (hab : Vacuumed a b lv n) (hbc : Vacuumed b c lv n) :
    Vacuumed a c lv n :=
  ⟨hbc.nblocks.trans hab.nblocks, hbc.ok, hbc.clear,
    fun k m hkm ho => (hbc.outside k m hkm ho).trans (hab.outside k m hkm ho),
    fun m hm => (hbc.leaves m hm).trans (hab.leaves m hm)⟩

theorem Vacuumed.parent (hs : slot < slotsPerFSMPage)
    (h : Vacuumed rel rel' lv (n * slotsPerFSMPage + slot)) : Vacuumed rel rel' (lv + 1) n :=
  ⟨h.nblocks, h.ok, h.clear,
    fun k m hkm ho => h.outside k m hkm fun hin => ho (insideTree_child hs hin), h.leaves⟩

theorem Vacuumed.resetNextSlot {blk : Nat} (h : Vacuumed rel rel' lv n) (hbl : blk < rel'.nblocks) :
    Vacuumed rel (resetNextSlot rel' blk) lv n ∧
      ∀ k m, (AthenaPG.resetNextSlot rel' blk).nodesAt k m = rel'.nodesAt k m := by
  have hn : ∀ b, ((AthenaPG.resetNextSlot rel' blk).page b).nodes = (rel'.page b).nodes := by
    intro b
    unfold AthenaPG.resetNextSlot
    rw [page_setPage hbl]
    split
    next hb => rw [hb, page, if_pos hbl]
    · rfl
  refine ⟨⟨h.nblocks, fun b i hi => ?_, fun l m slot hm hs ho => ?_,
    fun k m hkm ho => (hn _).trans (h.outside k m hkm ho),
    fun m hm => (hn _).trans (h.leaves m hm)⟩, fun k m => hn _⟩
  · have hok := h.ok b i hi
    unfold NodeOk childMax nodeOrZero at hok ⊢
    rw [hn b]
    exact hok
  have hc := h.clear l m slot hm hs ho
  unfold value nodesAt at hc ⊢
  rw [hn]
  exact hc

theorem setIfChanged_spec (value : Nat) (hvl : ValidPage (lv + 1) n)
    (hb : physicalOf (lv + 1) n < rel.nblocks) (hok : RelOk rel) (hc : ClearBeyond rel)
    (hslo : slot < slotsPerFSMPage) (hch : ValidPage lv (n * slotsPerFSMPage + slot)) :
    Vacuumed rel (setIfChanged rel (physicalOf (lv + 1) n) slot value) (lv + 1) n ∧
    (∀ s, (setIfChanged rel (physicalOf (lv + 1) n) slot value).value (lv + 1) n s =
      if s = slot then value else rel.value (lv + 1) n s) ∧
    ∀ k m, ValidPage k m → ¬ (k = lv + 1 ∧ m = n) →
      (setIfChanged rel (physicalOf (lv + 1) n) slot value).nodesAt k m = rel.nodesAt k m := by
  have hp : rel.page (physicalOf (lv + 1) n) = rel.pages (physicalOf (lv + 1) n) := if_pos hb
  unfold setIfChanged
  split
  · have hst := fsmSetAvail_ok (hok (physicalOf (lv + 1) n)) value hslo
    rw [hp] at hst
    set page := fsmSetAvail (rel.pages (physicalOf (lv + 1) n)) slot value
    have hv : ∀ s, (rel.setPage (physicalOf (lv + 1) n) page).value (lv + 1) n s =
        if s = slot then value else rel.value (lv + 1) n s := by
      intro s
      unfold FSMRel.value FSMRel.nodesAt
      rw [page_setPage hb, if_pos rfl, hp]
      exact hst.2 s
    have ho : ∀ k m, ValidPage k m → ¬ (k = lv + 1 ∧ m = n) →
        (rel.setPage (physicalOf (lv + 1) n) page).nodesAt k m = rel.nodesAt k m := by
      intro k m hkm hne
      unfold nodesAt
      rw [page_setPage hb, if_neg fun heq => hne (physicalOf_injective hkm hvl heq)]
    refine ⟨⟨rfl, fun b => ?_, fun l m s hm hs hot => ?_, fun k m hkm hot => ?_,
      fun m hm => ho 0 m hm (by omega)⟩, hv, ho⟩
    · rw [page_setPage hb]
      split
      · exact hst.1
      · exact hok b
    · by_cases hsl : l + 1 = lv + 1 ∧ m = n
      · obtain ⟨hl, rfl⟩ := hsl
        obtain rfl : l = lv := succ_injective hl
        rw [hv, if_neg ?_]
        · exact hc _ _ s hm hs hot
        rintro rfl
        exact hot hch
      rw [FSMRel.value, ho (l + 1) m hm hsl]
      exact hc l m s hm hs hot
    refine ho k m hkm ?_
    rintro ⟨rfl, rfl⟩
    exact hot (insideTree_self _ _)
  next hsm =>
    refine ⟨.refl hok hc _ _, fun s => ?_, fun _ _ _ _ => rfl⟩
    split
    next hs =>
      rw [hs, FSMRel.value, FSMRel.nodesAt, hp]
      exact not_not.mp hsm
    · rfl

/-- The slots before `slot` hold the maxima of exact trees. -/
def SlotsDone (rel : FSMRel) (level n slot : Nat) : Prop :=
  ∀ s < slot, rel.value (level + 1) n s = rel.top level (n * slotsPerFSMPage + s) ∧
    Exact rel level (n * slotsPerFSMPage + s)

def VacuumSpec (rel : FSMRel) (level n : Nat) (result : (Nat × Bool) × FSMRel) : Prop :=
  Vacuumed rel result.2 level n ∧ Exact result.2 level n ∧ result.1.1 = result.2.top level n ∧
    (result.1.2 = true → rel.nblocks ≤ physicalOf level n)

theorem slotsDone_step {ch : FSMRel} {av : Nat} (hval : ValidPage (lv + 1) n)
    (hbl : physicalOf (lv + 1) n < rel.nblocks) (hsl : slot < slotsPerFSMPage)
    (hc : ValidPage lv (n * slotsPerFSMPage + slot)) (hd : SlotsDone rel lv n slot)
    (hv : Vacuumed rel ch lv (n * slotsPerFSMPage + slot))
    (he : Exact ch lv (n * slotsPerFSMPage + slot))
    (ha : av = ch.top lv (n * slotsPerFSMPage + slot)) :
    Vacuumed rel (setIfChanged ch (physicalOf (lv + 1) n) slot av) (lv + 1) n ∧
      SlotsDone (setIfChanged ch (physicalOf (lv + 1) n) slot av) lv n (slot + 1) := by
  obtain ⟨hst, hva, ho⟩ := setIfChanged_spec av hval
    (by rw [hv.nblocks]; exact hbl) hv.ok hv.clear hsl hc
  have hvl : ∀ s ≤ slot, ValidPage lv (n * slotsPerFSMPage + s) := by
    intro s hs
    refine ⟨hc.1, lt_of_le_of_lt ?_ hc.2⟩
    exact mul_le_mul_right _ (by omega)
  -- pages below the upper page are not touched by the update of its slot
  have hb : ∀ s ≤ slot, ∀ k m, ValidPage k m →
      InsideTree lv (n * slotsPerFSMPage + s) k m →
      (setIfChanged ch (physicalOf (lv + 1) n) slot av).nodesAt k m =
        ch.nodesAt k m := by
    intro s _ k m hkm hin
    refine ho k m hkm ?_
    rintro ⟨rfl, -⟩
    exact not_insideTree_parent hin
  refine ⟨(hv.parent hsl).trans hst, fun s hs => ?_⟩
  obtain hlt | rfl := Nat.lt_succ_iff_lt_or_eq.mp hs
  · obtain ⟨hvalue, hol⟩ := hd s hlt
    have hsb : ∀ k m, ValidPage k m → InsideTree lv (n * slotsPerFSMPage + s) k m →
        ch.nodesAt k m = rel.nodesAt k m := fun k m hkm hin =>
      hv.outside k m hkm (not_insideTree_sibling (by omega) hin)
    constructor
    · rw [hva, if_neg (by omega), value, hv.outside _ _ hval not_insideTree_parent]
      rw [value] at hvalue
      rw [hvalue, top, top,
        hb s (by omega) _ _ (hvl s (by omega)) (insideTree_self _ _),
        hsb _ _ (hvl s (by omega)) (insideTree_self _ _)]
    · exact (hol.congr (hvl s (by omega)) hsb).congr (hvl s (by omega)) (hb s (by omega))
  constructor
  · rw [hva, if_pos rfl, top, hb s (le_refl _) _ _ hc (insideTree_self _ _), ha, top]
  · exact he.congr hc (hb s (le_refl _))

theorem vacuumSlots_spec {lv n last : Nat} (hvl : ValidPage (lv + 1) n)
    (hl : last ≤ slotsPerFSMPage) (hc : ∀ s < last, ValidPage lv (n * slotsPerFSMPage + s))
    {vc : Nat → FSMRel → (Nat × Bool) × FSMRel}
    (hvc : ∀ s < last, ∀ rel, RelOk rel → ClearBeyond rel →
      VacuumSpec rel lv (n * slotsPerFSMPage + s) (vc s rel))
    {count slot : Nat} {eof : Bool} {rel : FSMRel} (hcn : slot + count = last)
    (hb : physicalOf (lv + 1) n < rel.nblocks) (hok : RelOk rel) (hcl : ClearBeyond rel)
    (hef : eof = true → ∀ s, slot ≤ s → s < last →
      rel.nblocks ≤ physicalOf lv (n * slotsPerFSMPage + s))
    (hd : SlotsDone rel lv n slot) :
    Vacuumed rel (vacuumSlots vc (physicalOf (lv + 1) n) count slot eof rel) (lv + 1) n ∧
    SlotsDone (vacuumSlots vc (physicalOf (lv + 1) n) count slot eof rel) lv n last := by
  induction count generalizing slot eof rel with
  | zero =>
    have hsl : slot = last := by omega
    rw [vacuumSlots, ← hsl]
    exact ⟨.refl hok hcl _ _, hd⟩
  | succ count ih =>
    have hsl : slot < last := by omega
    have hch := hc slot hsl
    cases eof with
    | true =>
      have hby := hef rfl slot (le_refl _) hsl
      obtain ⟨hst, hd'⟩ := slotsDone_step hvl hb (by omega) hch hd
        (.refl hok hcl _ _) (exact_beyond hch hby) (nodesAt_eq_zero hby 0).symm
      obtain ⟨hr, ha⟩ := ih (by omega) (by rw [hst.nblocks]; exact hb) hst.ok
        hst.clear (fun _ s hs hs' => by rw [hst.nblocks]; exact hef rfl s (by omega) hs') hd'
      exact ⟨hst.trans hr, ha⟩
    | false =>
      obtain ⟨hv, hex, hav, hen⟩ := hvc slot hsl rel hok hcl
      obtain ⟨hst, hd'⟩ := slotsDone_step hvl hb (by omega) hch hd hv
        hex hav
      obtain ⟨hr, ha⟩ := ih (by omega) (by rw [hst.nblocks]; exact hb) hst.ok
        hst.clear (fun he s hs hs' => by
          rw [hst.nblocks]
          exact le_trans (hen he) (physicalOf_mono (hc s hs') (by omega))) hd'
      exact ⟨hst.trans hr, ha⟩

theorem validPage_div {blk : Nat} (h : blk < invalidHeapBlock)
    (hl : lv < fsmTreeDepth) : ValidPage lv (blk / slotsPerFSMPage ^ (lv + 1)) :=
  ⟨hl, lt_of_le_of_lt (div_mul_le_self _ _) h⟩

theorem locationAt_eq {blk : Nat} (h : blk < invalidHeapBlock) (hl : lv < fsmTreeDepth) :
    locationAt blk lv = (⟨lv, ((blk / slotsPerFSMPage ^ (lv + 1) : Nat) : Int)⟩,
      blk / slotsPerFSMPage ^ lv % slotsPerFSMPage) := by
  induction lv with
  | zero => rw [locationAt, fsmGetLocation_eq h, zero_add, pow_one, pow_zero, Nat.div_one]
  | succ lv ih =>
    rw [locationAt, ih (by omega), fsmGetParent_eq (validPage_div h (by omega)),
      Nat.div_div_eq_div_mul, ← pow_succ]

theorem startSlot_zero (hl : lv < fsmTreeDepth) : startSlot 0 ⟨lv, n⟩ = 0 := by
  have hz : locationAt 0 lv = (⟨lv, 0⟩, 0) := by
    rw [locationAt_eq (by unfold invalidHeapBlock; omega) hl, Nat.zero_div, Nat.zero_div, zero_mod]
    rfl
  unfold startSlot
  rw [hz]
  simp only
  split
  · rfl
  · rw [if_neg (by omega)]

theorem endSlot_spec (hv : ValidPage (lv + 1) n) :
    endSlot invalidHeapBlock ⟨lv + 1, n⟩ ≤ slotsPerFSMPage ∧
      ∀ s < slotsPerFSMPage, s < endSlot invalidHeapBlock ⟨lv + 1, n⟩ ↔
        ValidPage lv (n * slotsPerFSMPage + s) := by
  set lastBlk := invalidHeapBlock - 1 with hl
  have hi : invalidHeapBlock = 4294967295 := rfl
  have hp := slotsPerFSMPage_pos
  have hb : toBlockNumber ((invalidHeapBlock : Int) - 1) = lastBlk := by
    unfold toBlockNumber
    omega
  have hpw : 0 < slotsPerFSMPage ^ (lv + 1) := Nat.pow_pos hp
  have hc : ∀ m, ValidPage lv m ↔ m ≤ lastBlk / slotsPerFSMPage ^ (lv + 1) := by
    intro m
    rw [le_div_iff_mul_le hpw, ValidPage]
    constructor
    · intro hm
      omega
    · intro hm
      exact ⟨by have := hv.1; omega, by omega⟩
  have hn : n ≤ lastBlk / slotsPerFSMPage ^ (lv + 1) / slotsPerFSMPage := by
    rw [Nat.div_div_eq_div_mul, ← pow_succ, Nat.le_div_iff_mul_le (Nat.pow_pos hp)]
    have := hv.2
    omega
  unfold endSlot
  rw [hb, locationAt_eq (by omega) hv.1, pow_succ, ← Nat.div_div_eq_div_mul]
  set bound := lastBlk / slotsPerFSMPage ^ (lv + 1)
  rw [slotsPerFSMPage_eq] at *
  simp only [hc]
  split
  next heq => exact ⟨by omega, fun s hs => by omega⟩
  next hne =>
    rw [if_pos (by omega)]
    exact ⟨le_refl _, fun s hs => ⟨fun _ => by omega, fun _ => hs⟩⟩

theorem fsmReadbuf_eq (hv : ValidPage lv n) :
    fsmReadbuf rel ⟨lv, n⟩ =
      if physicalOf lv n ≥ rel.nblocks then none else some (physicalOf lv n) := by
  rw [fsmReadbuf, fsmLogicalToPhysical_eq hv]

/-- **What a vacuum of the whole map does to the tree under a page.** -/
theorem fsmVacuumPage_spec {lv n : Nat} {rel : FSMRel} (hv : ValidPage lv n)
    (hok : RelOk rel) (hc : ClearBeyond rel) :
    VacuumSpec rel lv n (fsmVacuumPage 0 invalidHeapBlock lv n rel) := by
  -- by induction on the level; a page past the end of the file stops the recursion
  induction lv generalizing n rel with
  | zero =>
    rw [fsmVacuumPage, vacuumLeaf, fsmReadbuf_eq hv]
    by_cases he : physicalOf 0 n ≥ rel.nblocks
    · rw [if_pos he]
      exact ⟨.refl hok hc _ _, trivial, (nodesAt_eq_zero he 0).symm, fun _ => he⟩
    rw [if_neg he]
    obtain ⟨hr, hn⟩ := (Vacuumed.refl hok hc 0 n).resetNextSlot (not_le.mp he)
    refine ⟨hr, trivial, ?_, nofun⟩
    simp only [top, hn]
    rw [nodesAt, page, if_pos (not_le.mp he), fsmGetMaxAvail]
  | succ lv ih =>
    rw [fsmVacuumPage, vacuumUpper, fsmReadbuf_eq hv]
    by_cases he : physicalOf (lv + 1) n ≥ rel.nblocks
    · rw [if_pos he]
      exact ⟨.refl hok hc _ _, exact_beyond hv he, (nodesAt_eq_zero he 0).symm, fun _ => he⟩
    rw [if_neg he]
    obtain ⟨hl, hcv⟩ := endSlot_spec hv
    simp only [startSlot_zero hv.1, Nat.sub_zero]
    set vacuumChild := fun slot rel => fsmVacuumPage 0 invalidHeapBlock lv
      (fsmGetChild ⟨lv + 1, n⟩ slot).logpageno rel with hch
    have hva : ∀ s < endSlot invalidHeapBlock ⟨lv + 1, n⟩, ∀ rel, RelOk rel →
        ClearBeyond rel → VacuumSpec rel lv (n * slotsPerFSMPage + s) (vacuumChild s rel) := by
      intro s hs rel hok hc
      have hp := (hcv s (lt_of_lt_of_le hs hl)).mp hs
      have hsp := ih hp hok hc
      rw [hch]
      simp only [fsmGetChild_eq hp]
      exact hsp
    obtain ⟨hvc, hd⟩ := @vacuumSlots_spec lv n _ hv hl
      (fun s hs => (hcv s (lt_of_lt_of_le hs hl)).mp hs) vacuumChild hva
      (endSlot invalidHeapBlock ⟨lv + 1, n⟩) 0 false rel (zero_add _) (not_le.mp he)
      hok hc nofun (fun s hs => absurd hs (not_lt_zero s))
    set swept := vacuumSlots vacuumChild (physicalOf (lv + 1) n)
      (endSlot invalidHeapBlock ⟨lv + 1, n⟩) 0 false rel
    have hex : Exact swept (lv + 1) n := by
      intro s hs
      by_cases hp : ValidPage lv (n * slotsPerFSMPage + s)
      · obtain ⟨hvl, hbl⟩ := hd s ((hcv s hs).mpr hp)
        rw [if_pos hp]
        exact ⟨hvl, fun _ => hbl⟩
      rw [if_neg hp]
      exact ⟨hvc.clear lv n s hv hs hp, fun h => absurd h hp⟩
    have hb : physicalOf (lv + 1) n < swept.nblocks := by
      rw [hvc.nblocks]
      exact not_le.mp he
    obtain ⟨hr, hn⟩ := hvc.resetNextSlot hb
    refine ⟨hr, hex.congr hv fun k m _ _ => hn k m, ?_, nofun⟩
    simp only [top, hn]
    rw [nodesAt, page, if_pos hb, fsmGetMaxAvail]

/-! ## The search -/

/-- Two states of the file differ in search hints only. -/
def SameNodes (rel rel' : FSMRel) : Prop := ∀ blkno, (rel'.page blkno).nodes = (rel.page blkno).nodes

theorem SameNodes.relOk (h : SameNodes rel rel') (hok : RelOk rel) : RelOk rel' := by
  intro b i hi
  have := hok b i hi
  unfold NodeOk childMax nodeOrZero at this ⊢
  rw [h b]
  exact this

theorem value_le_top (hok : RelOk rel) (hs : slot < slotsPerFSMPage) :
    rel.value lv n slot ≤ rel.top lv n :=
  (hok (physicalOf lv n)).slot_le hs

theorem searchPage_spec (hok : RelOk rel) {mc : Nat} (hv : ValidPage lv n) (hm : 0 < mc) :
    (rel.top lv n < mc ∧ ∃ maxAvail rel', searchPage mc rel ⟨lv, n⟩ = some (none, maxAvail, rel')) ∨
    mc ≤ rel.top lv n ∧ ∃ slot maxAvail rel',
      searchPage mc rel ⟨lv, n⟩ = some (some slot, maxAvail, rel') ∧
      slot < slotsPerFSMPage ∧ mc ≤ rel.value lv n slot ∧ SameNodes rel rel' := by
  unfold searchPage
  rw [fsmReadbuf_eq hv]
  by_cases he : physicalOf lv n ≥ rel.nblocks
  · rw [if_pos he]
    refine .inl ⟨?_, 0, rel, rfl⟩
    rw [top, nodesAt_eq_zero he]
    exact hm
  rw [if_neg he]
  have hbl := not_le.mp he
  have hp : rel.page (physicalOf lv n) = rel.pages (physicalOf lv n) := if_pos hbl
  have hpg := hok (physicalOf lv n)
  rw [hp] at hpg
  rcases fsmSearchAvail_spec hpg mc (lv == 0) 1 with
    ⟨hn, hlt⟩ | ⟨slot, nextSlot, hs, hle, hsl, hvl⟩
  · simp only [pageRestarts]
    rw [hn]
    refine .inl ⟨?_, _, _, rfl⟩
    rw [top, nodesAt, hp]
    exact hlt
  simp only [pageRestarts]
  rw [hs]
  refine .inr ⟨?_, slot, _, _, rfl, hsl, ?_, fun b => ?_⟩
  · rw [top, nodesAt, hp]
    exact hle
  · rw [value, nodesAt, hp]
    exact hvl
  rw [page_setPage hbl]
  split
  next hb => rw [hb, hp]
  · rfl

/-- A search from a page of an exact tree that promises enough space ends at a block. -/
theorem fsmSearchFrom_spec {rel : FSMRel} (hok : RelOk rel) {lv n mc res : Nat}
    (hvl : ValidPage lv n) (hmn : 0 < mc) (he : Exact rel lv n) (ht : mc ≤ rel.top lv n) :
    ∃ m slot rel', ValidPage 0 m ∧ slot < slotsPerFSMPage ∧ mc ≤ rel.value 0 m slot ∧
      fsmSearchFrom mc rel ⟨lv, n⟩ res = some (fsmGetHeapBlk ⟨0, m⟩ slot, rel') := by
  induction lv generalizing n rel with
  | zero =>
    obtain ⟨hlt, -⟩ | ⟨-, slot, maxAvail, rel', hf, hsl, hv, -⟩ := searchPage_spec hok hvl hmn
    · omega
    refine ⟨n, slot, rel', hvl, hsl, hv, ?_⟩
    rw [fsmSearchFrom, hf]
    rfl
  | succ lv ih =>
    obtain ⟨hlt, -⟩ | ⟨-, slot, maxAvail, rel', hf, hsl, hv, hsm⟩ := searchPage_spec hok hvl hmn
    · omega
    obtain ⟨hs, hb⟩ := he slot hsl
    have hc : ValidPage lv (n * slotsPerFSMPage + slot) := by
      by_contra hp
      rw [if_neg hp] at hs
      omega
    rw [if_pos hc] at hs
    have hn : ∀ k m, rel'.nodesAt k m = rel.nodesAt k m := fun k m => hsm _
    obtain ⟨m, slot', rel'', hm, hsl', hv', hsr⟩ := ih (hsm.relOk hok) hc
      ((hb hc).congr hc fun k m _ _ => hn k m)
      (by rw [top, hn, ← top, ← hs]; exact hv)
    refine ⟨m, slot', rel'', hm, hsl', ?_, ?_⟩
    · rw [value, hn] at hv'
      exact hv'
    rw [fsmSearchFrom, hf]
    simp only [Nat.add_eq_zero_iff, one_ne_zero, and_false, if_false]
    rw [fsmGetChild_eq hc]
    exact hsr

theorem leaf_le_top (hok : RelOk rel) (hva : ValidPage lv n) (he : Exact rel lv n)
    (hm : ValidPage 0 m) (hin : InsideTree lv n 0 m) (hsl : slot < slotsPerFSMPage) :
    rel.value 0 m slot ≤ rel.top lv n := by
  induction lv generalizing n with
  | zero =>
    have hse : m = n := by
      have := hin.2
      rwa [pow_zero, Nat.div_one] at this
    rw [hse]
    exact value_le_top hok hsl
  | succ lv ih =>
    -- the page one level down on the way to the leaf
    set child := m / slotsPerFSMPage ^ lv with hc
    have hd : child / slotsPerFSMPage = n := by
      rw [hc, Nat.div_div_eq_div_mul, ← pow_succ]
      exact hin.2
    have hs : n * slotsPerFSMPage + child % slotsPerFSMPage = child := by
      rw [← hd]
      exact div_add_mod' child slotsPerFSMPage
    have hmd := mod_lt child slotsPerFSMPage_pos
    have hv : ValidPage lv child := by
      refine ⟨by have := hva.1; omega, lt_of_le_of_lt ?_ hm.2⟩
      rw [zero_add, pow_one, pow_succ, ← mul_assoc]
      exact mul_le_mul_right _ (div_mul_le_self _ _)
    obtain ⟨hvl, hb⟩ := he (child % slotsPerFSMPage) hmd
    rw [hs] at hvl hb
    rw [if_pos hv] at hvl
    have hin' : InsideTree lv child 0 m := ⟨zero_le _, rfl⟩
    calc rel.value 0 m slot ≤ rel.top lv child := ih hv (hb hv) hin'
      _ = rel.value (lv + 1) n (child % slotsPerFSMPage) := hvl.symm
      _ ≤ rel.top (lv + 1) n := value_le_top hok hmd

/-! ## Recording -/

def lastRecorded (records : List (Nat × Nat)) : Nat → Option Nat :=
  records.foldl (fun known record => Function.update known record.1 (some record.2)) fun _ => none

def categoryOf : Option Nat → Nat
  | none => 0
  | some avail => fsmSpaceAvailToCat avail

/-- Calls of `RecordPageWithFreeSpace`, one after the other. -/
def recordAll (rel : FSMRel) (records : List (Nat × Nat)) : Option FSMRel :=
  records.foldlM (fun rel record => recordPageWithFreeSpace rel record.1 record.2) rel

/-- The bottom level holds what is known, and the upper levels are empty. -/
structure Holds (rel : FSMRel) (known : Nat → Option Nat) : Prop where
  ok : RelOk rel
  upper : ∀ level n slot, ValidPage (level + 1) n → rel.value (level + 1) n slot = 0
  leaves : ∀ m slot, ValidPage 0 m → slot < slotsPerFSMPage →
    rel.value 0 m slot = categoryOf (known (m * slotsPerFSMPage + slot))
  bounded : ∀ b, known b ≠ none → b < invalidHeapBlock

theorem page_fsmExtend {nblocks : Nat} (h : rel.nblocks ≤ nblocks) (b : Nat) :
    (fsmExtend rel nblocks).page b = rel.page b := by
  unfold page fsmExtend
  simp only
  by_cases ho : b < rel.nblocks
  · rw [if_pos (by omega), if_pos ho, if_neg (by omega)]
  rw [if_neg ho]
  split
  · rw [if_pos (by omega)]
  · rfl

theorem recordPageWithFreeSpace_holds (h : Holds rel known) {hea : Nat} (sa : Nat)
    (hblk : hea < invalidHeapBlock) :
    ∃ rel', recordPageWithFreeSpace rel hea sa = some rel' ∧
      Holds rel' (Function.update known hea (some sa)) := by
  have hv := validPage_location hblk
  have hslo : hea % slotsPerFSMPage < slotsPerFSMPage := mod_lt _ slotsPerFSMPage_pos
  set blkno := physicalOf 0 (hea / slotsPerFSMPage) with hbl
  -- the file after `fsm_readbuf` has the page, and shows what it showed before
  obtain ⟨file, hf, hlt, hpg⟩ : ∃ file, fsmReadbufExtend rel
      ⟨0, ((hea / slotsPerFSMPage : Nat) : Int)⟩ = (blkno, file) ∧ blkno < file.nblocks ∧
      ∀ b, file.page b = rel.page b := by
    unfold fsmReadbufExtend
    rw [fsmLogicalToPhysical_eq hv, ← hbl]
    split
    · exact ⟨_, rfl, lt_succ_self _, page_fsmExtend (by omega)⟩
    · exact ⟨rel, rfl, by omega, fun _ => rfl⟩
  have hp : file.pages blkno = rel.page blkno := by rw [← hpg, page, if_pos hlt]
  obtain ⟨hok, hsl⟩ := fsmSetAvail_ok (h.ok blkno) (fsmSpaceAvailToCat sa) hslo
  set page := fsmSetAvail (rel.page blkno) (hea % slotsPerFSMPage) (fsmSpaceAvailToCat sa)
  refine ⟨file.setPage blkno page, ?_, ?_, fun lv n slot hn => ?_, fun m slot hm hs => ?_,
    fun b hb => ?_⟩
  · unfold recordPageWithFreeSpace fsmSetAndSearch
    rw [fsmGetLocation_eq hblk]
    simp only [hf, hp]
    rfl
  · intro b
    rw [page_setPage hlt]
    split
    · exact hok
    rw [hpg]
    exact h.ok b
  · have hne : physicalOf (lv + 1) n ≠ blkno := fun heq => by
      have := (physicalOf_injective hn hv heq).1
      omega
    have ho := h.upper lv n slot hn
    unfold value nodesAt at ho ⊢
    rw [page_setPage hlt, if_neg hne, hpg]
    exact ho
  · have ho := h.leaves m slot hm hs
    have hsp := div_add_mod' hea slotsPerFSMPage
    unfold value nodesAt at ho ⊢
    rw [page_setPage hlt]
    by_cases hp' : physicalOf 0 m = blkno
    · have hm' := (physicalOf_injective hm hv hp').2
      rw [if_pos hp']
      have hnw := hsl slot
      unfold fsmGetAvail at hnw
      rw [hnw]
      by_cases hs' : slot = hea % slotsPerFSMPage
      · rw [if_pos hs', hs', hm', hsp, update_self]
        rfl
      rw [if_neg hs', update_of_ne, ← ho, hp']
      rw [← hsp, hm']
      omega
    rw [if_neg hp', hpg, ho, update_of_ne]
    intro heq
    apply hp'
    rw [hbl, ← heq, mul_comm, mul_add_div slotsPerFSMPage_pos, div_eq_of_lt hs, add_zero]
  obtain rfl | hne := eq_or_ne b hea
  · exact hblk
  rw [update_of_ne hne] at hb
  exact h.bounded b hb

theorem recordAll_holds (h : Holds rel known) {rec : List (Nat × Nat)}
    (hrc : ∀ record ∈ rec, record.1 < invalidHeapBlock) :
    ∃ rel', recordAll rel rec = some rel' ∧
      Holds rel' (rec.foldl
        (fun known record => Function.update known record.1 (some record.2)) known) := by
  induction rec generalizing rel known with
  | nil => exact ⟨rel, rfl, h⟩
  | cons record rec ih =>
    obtain ⟨rel₁, hre, hh⟩ := recordPageWithFreeSpace_holds h record.2
      (hrc record List.mem_cons_self)
    obtain ⟨rel', ha, hh'⟩ := ih hh fun r hr => hrc r (List.mem_cons_of_mem record hr)
    refine ⟨rel', ?_, hh'⟩
    unfold recordAll at ha ⊢
    rw [List.foldlM_cons, hre]
    exact ha

theorem holds_empty : Holds empty fun _ => none := by
  have hp : ∀ b, empty.page b = FSMPage.empty := fun b => ite_self _
  refine ⟨fun b => ?_, fun lv n slot _ => ?_, fun m slot _ _ => ?_, fun b hb => absurd rfl hb⟩
  · rw [hp]
    exact PageOk.empty
  · unfold value nodesAt
    rw [hp]
    rfl
  unfold value nodesAt
  rw [hp]
  rfl

/-! ## The whole map -/

theorem getPageWithFreeSpace_spec (h : Holds rel known)
    (hnd : fsmSpaceNeededToCat needed = .ok cat) :
    ∃ blk rel', getPageWithFreeSpace (freeSpaceMapVacuum rel) needed = some (.ok (blk, rel')) ∧
      (blk = invalidHeapBlock ↔ ∀ b avail, known b = some avail → fsmSpaceAvailToCat avail < cat) ∧
      (blk ≠ invalidHeapBlock → ∃ avail, known blk = some avail ∧ needed ≤ avail) := by
  have hr := validPage_iff.mpr (.inr (.inr ⟨rfl, rfl⟩))
  have hmn := fsmSpaceNeededToCat_pos hnd
  obtain ⟨hv, he, -, -⟩ := @fsmVacuumPage_spec 2 0 rel hr h.ok
    fun lv n slot hn _ _ => h.upper lv n slot hn
  have hmp : freeSpaceMapVacuum rel = (fsmVacuumPage 0 invalidHeapBlock 2 (0 : Nat) rel).2 := rfl
  rw [← hmp] at hv he
  set map := freeSpaceMapVacuum rel
  have hl : ∀ m slot, ValidPage 0 m → slot < slotsPerFSMPage →
      map.value 0 m slot = categoryOf (known (m * slotsPerFSMPage + slot)) := by
    intro m slot hm hs
    rw [value, hv.leaves m hm]
    exact h.leaves m slot hm hs
  have hg : getPageWithFreeSpace map needed =
      (fsmSearchFrom cat map ⟨2, ((0 : Nat) : Int)⟩ 0).map .ok := by
    unfold getPageWithFreeSpace
    rw [hnd]
    rfl
  obtain ⟨hlt, maxAvail, rel', hsr⟩ | ⟨hle, -⟩ := searchPage_spec hv.ok hr hmn
  · -- the root is too small, and bounds every recorded block
    refine ⟨invalidHeapBlock, rel', ?_, ⟨fun _ b avail hb => ?_, fun _ => rfl⟩,
      fun hne => absurd rfl hne⟩
    · rw [hg, fsmSearchFrom, hsr]
      rfl
    have hbl := h.bounded b (by rw [hb]; simp)
    have hm := validPage_location hbl
    have hin : InsideTree 2 0 0 (b / slotsPerFSMPage) := by
      refine ⟨by omega, ?_⟩
      rw [validPage_iff] at hm
      rw [slotsPerFSMPage_eq] at hm ⊢
      omega
    have hbn := leaf_le_top hv.ok hr he hm hin
      (mod_lt b slotsPerFSMPage_pos)
    rw [hl _ _ hm (mod_lt b slotsPerFSMPage_pos), div_add_mod', hb] at hbn
    exact lt_of_le_of_lt hbn hlt
  obtain ⟨m, slot, rel', hm, hsl, hvl, hsr⟩ := @fsmSearchFrom_spec map hv.ok 2 0 cat 0 hr hmn he hle
  rw [hl m slot hm hsl] at hvl
  cases hk : known (m * slotsPerFSMPage + slot) with
  | none =>
    rw [hk] at hvl
    exact absurd hvl (not_le.mpr hmn)
  | some avail =>
    rw [hk] at hvl
    have hbl := h.bounded _ (by rw [hk]; simp)
    refine ⟨m * slotsPerFSMPage + slot, rel', ?_, ⟨fun heq => ?_, fun ha => ?_⟩,
      fun _ => ⟨avail, hk, le_of_category_le hnd hvl⟩⟩
    · rw [hg, hsr, fsmGetHeapBlk_eq hbl]
      rfl
    · omega
    exact absurd hvl (not_le.mpr (ha _ avail hk))

/-- **The free space map.**  The functions between blocks, slots and pages are mutually
inverse for every block number; the place of a page in the file is computed without overflow
and belongs to no other page; and after any records and a vacuum a request finds a block
exactly when a recorded block has a large enough category, and then one with enough space. -/
theorem freeSpaceMap_correct :
    (∀ heapblk < invalidHeapBlock,
      fsmGetHeapBlk (fsmGetLocation heapblk).1 (fsmGetLocation heapblk).2 = heapblk) ∧
    (∀ n slot, slot < slotsPerFSMPage → n * slotsPerFSMPage + slot < invalidHeapBlock →
      fsmGetLocation (fsmGetHeapBlk ⟨0, (n : Nat)⟩ slot) = (⟨0, (n : Nat)⟩, slot)) ∧
    (∀ level n, level + 1 < fsmTreeDepth → ValidPage level n →
      fsmGetChild (fsmGetParent ⟨level, n⟩).1 (fsmGetParent ⟨level, n⟩).2 = ⟨level, n⟩) ∧
    (∀ level n slot, slot < slotsPerFSMPage → ValidPage level (n * slotsPerFSMPage + slot) →
      fsmGetParent (fsmGetChild ⟨level + 1, (n : Nat)⟩ slot) = (⟨level + 1, (n : Nat)⟩, slot)) ∧
    (∀ level n, ValidPage level n → fsmLogicalToPhysical ⟨level, n⟩ = physicalOf level n ∧
      physicalOf level n < invalidHeapBlock) ∧
    (∀ level n level' n', ValidPage level n → ValidPage level' n' →
      fsmLogicalToPhysical ⟨level, n⟩ = fsmLogicalToPhysical ⟨level', n'⟩ →
      level = level' ∧ n = n') ∧
    ∀ records : List (Nat × Nat), (∀ record ∈ records, record.1 < invalidHeapBlock) →
      ∃ rel, recordAll FSMRel.empty records = some rel ∧
        ∀ needed cat, fsmSpaceNeededToCat needed = .ok cat →
          ∃ blk rel',
            getPageWithFreeSpace (freeSpaceMapVacuum rel) needed = some (.ok (blk, rel')) ∧
            (blk = invalidHeapBlock ↔
              ∀ b avail, lastRecorded records b = some avail → fsmSpaceAvailToCat avail < cat) ∧
            (blk ≠ invalidHeapBlock →
              ∃ avail, lastRecorded records blk = some avail ∧ needed ≤ avail) := by
  refine ⟨fun heapblk h => ?_, fun n slot hsl h => ?_, fun level n hl h => ?_,
    fun level n slot hsl h => ?_, fun level n h => ⟨fsmLogicalToPhysical_eq h, ?_⟩,
    fun level n level' n' h h' heq => ?_, fun records hr => ?_⟩
  · have hs := div_add_mod' heapblk slotsPerFSMPage
    rw [fsmGetLocation_eq h, fsmGetHeapBlk_eq (by rw [hs]; exact h), hs]
  · rw [fsmGetHeapBlk_eq h, fsmGetLocation_eq h, mul_comm,
      mul_add_div slotsPerFSMPage_pos, div_eq_of_lt hsl, add_zero, mul_add_mod,
      mod_eq_of_lt hsl]
  · have hs := div_add_mod' n slotsPerFSMPage
    rw [fsmGetParent_eq h, fsmGetChild_eq (by rw [hs]; exact h), hs]
  · rw [fsmGetChild_eq h, fsmGetParent_eq h, mul_comm,
      mul_add_div slotsPerFSMPage_pos, div_eq_of_lt hsl, add_zero, mul_add_mod,
      mod_eq_of_lt hsl]
  · rw [validPage_iff] at h
    unfold invalidHeapBlock
    obtain ⟨rfl, hn⟩ | ⟨rfl, hn⟩ | ⟨rfl, rfl⟩ := h
    · rw [physicalOf_zero]
      omega
    · rw [physicalOf_one]
      omega
    rw [physicalOf_two]
    omega
  · rw [fsmLogicalToPhysical_eq h, fsmLogicalToPhysical_eq h'] at heq
    exact physicalOf_injective h h' heq
  obtain ⟨rel, ha, hh⟩ := recordAll_holds holds_empty hr
  exact ⟨rel, ha, fun needed cat hnd => getPageWithFreeSpace_spec hh hnd⟩

/-- Two blocks are recorded, and a request finds one of them. -/
theorem freeSpaceMap_correct_twoBlocks :
    ∃ rel, recordAll FSMRel.empty [(7, 100), (4294967294, 8000)] = some rel ∧
      ∃ blk rel', getPageWithFreeSpace (freeSpaceMapVacuum rel) 200 = some (.ok (blk, rel')) ∧
        blk ≠ invalidHeapBlock := by
  have hb : ∀ record ∈ [(7, 100), (4294967294, 8000)], record.1 < invalidHeapBlock := by
    unfold invalidHeapBlock
    simp
  obtain ⟨rel, ha, hg⟩ := freeSpaceMap_correct.2.2.2.2.2.2 _ hb
  obtain ⟨blk, rel', hbl, hn, -⟩ := hg 200 7 rfl
  refine ⟨rel, ha, blk, rel', hbl, fun heq => ?_⟩
  have hc := hn.mp heq 4294967294 8000 (by simp [lastRecorded])
  exact absurd hc (by decide)

end AthenaPG
