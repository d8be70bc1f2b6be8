import AthenaPG.Nodes.BitmapsetOps
import AthenaPG.Storage.FsmPage

/-!
Addresses in the free space map (`src/backend/storage/freespace/freespace.c`), for the
default block size: a tree of pages of three levels, stored depth first in one file.

* `fsmGetLocation_eq`, `fsmGetHeapBlk_eq`, `fsmGetParent_eq`, `fsmGetChild_eq`: the
  functions between addresses do not overflow;
* `fsmLogicalToPhysical_eq`, `physicalOf_injective`: the place of a page in the file,
  without overflow and without aliasing;
* `physicalOf_mono`, `physicalOf_child`: the order of the pages in the file.
-/

namespace AthenaPG
open Nat

/-! ## Addresses -/

def fsmTreeDepth : Nat := if slotsPerFSMPage ≥ 1626 then 3 else 4

theorem fsmTreeDepth_eq : fsmTreeDepth = 3 := rfl

/-- `InvalidBlockNumber`. -/
def invalidHeapBlock : Nat := 4294967295

structure FSMAddress where
  level : Nat
  logpageno : Int
  deriving DecidableEq

def fsmRootAddress : FSMAddress := ⟨fsmTreeDepth - 1, 0⟩

/-- The conversion to `BlockNumber`. -/
def toBlockNumber (x : Int) : Nat := (x % 4294967296).toNat

/-- The conversion of an `int` to `size_t`, the type of `SlotsPerFSMPage`. -/
def toSize (x : Int) : Nat := (x % 18446744073709551616).toNat

/-- The first loop of `fsm_logical_to_physical`. -/
def firstLeafBelow : Nat → Int → Int
  | 0, leafno => leafno
  | l + 1, leafno => firstLeafBelow l (wrapInt (leafno * slotsPerFSMPage))

/-- A page number divided by `SlotsPerFSMPage`. -/
def divSlots (logpageno : Int) : Int := wrapInt ((toSize logpageno / slotsPerFSMPage : Nat) : Int)

/-- The addition of `leafno + 1` pages. -/
def addPages (pages : Nat) (leafno : Int) : Nat := toBlockNumber (pages + wrapInt (leafno + 1))

/-- One turn of the second loop of `fsm_logical_to_physical`. -/
def countLevel (state : Nat × Int) : Nat × Int := (addPages state.1 state.2, divSlots state.2)

def fsmLogicalToPhysical (addr : FSMAddress) : Nat :=
  let pages := (countLevel^[fsmTreeDepth] (0, firstLeafBelow addr.level addr.logpageno)).1
  let pages := toBlockNumber ((pages : Int) - addr.level)
  toBlockNumber ((pages : Int) - 1)

def fsmGetLocation (heapblk : Nat) : FSMAddress × Nat :=
  (⟨0, wrapInt ((heapblk / slotsPerFSMPage : Nat) : Int)⟩, heapblk % slotsPerFSMPage)

def fsmGetHeapBlk (addr : FSMAddress) (slot : Nat) : Nat :=
  toBlockNumber ((toBlockNumber addr.logpageno : Int) * slotsPerFSMPage + slot)

def fsmGetParent (child : FSMAddress) : FSMAddress × Nat :=
  (⟨child.level + 1, divSlots child.logpageno⟩, toSize child.logpageno % slotsPerFSMPage)

def fsmGetChild (parent : FSMAddress) (slot : Nat) : FSMAddress :=
  ⟨parent.level - 1, wrapInt (parent.logpageno * slotsPerFSMPage + slot)⟩

/-- A page of the tree: it covers a block number. -/
def ValidPage (level n : Nat) : Prop :=
  level < fsmTreeDepth ∧ n * slotsPerFSMPage ^ (level + 1) < invalidHeapBlock

instance (lv n : Nat) : Decidable (ValidPage lv n) := inferInstanceAs (Decidable (_ ∧ _))

variable {n n' slot : Nat} {lv : Nat}

theorem validPage_iff :
    ValidPage lv n ↔ lv = 0 ∧ n ≤ 1055533 ∨ lv = 1 ∧ n ≤ 259 ∨ lv = 2 ∧ n = 0 := by
  unfold ValidPage invalidHeapBlock
  rw [fsmTreeDepth_eq, slotsPerFSMPage_eq]
  constructor
  · rintro ⟨hl, hn⟩
    interval_cases lv <;> norm_num at hn <;> omega
  · rintro (⟨rfl, hn⟩ | ⟨rfl, hn⟩ | ⟨rfl, hn⟩) <;> norm_num <;> omega

/-- The place of a page in the file. -/
def physicalOf (level n : Nat) : Nat :=
  let leaf := n * slotsPerFSMPage ^ level
  leaf + leaf / slotsPerFSMPage + leaf / slotsPerFSMPage / slotsPerFSMPage + 2 - level

theorem physicalOf_zero (n : Nat) : physicalOf 0 n = n + n / 4069 + n / 4069 / 4069 + 2 := by
  simp [physicalOf, slotsPerFSMPage_eq]

theorem physicalOf_one (n : Nat) : physicalOf 1 n = n * 4069 + n + n / 4069 + 1 := by
  simp only [physicalOf, slotsPerFSMPage_eq, pow_one]
  omega

theorem physicalOf_two (n : Nat) : physicalOf 2 n = n * 4069 ^ 2 + n * 4069 + n := by
  simp only [physicalOf, slotsPerFSMPage_eq]
  omega

theorem toBlockNumber_natCast (h : n < 2 ^ 32) : toBlockNumber n = n := by
  unfold toBlockNumber
  omega

theorem toSize_natCast (h : n < 2 ^ 64) : toSize n = n := by
  unfold toSize
  omega

theorem wrapInt_natCast (h : n < 2 ^ 31) : wrapInt n = n := wrapInt_of_lt (by omega) (by omega)

theorem divSlots_natCast (h : n < 2 ^ 31) : divSlots n = ((n / slotsPerFSMPage : Nat) : Int) := by
  unfold divSlots
  rw [toSize_natCast (by omega), wrapInt_natCast (lt_of_le_of_lt (Nat.div_le_self _ _) h)]

theorem addPages_natCast {pages leaf : Nat} (hl : leaf < 2 ^ 30) (hp : pages < 2 ^ 31) :
    addPages pages leaf = pages + (leaf + 1) := by
  have hn : wrapInt ((leaf : Int) + 1) = ((leaf + 1 : Nat) : Int) := by
    rw [← cast_add_one]
    exact wrapInt_natCast (by omega)
  unfold addPages
  rw [hn, ← cast_add, toBlockNumber_natCast (by omega)]

theorem countLevel_natCast {pages leaf : Nat} (hl : leaf < 2 ^ 30) (hp : pages < 2 ^ 31) :
    countLevel (pages, leaf) = (pages + (leaf + 1), ((leaf / 4069 : Nat) : Int)) := by
  unfold countLevel
  rw [addPages_natCast hl hp, divSlots_natCast (by omega), slotsPerFSMPage_eq]

/-- The computation of a place in the file does not overflow. -/
theorem fsmLogicalToPhysical_eq (h : ValidPage lv n) :
    fsmLogicalToPhysical ⟨lv, n⟩ = physicalOf lv n := by
  have hl : ∃ leaf : Nat, firstLeafBelow lv n = leaf ∧ leaf = n * 4069 ^ lv ∧ leaf < 2 ^ 30 := by
    rw [validPage_iff] at h
    obtain ⟨rfl, hn⟩ | ⟨rfl, hn⟩ | ⟨rfl, rfl⟩ := h
    · exact ⟨n, rfl, by simp, by omega⟩
    · refine ⟨n * 4069, ?_, by simp, by omega⟩
      rw [firstLeafBelow, firstLeafBelow, slotsPerFSMPage_eq, ← cast_mul]
      exact wrapInt_natCast (by omega)
    exact ⟨0, by decide, by simp, by norm_num⟩
  obtain ⟨leaf, hf, hl, hb⟩ := hl
  have hlv : lv < 3 := h.1
  have hc : countLevel^[3] (0, (leaf : Int)) =
      (0 + (leaf + 1) + (leaf / 4069 + 1) + (leaf / 4069 / 4069 + 1),
        ((leaf / 4069 / 4069 / 4069 : Nat) : Int)) := by
    rw [Function.iterate_succ_apply, countLevel_natCast hb (by omega),
      Function.iterate_succ_apply, countLevel_natCast (by omega) (by omega),
      Function.iterate_succ_apply, countLevel_natCast (by omega) (by omega),
      Function.iterate_zero_apply]
  unfold fsmLogicalToPhysical
  rw [fsmTreeDepth_eq, hf, hc]
  unfold physicalOf toBlockNumber
  simp only [slotsPerFSMPage_eq, ← hl]
  omega

theorem physicalOf_zero_ne_one : physicalOf 0 n ≠ physicalOf 1 n' := by
  rw [physicalOf_zero, physicalOf_one]
  rcases le_or_gt n' (n / 4069) with hle | hlt <;> omega

/-- Two pages never share a place. -/
theorem physicalOf_injective {lv lv' : Nat} (h : ValidPage lv n) (h' : ValidPage lv' n')
    (heq : physicalOf lv n = physicalOf lv' n') : lv = lv' ∧ n = n' := by
  rw [validPage_iff] at h h'
  rcases h with ⟨rfl, hn⟩ | ⟨rfl, hn⟩ | ⟨rfl, rfl⟩ <;>
    obtain ⟨rfl, hn'⟩ | ⟨rfl, hn'⟩ | ⟨rfl, rfl⟩ := h'
  case inl.inr.inl => exact absurd heq physicalOf_zero_ne_one
  case inr.inl.inl => exact absurd heq.symm physicalOf_zero_ne_one
  all_goals
    simp only [physicalOf_zero, physicalOf_one, physicalOf_two] at heq
    omega

/-- The pages of a level stand in order. -/
theorem physicalOf_mono (h' : ValidPage lv n') (hle : n ≤ n') :
    physicalOf lv n ≤ physicalOf lv n' := by
  rw [validPage_iff] at h'
  obtain ⟨rfl, hn'⟩ | ⟨rfl, hn'⟩ | ⟨rfl, rfl⟩ := h'
  · simp only [physicalOf_zero]
    omega
  · simp only [physicalOf_one]
    omega
  rw [le_zero.mp hle]

/-- A page stands before the pages below it. -/
theorem physicalOf_child (h : ValidPage (lv + 1) n) :
    physicalOf (lv + 1) n ≤ physicalOf lv (n * slotsPerFSMPage + slot) := by
  rw [validPage_iff] at h
  rw [slotsPerFSMPage_eq]
  obtain ⟨hl, hn⟩ | ⟨hl, hn⟩ | ⟨hl, rfl⟩ := h
  · cases hl
  · cases succ_injective hl
    rw [Nat.zero_add, physicalOf_zero, physicalOf_one]
    omega
  cases succ_injective hl
  rw [show 1 + 1 = 2 from rfl, physicalOf_two, physicalOf_one]
  omega

theorem fsmGetChild_eq (h : ValidPage lv (n * slotsPerFSMPage + slot)) :
    fsmGetChild ⟨lv + 1, n⟩ slot = ⟨lv, ((n * slotsPerFSMPage + slot : Nat) : Int)⟩ := by
  have hb : n * slotsPerFSMPage + slot < 2 ^ 31 := by
    rw [validPage_iff] at h
    omega
  unfold fsmGetChild
  rw [← cast_mul, ← cast_add, wrapInt_natCast hb]
  rfl

theorem fsmGetParent_eq (h : ValidPage lv n) :
    fsmGetParent ⟨lv, n⟩ =
      (⟨lv + 1, ((n / slotsPerFSMPage : Nat) : Int)⟩, n % slotsPerFSMPage) := by
  have hb : n < 2 ^ 31 := by
    rw [validPage_iff] at h
    omega
  unfold fsmGetParent
  rw [toSize_natCast (by omega), divSlots_natCast hb]

theorem fsmGetLocation_eq {blk : Nat} (h : blk < invalidHeapBlock) :
    fsmGetLocation blk = (⟨0, ((blk / slotsPerFSMPage : Nat) : Int)⟩, blk % slotsPerFSMPage) := by
  unfold invalidHeapBlock at h
  unfold fsmGetLocation
  rw [wrapInt_natCast (by rw [slotsPerFSMPage_eq]; omega)]

theorem fsmGetHeapBlk_eq (h : n * slotsPerFSMPage + slot < invalidHeapBlock) :
    fsmGetHeapBlk ⟨0, n⟩ slot = n * slotsPerFSMPage + slot := by
  unfold invalidHeapBlock at h
  have hn : n < 2 ^ 32 := by
    rw [slotsPerFSMPage_eq] at h
    omega
  unfold fsmGetHeapBlk
  rw [toBlockNumber_natCast hn, ← cast_mul, ← cast_add, toBlockNumber_natCast (by omega)]

theorem validPage_location {blk : Nat} (h : blk < invalidHeapBlock) :
    ValidPage 0 (blk / slotsPerFSMPage) := by
  refine ⟨by rw [fsmTreeDepth_eq]; omega, ?_⟩
  rw [zero_add, pow_one]
  exact lt_of_le_of_lt (div_mul_le_self _ _) h

end AthenaPG
