import AthenaPG.Storage.FsmPage

/-!
The tree of a page of the free space map, and the order in which a search goes through it.

* `fsmRun_ok`: calls keep the tree in order;
* `descendToSlot_first`, `climbRight_first`: what the search has passed;
* **`fsmPage_correct`**: a search finds the first slot that is large enough.
-/

namespace AthenaPG
open FSMPage
open Function (iterate_succ_apply')

variable {page : FSMPage}

/-- `fsm_truncate_avail`. -/
def fsmTruncateAvail (page : FSMPage) (nslots : Nat) : FSMPage :=
  let first := nonLeafNodesPerPage + nslots
  let cleared := { page with
    nodes := fun i => if first ≤ i ∧ i < nodesPerPage then 0 else page.nodes i }
  if (List.range' first (slotsPerFSMPage - nslots)).any (page.nodes · ≠ 0) then
    fsmRebuildPage cleared
  else cleared

inductive FsmOp
  | setAvail (slot value : Nat)
  | truncateAvail (nslots : Nat)
  | rebuildPage

/-- The assertions of the functions. -/
def FsmOp.Valid : FsmOp → Prop
  | .setAvail slot _ => slot < slotsPerFSMPage
  | .truncateAvail nslots => nslots < slotsPerFSMPage
  | .rebuildPage => True

def fsmStep (page : FSMPage) : FsmOp → FSMPage
  | .setAvail slot value => fsmSetAvail page slot value
  | .truncateAvail nslots => fsmTruncateAvail page nslots
  | .rebuildPage => fsmRebuildPage page

theorem fsmTruncateAvail_ok (h : PageOk page) (nsl : Nat) : PageOk (fsmTruncateAvail page nsl) := by
  unfold fsmTruncateAvail
  dsimp only
  split
  · exact (fsmRebuildPage_ok _).1
  rename_i hc
  have hz : ∀ i, nonLeafNodesPerPage + nsl ≤ i → i < nodesPerPage → page.nodes i = 0 := by
    intro i hl hi
    by_contra hne
    refine hc (List.any_eq_true.mpr ⟨i, List.mem_range'_1.mpr ⟨hl, ?_⟩, by simpa using hne⟩)
    rw [slotsPerFSMPage_eq]
    rw [nodesPerPage_eq] at hi
    rw [nonLeafNodesPerPage_eq] at hl ⊢
    omega
  have hp : (fun i => if nonLeafNodesPerPage + nsl ≤ i ∧ i < nodesPerPage then 0
      else page.nodes i) = page.nodes := by
    funext i
    split
    next hi => exact (hz i hi.1 hi.2).symm
    · rfl
  rw [hp]
  exact h

theorem fsmStep_ok (h : PageOk page) {op : FsmOp} (hv : op.Valid) : PageOk (fsmStep page op) := by
  cases op with
  | setAvail slot value => exact (fsmSetAvail_ok h value hv).1
  | truncateAvail nslots => exact fsmTruncateAvail_ok h nslots
  | rebuildPage => exact (fsmRebuildPage_ok page).1

theorem fsmRun_ok (h : PageOk page) {ops : List FsmOp} (hv : ∀ op ∈ ops, op.Valid) :
    PageOk (ops.foldl fsmStep page) := by
  induction ops generalizing page with
  | nil => exact h
  | cons op ops ih => exact ih (fsmStep_ok h (hv op (by simp))) fun op' ho => hv op' (by simp [ho])

/-! ## Levels -/

theorem iterate_parentOf_le (k j : Nat) : parentOf^[k] j ≤ j := by
  induction k with
  | zero => exact le_refl j
  | succ k ih =>
    rw [iterate_succ_apply', parentOf]
    omega

theorem iterate_parentOf_mono (k : Nat) {i j : Nat} (h : i ≤ j) :
    parentOf^[k] i ≤ parentOf^[k] j := by
  induction k with
  | zero => exact h
  | succ k ih =>
    rw [iterate_succ_apply', iterate_succ_apply', parentOf, parentOf]
    omega

/-- A node is at least as large as what stands below it. -/
theorem PageOk.le_above (h : PageOk page) (k : Nat) {j : Nat} (hj : j < nodesPerPage) :
    page.nodes j ≤ page.nodes (parentOf^[k] j) := by
  induction k with
  | zero => exact le_refl _
  | succ k ih =>
    rw [iterate_succ_apply']
    exact ih.trans (h.le_parent ((iterate_parentOf_le k j).trans_lt hj))

/-- The first and the last node of each level. -/
theorem level_ends : ∀ k < 13, parentOf^[k] nonLeafNodesPerPage + 1 = 2 ^ (12 - k) ∧
    parentOf^[k] (2 * nonLeafNodesPerPage) + 2 = 2 ^ (12 - k) * 2 := by
  decide

def IsSlot (j : Nat) : Prop := nonLeafNodesPerPage ≤ j ∧ j < nodesPerPage

/-- The node has its slots `k` levels below it. -/
def AtHeight (k n : Nat) : Prop := k < 13 ∧ 2 ^ (12 - k) ≤ n + 1 ∧ n + 2 ≤ 2 ^ (12 - k) * 2

theorem IsSlot.atHeight {j k : Nat} (h : IsSlot j) (hk : k < 13) : AtHeight k (parentOf^[k] j) := by
  obtain ⟨hl, hr⟩ := level_ends k hk
  have hlow := iterate_parentOf_mono k h.1
  have hhigh : parentOf^[k] j ≤ parentOf^[k] (2 * nonLeafNodesPerPage) := by
    refine iterate_parentOf_mono k ?_
    have := h.2
    rw [nodesPerPage_eq] at this
    rw [nonLeafNodesPerPage_eq]
    omega
  exact ⟨hk, by omega, by omega⟩

theorem rightNeighbor_eq {n d : Nat} (hl : 2 ^ d ≤ n + 1) (hh : n + 2 ≤ 2 ^ d * 2) :
    (n + 1 + 1) &&& (n + 1) = 0 ↔ n + 2 = 2 ^ d * 2 := by
  constructor
  · intro ha
    by_contra hne
    have hb : ∀ x, 2 ^ d ≤ x → x < 2 ^ d * 2 → x.testBit d = true := by
      intro x hx hlt
      have hq : x / 2 ^ d = 1 := Nat.div_eq_of_lt_le (by omega) (by omega)
      rw [Nat.testBit_eq_decide_div_mod_eq, hq]
      rfl
    have := congrArg (Nat.testBit · d) ha
    simp only [Nat.testBit_and, Nat.zero_testBit] at this
    rw [hb _ (by omega) (by omega), hb _ hl (by omega)] at this
    cases this
  · intro he
    have hn : n + 1 = 2 ^ (d + 1) - 1 := by
      rw [pow_succ]
      omega
    rw [hn, Nat.and_two_pow_sub_one_eq_mod, ← Nat.mod_self (2 ^ (d + 1))]
    congr 1
    omega

/-! ## What a search passes -/

/-- Going down leads to the first slot below the node that is large enough. -/
theorem descendToSlot_first (h : PageOk page) {mv k n leaf : Nat} (hk : AtHeight k n)
    (hd : descendToSlot page mv n = some leaf) : parentOf^[k] leaf = n ∧
      ∀ j, IsSlot j → parentOf^[k] j = n → j < leaf → page.nodes j < mv := by
  induction k generalizing n with
  | zero =>
    have hl := hk.2.1
    rw [descendToSlot, if_neg (by rw [nonLeafNodesPerPage_eq]; omega)] at hd
    obtain rfl := Option.some.inj hd
    exact ⟨rfl, fun j _ he hj => absurd he hj.ne⟩
  | succ k ih =>
    obtain ⟨hk, hl, hh⟩ := hk
    obtain ⟨e, he⟩ : ∃ e, 12 - k = e + 1 := ⟨11 - k, by omega⟩
    rw [show 12 - (k + 1) = e by omega] at hl hh
    have hc : AtHeight k (leftChild n) ∧ AtHeight k (leftChild n + 1) := by
      unfold AtHeight leftChild
      rw [he, pow_succ]
      omega
    have hin : n < nonLeafNodesPerPage := by
      have : 2 ^ e ≤ 2 ^ 11 := Nat.pow_le_pow_right (by decide) (by omega)
      rw [nonLeafNodesPerPage_eq]
      omega
    have hup : ∀ c, c = leftChild n ∨ c = leftChild n + 1 → parentOf c = n := by
      unfold leftChild parentOf
      omega
    rw [descendToSlot, if_pos hin] at hd
    split at hd
    · obtain ⟨hleaf, hf⟩ := ih hc.1 hd
      refine ⟨by rw [iterate_succ_apply', hleaf, hup _ (.inl rfl)], fun j hs hj hlt => ?_⟩
      have hm := iterate_parentOf_mono k hlt.le
      rw [iterate_succ_apply', parentOf] at hj
      refine hf j hs ?_ hlt
      have := (hs.atHeight (by omega : k < 13)).2.1
      unfold leftChild at *
      rw [he, pow_succ] at this
      omega
    rename_i hno
    split at hd
    · obtain ⟨hleaf, hf⟩ := ih hc.2 hd
      refine ⟨by rw [iterate_succ_apply', hleaf, hup _ (.inr rfl)], fun j hs hj hlt => ?_⟩
      have hle := h.le_above k hs.2
      have hp := iterate_parentOf_le k j
      have hh := (hs.atHeight (by omega : k < 13)).2.1
      rw [iterate_succ_apply', parentOf] at hj
      by_cases hj' : parentOf^[k] j = leftChild n + 1
      · exact hf j hs hj' hlt
      have hj : parentOf^[k] j = leftChild n := by
        rw [he, pow_succ] at hh
        unfold leftChild at *
        omega
      rw [hj] at hle hp
      omega
    · cases hd

/-- What the search has passed when it stands at a node: the slots from the target up to those
below the node, or all from the target on if it has wrapped around. -/
def Passed (page : FSMPage) (minvalue target k n : Nat) : Prop :=
  (∀ j, IsSlot j → (n ≤ parentOf^[k] j → target ≤ j) ∧
    (target ≤ j → parentOf^[k] j < n → page.nodes j < minvalue)) ∨
  n + 1 = 2 ^ (12 - k) ∧ ∀ j, IsSlot j → target ≤ j → page.nodes j < minvalue

theorem climbRight_first (h : PageOk page) {mv tgt k n : Nat} (hk : AtHeight k n)
    (hp : Passed page mv tgt k n) :
    ∃ k', AtHeight k' (climbRight page mv n) ∧ Passed page mv tgt k' (climbRight page mv n) := by
  induction n using Nat.strong_induction_on generalizing k with
  | _ n ih =>
    rw [climbRight]
    split
    next hpos =>
      split
      · exact ⟨k, hk, hp⟩
      rename_i hv
      obtain ⟨hk, hl, hh⟩ := hk
      obtain ⟨e, he⟩ : ∃ e, 12 - k = e + 1 := by
        rcases hd : 12 - k with _ | e
        · rw [hd] at hh
          omega
        exact ⟨e, rfl⟩
      have he' : 12 - (k + 1) = e := by omega
      have hnext : ∀ m, 2 ^ e ≤ m + 1 → m + 2 ≤ 2 ^ e * 2 → AtHeight (k + 1) m := by
        intro m h1 h2
        rw [← he'] at h1 h2
        exact ⟨by omega, h1, h2⟩
      have hw := rightNeighbor_eq hl hh
      -- the slots below the node are passed as well
      have hb : ∀ j, IsSlot j → parentOf^[k] j = n → page.nodes j < mv := by
        intro j hs hj
        have := h.le_above k hs.2
        rw [hj] at this
        omega
      have hj : ∀ j, IsSlot j → 1 ≤ parentOf^[k] j ∧ parentOf^[k] j + 2 ≤ 2 ^ e * 2 * 2 := by
        intro j hs
        obtain ⟨-, h1, h2⟩ := hs.atHeight hk
        rw [he, pow_succ] at h1 h2
        omega
      rw [he, pow_succ] at hl hh hw
      have hlt := parentOf_rightNeighbor_lt hpos
      by_cases ha : (n + 1 + 1) &&& (n + 1) = 0
      · -- from the last node of a level to the first one of the next
        rw [rightNeighbor, if_pos ha] at hlt ⊢
        have hf : parentOf (parentOf (n + 1)) + 1 = 2 ^ e := by
          unfold parentOf
          omega
        refine ih _ hlt (hnext _ (by omega) (by omega)) (.inr ⟨he' ▸ hf, ?_⟩)
        intro j hs ht
        obtain hp | ⟨-, hp⟩ := hp
        · obtain hlt | heq := lt_or_eq_of_le (show parentOf^[k] j ≤ n by have := hj j hs; omega)
          · exact (hp j hs).2 ht hlt
          · exact hb j hs heq
        exact hp j hs ht
      rw [rightNeighbor, if_neg ha] at hlt ⊢
      have hf : parentOf (n + 1) = n / 2 := rfl
      refine ih _ hlt (hnext _ (by omega) (by omega)) ?_
      obtain hp | ⟨hz, hp⟩ := hp
      · refine .inl fun j hs => ?_
        have hup : parentOf (parentOf^[k] j) = (parentOf^[k] j - 1) / 2 := rfl
        have := hj j hs
        rw [iterate_succ_apply']
        refine ⟨fun hle => (hp j hs).1 (by omega), fun ht hlt' => ?_⟩
        obtain hlt | heq := lt_or_eq_of_le (show parentOf^[k] j ≤ n by omega)
        · exact (hp j hs).2 ht hlt
        · exact hb j hs heq
      rw [he, pow_succ] at hz
      exact .inr ⟨by rw [he']; omega, hp⟩
    · exact ⟨k, hk, hp⟩

/-- How far a slot is behind the target, around the page. -/
def slotsBehind (target slot : Nat) : Nat := (slot + slotsPerFSMPage - target) % slotsPerFSMPage

theorem found_first (h : PageOk page) {mv leaf slot : Nat}
    (hd : descendToSlot page mv
      (climbRight page mv (targetSlot page + nonLeafNodesPerPage)) = some leaf)
    (hr : mv ≤ page.nodes 0) (hs : slot < slotsPerFSMPage) (hv : mv ≤ fsmGetAvail page slot) :
    slotsBehind (targetSlot page) (leaf - nonLeafNodesPerPage) ≤
      slotsBehind (targetSlot page) slot := by
  have ht := @targetSlot_lt page
  obtain ⟨hc, hle⟩ := climbRight_spec hr
  obtain ⟨hl, hlp, hlv⟩ := descendToSlot_found hd (hle.trans_lt ht) hc
  have hk : AtHeight 0 (targetSlot page + nonLeafNodesPerPage) :=
    IsSlot.atHeight ⟨by omega, ht⟩ (by decide)
  obtain ⟨k, hk, hp⟩ := climbRight_first h hk
    (.inl fun j _ => ⟨id, fun hj hlt => absurd hlt hj.not_gt⟩)
  obtain ⟨hup, hfirst⟩ := descendToSlot_first h hk hd
  have hin : IsSlot (nonLeafNodesPerPage + slot) := by
    refine ⟨by omega, ?_⟩
    rw [slotsPerFSMPage_eq] at hs
    rw [nonLeafNodesPerPage_eq, nodesPerPage_eq]
    omega
  have hnot := not_lt.mpr hv
  have hback : nonLeafNodesPerPage + slot < leaf → parentOf^[k] (nonLeafNodesPerPage + slot) <
      climbRight page mv (targetSlot page + nonLeafNodesPerPage) := fun hlt =>
    lt_of_le_of_ne (hup ▸ iterate_parentOf_mono k hlt.le) fun heq => hnot (hfirst _ hin heq hlt)
  have hcycle : (targetSlot page + nonLeafNodesPerPage ≤ leaf ∧
        (nonLeafNodesPerPage + slot < targetSlot page + nonLeafNodesPerPage ∨
          leaf ≤ nonLeafNodesPerPage + slot)) ∨
      leaf ≤ nonLeafNodesPerPage + slot ∧
        nonLeafNodesPerPage + slot < targetSlot page + nonLeafNodesPerPage := by
    obtain hp | ⟨hz, hp⟩ := hp
    · refine .inl ⟨(hp leaf ⟨hl, hlp⟩).1 hup.ge, ?_⟩
      by_contra hno
      push Not at hno
      exact hnot ((hp _ hin).2 hno.1 (hback hno.2))
    refine .inr ⟨not_lt.mp fun hlt => ?_, not_le.mp fun hle => hnot (hp _ hin hle)⟩
    have h2 := (hin.atHeight hk.1).2.1
    omega
  unfold slotsBehind
  rw [slotsPerFSMPage_eq, nonLeafNodesPerPage_eq, nodesPerPage_eq] at *
  omega

theorem PageOk.exists_max (h : PageOk page) :
    ∃ slot < slotsPerFSMPage, fsmGetAvail page slot = fsmGetMaxAvail page := by
  obtain ⟨leaf, hl⟩ := descendToSlot_ok h (le_refl _)
  obtain ⟨hs, hv⟩ := slot_of_found (le_refl _) hl
  exact ⟨_, hs, le_antisymm (h.slot_le hs) hv⟩

/-- **The tree of a page**, after any calls on a page of zeros: every upper node has the larger
value of its children, the root that of the best slot, and a search finds the first slot that is
large enough, from the slot after the last one found. -/
theorem fsmPage_correct {ops : List FsmOp} (hv : ∀ op ∈ ops, op.Valid) (nextSlot : Int)
    (minvalue : Nat) (advancenext : Bool) (restarts : Nat) :
    let page := { ops.foldl fsmStep FSMPage.empty with nextSlot := nextSlot }
    (∀ i < nonLeafNodesPerPage, page.nodes i = childMax page i) ∧
      (∀ slot < slotsPerFSMPage, fsmGetAvail page slot ≤ fsmGetMaxAvail page) ∧
      (∃ slot < slotsPerFSMPage, fsmGetAvail page slot = fsmGetMaxAvail page) ∧
      ∃ result page', fsmSearchAvail minvalue advancenext (restarts + 1) page =
          some (result, page') ∧
        (result = none ↔ ∀ slot < slotsPerFSMPage, fsmGetAvail page slot < minvalue) ∧
        ∀ slot, result = some slot → slot < slotsPerFSMPage ∧
          minvalue ≤ fsmGetAvail page slot ∧
          ∀ other < slotsPerFSMPage, minvalue ≤ fsmGetAvail page other →
            slotsBehind (targetSlot page) slot ≤ slotsBehind (targetSlot page) other := by
  intro page
  have h : PageOk page := fsmRun_ok PageOk.empty hv
  clear_value page
  obtain ⟨best, hb, hmax⟩ := h.exists_max
  refine ⟨h, fun slot hs => h.slot_le hs, ⟨best, hb, hmax⟩, ?_⟩
  rw [fsmSearchAvail_eq]
  split
  next hr =>
    refine ⟨none, page, rfl, iff_of_true rfl fun slot hs => ?_, by simp⟩
    exact (h.slot_le hs).trans_lt hr
  rename_i hr
  obtain ⟨leaf, hl⟩ := descendToSlot_ok h (not_lt.mp hr)
  obtain ⟨hs, hval⟩ := slot_of_found (not_lt.mp hr) hl
  rw [hl]
  refine ⟨_, _, rfl, iff_of_false nofun fun hall => ?_, ?_⟩
  · exact absurd (hall _ hs) (not_lt.mpr hval)
  intro slot he
  rw [← Option.some.inj he]
  exact ⟨hs, hval, fun other ho hov => found_first h hl (not_lt.mp hr) ho hov⟩

theorem fsmPage_correct_set : ∃ result page',
    fsmSearchAvail 3 false 1 { fsmStep FSMPage.empty (.setAvail 5 7) with nextSlot := 9 } =
      some (result, page') ∧
    (result = none ↔ ∀ slot < slotsPerFSMPage,
      fsmGetAvail (fsmStep FSMPage.empty (.setAvail 5 7)) slot < 3) := by
  obtain ⟨-, -, -, result, page', h, hn, -⟩ :=
    @fsmPage_correct [.setAvail 5 7] (by simp [FsmOp.Valid, slotsPerFSMPage_eq]) 9 3 false 0
  exact ⟨result, page', h, hn⟩

end AthenaPG
