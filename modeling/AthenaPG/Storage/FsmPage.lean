import Mathlib.Tactic

/-!
Pages of the free space map (`src/backend/storage/freespace/fsmpage.c`), for the default
block size.

The slots of a page are the leaves of a binary tree in an array, and every node above
holds the larger of its children.

* `PageOk`: every upper node holds the larger of its children;
* `fsmSetAvail_ok`: a change of a slot keeps that;
* `PageOk.slot_le`, `fsmSearchAvail_spec`: the root is an upper bound of the slots, and a
  search finds a slot whenever the root promises one;
* `fsmSearchAvail_heals`: a search in a broken page rebuilds it at most once.
-/

namespace AthenaPG

/-! ## The page -/

/-- `BLCKSZ`. -/
def fsmBlockSize : Nat := 8192

/-- `NodesPerPage`: the page without its header and `fp_next_slot`. -/
def nodesPerPage : Nat := fsmBlockSize - 24 - 4

def nonLeafNodesPerPage : Nat := fsmBlockSize / 2 - 1

def slotsPerFSMPage : Nat := nodesPerPage - nonLeafNodesPerPage

theorem nodesPerPage_eq : nodesPerPage = 8164 := rfl

theorem nonLeafNodesPerPage_eq : nonLeafNodesPerPage = 4095 := rfl

theorem slotsPerFSMPage_eq : slotsPerFSMPage = 4069 := rfl

/-- `FSMPageData`. -/
structure FSMPage where
  nextSlot : Int
  nodes : Nat → Nat

open FSMPage

def FSMPage.empty : FSMPage := ⟨0, fun _ => 0⟩

def FSMPage.setNode (page : FSMPage) (nodeno value : Nat) : FSMPage :=
  { page with nodes := Function.update page.nodes nodeno value }

@[simp] theorem FSMPage.setNode_self (page : FSMPage) (nd value : Nat) :
    (page.setNode nd value).nodes nd = value := Function.update_self ..

variable {nd i : Nat} {page : FSMPage} {value : Nat}

theorem FSMPage.setNode_other (page : FSMPage) (value : Nat) (h : i ≠ nd) :
    (page.setNode nd value).nodes i = page.nodes i := Function.update_of_ne h ..

def parentOf (x : Nat) : Nat := (x - 1) / 2

def leftChild (x : Nat) : Nat := 2 * x + 1

def rightNeighbor (x : Nat) : Nat := if (x + 1 + 1) &&& (x + 1) = 0 then parentOf (x + 1) else x + 1

def nodeOrZero (page : FSMPage) (i : Nat) : Nat := if i < nodesPerPage then page.nodes i else 0

def childMax (page : FSMPage) (nodeno : Nat) : Nat :=
  max (nodeOrZero page (leftChild nodeno)) (nodeOrZero page (leftChild nodeno + 1))

/-- `fsm_rebuild_page`, for the nodes below `n`. -/
def fsmRebuildNodes : Nat → FSMPage → FSMPage
  | 0, page => page
  | n + 1, page => fsmRebuildNodes n (page.setNode n (childMax page n))

variable (page)

def fsmRebuildPage : FSMPage := fsmRebuildNodes nonLeafNodesPerPage page

/-- The value that the loop of `fsm_set_avail` gives to a node on its way, whose left child is
never missing. -/
def newValue (nodeno : Nat) : Nat :=
  if leftChild nodeno + 1 < nodesPerPage then
    max (page.nodes (leftChild nodeno)) (page.nodes (leftChild nodeno + 1))
  else page.nodes (leftChild nodeno)

/-- The loop of `fsm_set_avail`. -/
def propagateUp (page : FSMPage) (nodeno : Nat) : FSMPage :=
  if page.nodes (parentOf nodeno) = newValue page (parentOf nodeno) then page
  else if parentOf nodeno = 0 then
    page.setNode (parentOf nodeno) (newValue page (parentOf nodeno))
  else
    propagateUp (page.setNode (parentOf nodeno) (newValue page (parentOf nodeno))) (parentOf nodeno)
termination_by nodeno
decreasing_by
  unfold parentOf at *
  omega

def fsmSetAvail (slot value : Nat) : FSMPage :=
  let nodeno := nonLeafNodesPerPage + slot
  if page.nodes nodeno = value ∧ value ≤ page.nodes 0 then page
  else
    let page := propagateUp (page.setNode nodeno value) nodeno
    if value > page.nodes 0 then fsmRebuildPage page else page

def fsmGetAvail (slot : Nat) : Nat := page.nodes (nonLeafNodesPerPage + slot)

def fsmGetMaxAvail : Nat := page.nodes 0

variable {page}

theorem parentOf_rightNeighbor_lt {x : Nat} (h : 0 < x) : parentOf (rightNeighbor x) < x := by
  unfold rightNeighbor parentOf
  split <;> omega

/-- The first loop of `fsm_search_avail`: right and up. -/
def climbRight (page : FSMPage) (minvalue nodeno : Nat) : Nat :=
  if 0 < nodeno then
    if page.nodes nodeno ≥ minvalue then nodeno
    else climbRight page minvalue (parentOf (rightNeighbor nodeno))
  else nodeno
termination_by nodeno
decreasing_by exact parentOf_rightNeighbor_lt (by assumption)

/-- The second loop of `fsm_search_avail`: down to a slot, or `none` on a broken page. -/
def descendToSlot (page : FSMPage) (minvalue nodeno : Nat) : Option Nat :=
  if nodeno < nonLeafNodesPerPage then
    if leftChild nodeno < nodesPerPage ∧ page.nodes (leftChild nodeno) ≥ minvalue then
      descendToSlot page minvalue (leftChild nodeno)
    else if leftChild nodeno + 1 < nodesPerPage ∧ page.nodes (leftChild nodeno + 1) ≥ minvalue then
      descendToSlot page minvalue (leftChild nodeno + 1)
    else none
  else some nodeno
termination_by nonLeafNodesPerPage - nodeno
decreasing_by
  all_goals
    simp only [leftChild] at *
    omega

/-- `fsm_search_avail`, with a bound on its restarts: the slot, or -1 as `none`. -/
def fsmSearchAvail (minvalue : Nat) (advancenext : Bool) :
    Nat → FSMPage → Option (Option Nat × FSMPage)
  | 0, _ => none
  | restarts + 1, page =>
    if page.nodes 0 < minvalue then some (none, page)
    else
      let target := if page.nextSlot < 0 ∨ page.nextSlot ≥ slotsPerFSMPage then 0
        else page.nextSlot.toNat
      match descendToSlot page minvalue (climbRight page minvalue (target + nonLeafNodesPerPage)) with
      | some nodeno =>
        let slot := nodeno - nonLeafNodesPerPage
        some (some slot, { page with nextSlot := slot + if advancenext then 1 else 0 })
      | none => fsmSearchAvail minvalue advancenext restarts (fsmRebuildPage page)

/-! ## What the upper nodes hold -/

def NodeOk (page : FSMPage) (i : Nat) : Prop := page.nodes i = childMax page i

def PageOk (page : FSMPage) : Prop := ∀ i < nonLeafNodesPerPage, NodeOk page i

theorem PageOk.empty : PageOk FSMPage.empty := by
  intro i _
  simp [NodeOk, childMax, nodeOrZero, FSMPage.empty]

theorem nodeOrZero_setNode_other (h : i ≠ nd) :
    nodeOrZero (page.setNode nd value) i = nodeOrZero page i := by
  unfold nodeOrZero
  rw [setNode_other _ _ h]

theorem NodeOk.setNode (h : NodeOk page i) (hs : i ≠ nd) (hp : i ≠ parentOf nd) :
    NodeOk (page.setNode nd value) i := by
  unfold parentOf at hp
  unfold NodeOk childMax leftChild at h ⊢
  rw [setNode_other _ _ hs, nodeOrZero_setNode_other (by omega),
    nodeOrZero_setNode_other (by omega)]
  exact h

theorem childMax_setNode_self : childMax (page.setNode nd value) nd = childMax page nd := by
  unfold childMax leftChild
  rw [nodeOrZero_setNode_other (by omega), nodeOrZero_setNode_other (by omega)]

theorem propagateUp_ok (hps : 0 < nd) (hn : nd < nodesPerPage)
    (h : ∀ i < nonLeafNodesPerPage, i ≠ parentOf nd → NodeOk page i) :
    PageOk (propagateUp page nd) ∧
      ∀ i, nonLeafNodesPerPage ≤ i → (propagateUp page nd).nodes i = page.nodes i := by
  induction nd using Nat.strong_induction_on generalizing page with
  | _ nd ih =>
    have hp : parentOf nd < nonLeafNodesPerPage := by
      rw [nodesPerPage_eq] at hn
      rw [nonLeafNodesPerPage_eq, parentOf]
      omega
    have hnw : newValue page (parentOf nd) = childMax page (parentOf nd) := by
      have hlf : leftChild (parentOf nd) < nodesPerPage := by
        unfold leftChild parentOf
        omega
      unfold newValue childMax nodeOrZero
      rw [if_pos hlf]
      split
      · rfl
      · rw [max_eq_left (Nat.zero_le _)]
    rw [propagateUp]
    rw [hnw]
    split
    next hs =>
      refine ⟨fun i hi => ?_, fun _ _ => rfl⟩
      obtain rfl | hne := eq_or_ne i (parentOf nd)
      · exact hs
      · exact h i hi hne
    have hf : ∀ i < nonLeafNodesPerPage, i ≠ parentOf (parentOf nd) →
        NodeOk (page.setNode (parentOf nd) (childMax page (parentOf nd))) i := by
      intro i hi hne
      obtain rfl | hsl := eq_or_ne i (parentOf nd)
      · unfold NodeOk
        rw [setNode_self, childMax_setNode_self]
      exact (h i hi hsl).setNode hsl hne
    have hl : ∀ i, nonLeafNodesPerPage ≤ i →
        (page.setNode (parentOf nd) (childMax page (parentOf nd))).nodes i =
          page.nodes i := fun i hi => setNode_other _ _ (by omega)
    split <;> rename_i hr
    · refine ⟨fun i hi => ?_, hl⟩
      obtain rfl | hne := eq_or_ne i (parentOf (parentOf nd))
      · -- the root is its own parent
        have hz : parentOf (parentOf nd) = parentOf nd := by rw [hr]; rfl
        rw [hz]
        unfold NodeOk
        rw [setNode_self, childMax_setNode_self]
      exact hf i hi hne
    · have hlt : parentOf nd < nd := by
        unfold parentOf
        omega
      obtain ⟨hok, hs⟩ := ih (parentOf nd) hlt (by omega) (by omega) hf
      exact ⟨hok, fun i hi => (hs i hi).trans (hl i hi)⟩

theorem PageOk.le_parent (h : PageOk page) (hi : i < nodesPerPage) :
    page.nodes i ≤ page.nodes (parentOf i) := by
  obtain rfl | hp := Nat.eq_zero_or_pos i
  · exact le_refl _
  have hin : parentOf i < nonLeafNodesPerPage := by
    rw [nodesPerPage_eq] at hi
    rw [nonLeafNodesPerPage_eq, parentOf]
    omega
  have hc : i = leftChild (parentOf i) ∨ i = leftChild (parentOf i) + 1 := by
    unfold leftChild parentOf
    omega
  have hv : nodeOrZero page i = page.nodes i := if_pos hi
  rw [h (parentOf i) hin, childMax]
  obtain hl | hr := hc
  · rw [← hl, hv]
    exact le_max_left _ _
  rw [← hr, hv]
  exact le_max_right _ _

theorem PageOk.le_root (h : PageOk page) (hi : i < nodesPerPage) : page.nodes i ≤ page.nodes 0 := by
  induction i using Nat.strong_induction_on with
  | _ i ih =>
    obtain rfl | hp := Nat.eq_zero_or_pos i
    · exact le_refl _
    have hlt : parentOf i < i := by
      unfold parentOf
      omega
    exact (h.le_parent hi).trans (ih (parentOf i) hlt (by omega))

theorem PageOk.slot_le (h : PageOk page) {slot : Nat} (hs : slot < slotsPerFSMPage) :
    fsmGetAvail page slot ≤ fsmGetMaxAvail page := by
  refine h.le_root ?_
  rw [slotsPerFSMPage_eq] at hs
  rw [nonLeafNodesPerPage_eq, nodesPerPage_eq]
  omega

/-- A change of a slot: the page stays in order, and no other slot changes. -/
theorem fsmSetAvail_ok (h : PageOk page) {slot : Nat} (value : Nat) (hsl : slot < slotsPerFSMPage) :
    PageOk (fsmSetAvail page slot value) ∧
      ∀ i, fsmGetAvail (fsmSetAvail page slot value) i =
        if i = slot then value else fsmGetAvail page i := by
  have hn : nonLeafNodesPerPage + slot < nodesPerPage := by
    rw [slotsPerFSMPage_eq] at hsl
    rw [nonLeafNodesPerPage_eq, nodesPerPage_eq]
    omega
  have hp : 0 < nonLeafNodesPerPage + slot := by
    rw [nonLeafNodesPerPage_eq]
    omega
  unfold fsmSetAvail
  simp only
  split
  next hsm =>
    refine ⟨h, fun i => ?_⟩
    split
    next hi =>
      rw [hi]
      exact hsm.1
    · rfl
  have hst : ∀ i < nonLeafNodesPerPage, i ≠ parentOf (nonLeafNodesPerPage + slot) →
      NodeOk (page.setNode (nonLeafNodesPerPage + slot) value) i :=
    fun i hi hne => (h i hi).setNode (by omega) hne
  obtain ⟨hok, hl⟩ := propagateUp_ok hp hn hst
  have hs : ∀ i, fsmGetAvail (propagateUp (page.setNode (nonLeafNodesPerPage + slot) value)
      (nonLeafNodesPerPage + slot)) i = if i = slot then value else fsmGetAvail page i := by
    intro i
    unfold fsmGetAvail
    rw [hl _ (by omega)]
    split
    next hi => rw [hi, setNode_self]
    · rw [setNode_other _ _ (by omega)]
  -- a page in order is never rebuilt
  have hr := hok.slot_le hsl
  rw [hs slot, if_pos rfl] at hr
  rw [if_neg (by unfold fsmGetMaxAvail at hr; omega)]
  exact ⟨hok, hs⟩

theorem climbRight_spec {page : FSMPage} {mv nd : Nat} (hr : mv ≤ page.nodes 0) :
    mv ≤ page.nodes (climbRight page mv nd) ∧ climbRight page mv nd ≤ nd := by
  induction nd using Nat.strong_induction_on with
  | _ nd ih =>
    rw [climbRight]
    split
    next hp =>
      split
      next hf => exact ⟨hf, le_refl _⟩
      · have hlt := parentOf_rightNeighbor_lt hp
        have hn := ih _ hlt
        exact ⟨hn.1, by omega⟩
    next hz =>
      have hz : nd = 0 := by omega
      rw [hz]
      exact ⟨hr, le_refl _⟩

theorem descendToSlot_spec (h : PageOk page) {mv : Nat} (hm : 0 < mv)
    (hn : nd < nodesPerPage) (hv : mv ≤ page.nodes nd) :
    ∃ leaf, descendToSlot page mv nd = some leaf ∧ nonLeafNodesPerPage ≤ leaf ∧
      leaf < nodesPerPage ∧ mv ≤ page.nodes leaf := by
  -- by induction on the distance to the leaves
  induction hd : nonLeafNodesPerPage - nd using Nat.strong_induction_on generalizing nd with
  | _ d ih =>
    rw [descendToSlot]
    split
    next hi =>
      have hc := h nd hi
      rw [NodeOk, childMax] at hc
      have hdw : ∀ child, child = leftChild nd ∨ child = leftChild nd + 1 →
          nonLeafNodesPerPage - child < d := by
        intro child hch
        unfold leftChild at hch
        omega
      split <;> rename_i hl
      · exact ih _ (hdw _ (.inl rfl)) hl.1 hl.2 rfl
      · split <;> rename_i hr
        · exact ih _ (hdw _ (.inr rfl)) hr.1 hr.2 rfl
        · exfalso
          unfold nodeOrZero at hc
          split at hc <;> split at hc <;> omega
    · exact ⟨nd, rfl, by omega, hn, hv⟩

theorem descendToSlot_found {page : FSMPage} {mv nd leaf : Nat}
    (h : descendToSlot page mv nd = some leaf) (hn : nd < nodesPerPage) (hv : mv ≤ page.nodes nd) :
    nonLeafNodesPerPage ≤ leaf ∧ leaf < nodesPerPage ∧ mv ≤ page.nodes leaf := by
  fun_induction descendToSlot page mv nd with
  | case1 nd hi hl ih => exact ih h hl.1 hl.2
  | case2 nd hi hl hr ih => exact ih h hr.1 hr.2
  | case3 => cases h
  | case4 nd hi =>
    obtain rfl := Option.some.inj h
    exact ⟨by omega, hn, hv⟩

def targetSlot (page : FSMPage) : Nat :=
  if page.nextSlot < 0 ∨ page.nextSlot ≥ slotsPerFSMPage then 0 else page.nextSlot.toNat

theorem targetSlot_lt : targetSlot page + nonLeafNodesPerPage < nodesPerPage := by
  rw [nonLeafNodesPerPage_eq, nodesPerPage_eq, targetSlot, slotsPerFSMPage_eq]
  split <;> omega

theorem descendToSlot_ok (h : PageOk page) {mv : Nat} (hr : mv ≤ page.nodes 0) :
    ∃ leaf, descendToSlot page mv
      (climbRight page mv (targetSlot page + nonLeafNodesPerPage)) = some leaf := by
  obtain ⟨hc, hle⟩ := @climbRight_spec page mv (targetSlot page + nonLeafNodesPerPage) hr
  obtain rfl | hm := Nat.eq_zero_or_pos mv
  · -- the target itself is large enough
    refine ⟨targetSlot page + nonLeafNodesPerPage, ?_⟩
    rw [climbRight, if_pos (by rw [nonLeafNodesPerPage_eq]; omega), if_pos (Nat.zero_le _),
      descendToSlot, if_neg (by omega)]
  obtain ⟨leaf, hl, -⟩ := descendToSlot_spec h hm (hle.trans_lt targetSlot_lt) hc
  exact ⟨leaf, hl⟩

theorem fsmSearchAvail_eq (page : FSMPage) (mv : Nat) (advancenext : Bool) (res : Nat) :
    fsmSearchAvail mv advancenext (res + 1) page =
      if page.nodes 0 < mv then some (none, page)
      else
        match descendToSlot page mv
          (climbRight page mv (targetSlot page + nonLeafNodesPerPage)) with
        | some nd => some (some (nd - nonLeafNodesPerPage),
            { page with nextSlot := (nd - nonLeafNodesPerPage : Nat) + if advancenext then 1 else 0 })
        | none => fsmSearchAvail mv advancenext res (fsmRebuildPage page) := rfl

theorem slot_of_found {mv leaf : Nat} (hr : mv ≤ page.nodes 0)
    (h : descendToSlot page mv
      (climbRight page mv (targetSlot page + nonLeafNodesPerPage)) = some leaf) :
    leaf - nonLeafNodesPerPage < slotsPerFSMPage ∧
      mv ≤ fsmGetAvail page (leaf - nonLeafNodesPerPage) := by
  obtain ⟨hc, hle⟩ := climbRight_spec hr
  obtain ⟨hl, hlt, hv⟩ := descendToSlot_found h (hle.trans_lt targetSlot_lt) hc
  rw [fsmGetAvail, Nat.add_sub_cancel' hl, slotsPerFSMPage_eq]
  rw [nonLeafNodesPerPage_eq] at hl ⊢
  rw [nodesPerPage_eq] at hlt
  exact ⟨by omega, hv⟩

/-- **Search in a page**: it fails only if no slot is large enough, and else finds one; the
nodes are left alone. -/
theorem fsmSearchAvail_spec (h : PageOk page) (mv : Nat) (advancenext : Bool) (res : Nat) :
    (fsmSearchAvail mv advancenext (res + 1) page = some (none, page) ∧ fsmGetMaxAvail page < mv) ∨
    ∃ slot nextSlot, fsmSearchAvail mv advancenext (res + 1) page =
        some (some slot, { page with nextSlot := nextSlot }) ∧
      mv ≤ fsmGetMaxAvail page ∧ slot < slotsPerFSMPage ∧
      mv ≤ fsmGetAvail page slot := by
  rw [fsmSearchAvail_eq]
  split
  next hr => exact .inl ⟨rfl, hr⟩
  next hr =>
    obtain ⟨leaf, hl⟩ := descendToSlot_ok h (not_lt.mp hr)
    rw [hl]
    exact .inr ⟨_, _, rfl, not_lt.mp hr, slot_of_found (not_lt.mp hr) hl⟩

/-! ## Rebuilding a page -/

theorem fsmRebuildNodes_ok {n : Nat} {page : FSMPage}
    (h : ∀ i, n ≤ i → i < nonLeafNodesPerPage → NodeOk page i) :
    PageOk (fsmRebuildNodes n page) ∧
      ∀ i, n ≤ i → (fsmRebuildNodes n page).nodes i = page.nodes i := by
  induction n generalizing page with
  | zero => exact ⟨fun i hi => h i (Nat.zero_le i) hi, fun _ _ => rfl⟩
  | succ n ih =>
    obtain ⟨hok, hs⟩ := @ih (page.setNode n (childMax page n)) fun i hl hi => by
      obtain rfl | hne := eq_or_ne i n
      · unfold NodeOk
        rw [setNode_self, childMax_setNode_self]
      have hp : i ≠ parentOf n := by
        unfold parentOf
        omega
      exact (h i (by omega) hi).setNode hne hp
    exact ⟨hok, fun i hi => (hs i (by omega)).trans (setNode_other _ _ (by omega))⟩

/-- A rebuilt page is in order, with the same slots. -/
theorem fsmRebuildPage_ok (page : FSMPage) :
    PageOk (fsmRebuildPage page) ∧
      ∀ i, fsmGetAvail (fsmRebuildPage page) i = fsmGetAvail page i := by
  obtain ⟨hok, hs⟩ := @fsmRebuildNodes_ok nonLeafNodesPerPage page fun i hl hi => by omega
  refine ⟨hok, fun i => ?_⟩
  unfold fsmGetAvail fsmRebuildPage
  exact hs _ (by omega)

/-- **A search in any page**, torn or corrupt, ends after at most one rebuild. -/
theorem fsmSearchAvail_heals (page : FSMPage) (minvalue : Nat) (advancenext : Bool) :
    ∃ result page', fsmSearchAvail minvalue advancenext 2 page = some (result, page') ∧
      (∀ i, fsmGetAvail page' i = fsmGetAvail page i) ∧
      ∀ slot, result = some slot →
        slot < slotsPerFSMPage ∧ minvalue ≤ fsmGetAvail page slot := by
  rw [fsmSearchAvail_eq]
  split
  · exact ⟨none, page, rfl, fun _ => rfl, by simp⟩
  rename_i hr
  split
  next leaf hl =>
    refine ⟨_, _, rfl, fun _ => rfl, ?_⟩
    intro slot he
    rw [← Option.some.inj he]
    exact slot_of_found (not_lt.mp hr) hl
  obtain ⟨hok, hs⟩ := fsmRebuildPage_ok page
  generalize fsmRebuildPage page = page' at hok hs ⊢
  rw [fsmSearchAvail_eq]
  split
  · exact ⟨none, _, rfl, hs, by simp⟩
  rename_i hr'
  obtain ⟨leaf, hl⟩ := descendToSlot_ok hok (not_lt.mp hr')
  rw [hl]
  refine ⟨_, _, rfl, hs, ?_⟩
  intro slot he
  rw [← hs, ← Option.some.inj he]
  exact slot_of_found (not_lt.mp hr') hl

end AthenaPG
