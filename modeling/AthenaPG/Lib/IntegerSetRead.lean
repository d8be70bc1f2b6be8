import AthenaPG.Lib.IntegerSet

/-!
Reading an integer set.

* `descend_ok`: the walk from the root ends at the leaf whose low key is the last one at or
  below the probe.
* `intsetIsMember_iff`: membership.
* `iterateCalls_ok`: iteration.
* `integerset_contents`: what a set that increasing values were added to answers.
-/

namespace AthenaPG
open List Nat IntegerSet SortedGroups LeafItem IntegerSet
open List (length range range')

/-! ## Binary search -/

theorem intsetBinsrch_eq {item : Nat} {keys : List Nat} {key : Nat → Nat} (nex : Bool)
    (hk : ∀ i, (hi : i < keys.length) → key i = keys[i]) (hso : keys.Pairwise (· < ·)) :
    intsetBinsrch item key keys.length nex =
      keys.countP fun y => if nex then decide (y ≤ item) else decide (y < item) := by
  have hp : keys.Pairwise fun a b =>
      (if nex then decide (b ≤ item) else decide (b < item)) = true →
        (if nex then decide (a ≤ item) else decide (a < item)) = true := by
    refine hso.imp fun {a b} hab => ?_
    cases nex with
    | true => simpa using fun hb => (hab.trans_le hb).le
    | false => simpa using fun hb => hab.trans hb
  rw [intsetBinsrch]
  refine Bisection.partitionPoint_eq (n := keys.length) ?_ (by omega) (zero_le _)
    countP_le_length (le_refl _)
  intro i hi
  rw [hk i hi]
  exact Bisection.lt_countP_iff hp i hi

theorem intsetBinsrchUint64_next {item : Nat} {arr : List Nat} (h : arr.Pairwise (· < ·)) :
    intsetBinsrchUint64 item arr true = arr.countP fun y => decide (y ≤ item) :=
  intsetBinsrch_eq true (fun _ hi => getD_eq_getElem _ _ hi) h

theorem intsetBinsrchUint64_first {item : Nat} {arr : List Nat} (h : arr.Pairwise (· < ·)) :
    intsetBinsrchUint64 item arr false = arr.countP fun y => decide (y < item) :=
  intsetBinsrch_eq false (fun _ hi => getD_eq_getElem _ _ hi) h

theorem intsetBinsrchLeaf_next {item : Nat} {arr : List LeafItem}
    (h : (arr.map first).Pairwise (· < ·)) :
    intsetBinsrchLeaf item arr true = (arr.map first).countP fun y => decide (y ≤ item) := by
  have hk : ∀ i, (hi : i < (arr.map first).length) →
      (arr.getD i ⟨0, 0⟩).first = (arr.map first)[i] := by
    intro i hi
    rw [length_map] at hi
    rw [getElem_map, getD_eq_getElem _ _ hi]
  have heq := @intsetBinsrch_eq item _ _ true hk h
  rwa [length_map] at heq

/-! ## The walk -/

def IntegerSet.keysAt (s : IntegerSet) : Nat → List Nat
  | 0 => leafKeys s.leaves
  | level + 1 => lowKeys (s.internals (level + 1))

/-- The last node of a level whose low key is at most the probe. -/
def IntegerSet.nodeFor (s : IntegerSet) (x level : Nat) : Nat :=
  (s.keysAt level).countP (fun y => decide (y ≤ x)) - 1

section Walk

variable {s : IntegerSet} {init : List IntsetLeafNode} {last : IntsetLeafNode}
  (h : LinkedLeaves s init last) (hne : last.items ≠ [])

include h

variable {lv : Nat}

theorem upperOk_at (hl : lv < s.numLevels) : UpperOk s lv (s.keysAt lv) := by
  induction lv with
  | zero => exact h.upper
  | succ lv ih => exact ((ih (by omega)).step hl).2.2

theorem linkedLevel_at (hl : lv + 1 < s.numLevels) :
    LinkedLevel lv (s.keysAt lv) (s.internals (lv + 1)) :=
  ((upperOk_at h (by omega)).step hl).2.1

include hne

theorem leafGroups_ne : ∀ group ∈ s.leaves.map fun leaf => leaf.items.map first, group ≠ [] := by
  intro group hg
  obtain ⟨leaf, hl, rfl⟩ := mem_map.mp hg
  rw [h.leaves] at hl
  obtain hl | hl := mem_append.mp hl
  · intro hn
    have hf := h.full leaf hl
    rw [map_eq_nil_iff.mp hn] at hf
    exact absurd hf (by decide)
  rw [mem_singleton.mp hl]
  simpa using hne

omit h hne in
theorem leafGroups_flatten :
    (s.leaves.map fun leaf => leaf.items.map first).flatten = s.items.map first := by
  rw [items, map_flatMap, flatMap_def]

omit h hne in
theorem itemGroups_ne (s : IntegerSet) : ∀ group ∈ s.items.map values, group ≠ [] := by
  intro group hg
  obtain ⟨item, _, rfl⟩ := mem_map.mp hg
  exact cons_ne_nil _ _

omit h hne in
theorem heads_itemGroups (s : IntegerSet) :
    SortedGroups.heads 0 (s.items.map values) = s.items.map first := by
  rw [heads, map_map]
  rfl

omit h hne in
theorem firsts_sorted (hso : s.treeValues.Pairwise (· < ·)) :
    (s.items.map first).Pairwise (· < ·) := by
  rw [← heads_itemGroups]
  exact hso.sublist (heads_sublist 0 (itemGroups_ne s))

omit hne in
theorem levelGroups_ne (hl : lv + 1 < s.numLevels) :
    ∀ group ∈ (s.internals (lv + 1)).map IntsetInternalNode.values, group ≠ [] := by
  intro group hg
  obtain ⟨n, hn, rfl⟩ := mem_map.mp hg
  exact (linkedLevel_at h hl).nonempty n hn

section

variable (hsorted : s.treeValues.Pairwise (· < ·))
include hsorted

theorem keysAt_sorted (hl : lv < s.numLevels) : (s.keysAt lv).Pairwise (· < ·) := by
  induction lv with
  | zero =>
    have hf := firsts_sorted hsorted
    rw [← leafGroups_flatten] at hf
    exact hf.sublist (heads_sublist 0 (leafGroups_ne h hne))
  | succ lv ih =>
    have hln := linkedLevel_at h hl
    have hb := ih (by omega)
    rw [← hln.keys] at hb
    exact hb.sublist (heads_sublist 0 (levelGroups_ne h hl))

theorem countP_keysAt_zero {x : Nat} (hl : lv < s.numLevels)
    (hz : (s.keysAt lv).countP (· ≤ x) = 0) :
    (s.keysAt 0).countP (· ≤ x) = 0 := by
  induction lv with
  | zero => exact hz
  | succ lv ih =>
    refine ih (by omega) ?_
    have hf := keysAt_sorted h hne hsorted (lt_of_succ_lt hl)
    rw [← (linkedLevel_at h hl).keys] at hf ⊢
    exact countP_flatten_of_heads (levelGroups_ne h hl) hf hz

theorem walk_step (x : Nat) (hlv : lv + 1 < s.numLevels) :
    let n := s.internalNode ⟨lv + 1, s.nodeFor x (lv + 1)⟩
    let itemno := intsetBinsrchUint64 x n.values true
    (itemno = 0 → (s.keysAt lv).countP (· ≤ x) = 0) ∧
      (itemno ≠ 0 → n.downlinks.getD (itemno - 1) ⟨0, 0⟩ = ⟨lv, s.nodeFor x lv⟩) := by
  have hl := linkedLevel_at h hlv
  have hg := levelGroups_ne h hlv
  have hf := keysAt_sorted h hne hsorted (lt_of_succ_lt hlv)
  rw [← hl.keys] at hf
  have hnd : s.nodeFor x (lv + 1) < (s.internals (lv + 1)).length := by
    have hps := (upperOk_at h (lt_of_succ_lt hlv)).pos
    have hlt := groupOf_lt 0 x
      (mt map_eq_nil_iff.mp (hl.ne_nil hps) :
        (s.internals (lv + 1)).map IntsetInternalNode.values ≠ [])
    rwa [length_map] at hlt
  obtain ⟨n, hn⟩ : ∃ n, n = s.internalNode ⟨lv + 1, s.nodeFor x (lv + 1)⟩ := ⟨_, rfl⟩
  have hgt : (s.internals (lv + 1))[s.nodeFor x (lv + 1)] = n := by
    rw [hn, internalNode, getD_eq_getElem _ _ hnd]
  have hm := hgt ▸ getElem_mem hnd
  have hv : ((s.internals (lv + 1)).map IntsetInternalNode.values).getD
      (s.nodeFor x (lv + 1)) [] = n.values := by
    rw [getD_eq_getElem _ _ (by simpa using hnd), getElem_map, hgt]
  have hln : ((s.internals (lv + 1)).map IntsetInternalNode.downlinks).getD
      (s.nodeFor x (lv + 1)) [] = n.downlinks := by
    rw [getD_eq_getElem _ _ (by simpa using hnd), getElem_map, hgt]
  have hs : intsetBinsrchUint64 x n.values true = n.values.countP fun y => decide (y ≤ x) :=
    intsetBinsrchUint64_next
      (hf.sublist (sublist_flatten_of_mem (mem_map_of_mem hm)))
  have hgr : groupOf 0
      ((s.internals (lv + 1)).map IntsetInternalNode.values) x = s.nodeFor x (lv + 1) := rfl
  have hp : ((s.internals (lv + 1)).map IntsetInternalNode.downlinks).map length =
      ((s.internals (lv + 1)).map IntsetInternalNode.values).map length := by
    rw [map_map, map_map]
    exact map_congr_left hl.paired
  have hz := countP_flatten_eq_zero 0 x hg hf
  have hc := getD_of_group 0 x ⟨0, 0⟩ hg hf hp
  rw [hgr, hv, hl.keys] at hz hc
  rw [hln, hl.links] at hc
  simp only [← hn, hs]
  refine ⟨hz, fun hsm => (hc hsm).trans ?_⟩
  have hle := (s.keysAt lv).countP_le_length (p := fun y => decide (y ≤ x))
  have hps := (upperOk_at h (lt_of_succ_lt hlv)).pos
  rw [getD_eq_getElem _ _ (by rw [length_map, length_range]; omega), getElem_map, getElem_range]
  rfl

/-- **The walk from the root** ends at the leaf that belongs to the probe, or all low keys are
above the probe. -/
theorem descend_ok (x : Nat) (hl : lv < s.numLevels) :
    descend s x lv ⟨lv, s.nodeFor x lv⟩ = some ⟨0, s.nodeFor x 0⟩ ∨
      (descend s x lv ⟨lv, s.nodeFor x lv⟩ = none ∧
        (s.keysAt 0).countP (· ≤ x) = 0) := by
  induction lv with
  | zero => exact .inl rfl
  | succ lv ih =>
    obtain ⟨hz, hc⟩ := walk_step h hne hsorted x hl
    rw [descend]
    by_cases hi : intsetBinsrchUint64 x
        (s.internalNode ⟨lv + 1, s.nodeFor x (lv + 1)⟩).values true = 0
    · rw [if_pos hi]
      exact .inr ⟨rfl, countP_keysAt_zero h hne hsorted (by omega) (hz hi)⟩
    rw [if_neg hi, hc hi]
    exact ih (by omega)

end

end Walk

/-! ## Membership -/

variable {values : List Nat} {s : IntegerSet} {xs : List Nat} {p n : Nat}

theorem buffered_search (hso : values.Pairwise (· < ·)) (x : Nat) :
    (if intsetBinsrchUint64 x values false ≥ values.length then false
      else decide (values.getD (intsetBinsrchUint64 x values false) 0 = x)) = true ↔ x ∈ values := by
  rw [intsetBinsrchUint64_first hso]
  have hp : values.Pairwise fun a b => decide (b < x) = true → decide (a < x) = true :=
    hso.imp fun {a b} hab => by simpa using fun hb => hab.trans hb
  have hct := Bisection.lt_countP_iff hp
  constructor
  · intro hf
    split at hf
    · simp at hf
    next hlt =>
      rw [getD_eq_getElem _ _ (by omega), decide_eq_true_iff] at hf
      rw [← hf]
      exact getElem_mem _
  intro hm
  obtain ⟨i, hi, rfl⟩ := mem_iff_getElem.mp hm
  have hge : ¬ i < values.countP fun y => decide (y < values[i]) := by
    rw [← hct i hi]
    simp
  have hbf : ∀ j < i, j < values.countP fun y => decide (y < values[i]) := by
    intro j hj
    rw [← hct j (by omega), decide_eq_true_iff]
    exact pairwise_iff_getElem.mp hso j i (by omega) hi hj
  have hc : values.countP (fun y => decide (y < values[i])) = i := by
    obtain hz | hps := Nat.eq_zero_or_pos i
    · omega
    have := hbf (i - 1) (by omega)
    omega
  rw [hc, if_neg (by omega), getD_eq_getElem _ _ hi]
  simp

section Member

variable {s : IntegerSet} {init : List IntsetLeafNode} {last : IntsetLeafNode}
  (h : LinkedLeaves s init last) (hne : last.items ≠ [])
  (hsorted : s.treeValues.Pairwise (· < ·)) (x : Nat)

include hsorted in
theorem not_mem_of_countP_firsts (hz : (s.items.map first).countP (· ≤ x) = 0) :
    x ∉ s.treeValues := by
  rw [← heads_itemGroups] at hz
  have hn := countP_flatten_of_heads (itemGroups_ne s) hsorted hz
  intro hx
  have := countP_eq_zero.mp hn x hx
  simp at this

include hsorted

theorem item_search {item : LeafItem}
    (hit : s.items.getD ((s.items.map first).countP (· ≤ x) - 1) ⟨0, 0⟩ = item)
    (hp : (s.items.map first).countP (· ≤ x) ≠ 0) :
    (if item.first = x then true else simple8bContains item.codeword x item.first) = true ↔
      x ∈ s.treeValues := by
  have hg : groupOf 0 (s.items.map values) x = (s.items.map first).countP (· ≤ x) - 1 := by
    rw [groupOf, heads_itemGroups]
  have hle := (s.items.map first).countP_le_length (p := fun y => decide (y ≤ x))
  rw [length_map] at hle
  have hin : (s.items.map first).countP (· ≤ x) - 1 < s.items.length := by omega
  rw [getD_eq_getElem _ _ hin] at hit
  have hv : (s.items.map values).getD
      (groupOf 0 (s.items.map values) x) [] = item.values := by
    rw [hg, getD_eq_getElem _ _ (by simpa using hin), getElem_map, hit]
  have hm := mem_flatten_iff (x := x) 0 (itemGroups_ne s) hsorted
  rw [hv] at hm
  have hi : item.values.Pairwise (· < ·) := by
    refine hsorted.sublist (sublist_flatten_of_mem ?_)
    rw [← hit]
    exact mem_map_of_mem (getElem_mem hin)
  have hf : item.first ≤ x := by
    have hs := countP_group_pos (itemGroups_ne s) hsorted
      (heads_itemGroups s ▸ pos_of_ne_zero hp)
    rw [hv] at hs
    obtain ⟨y, hy, hyx⟩ := countP_pos_iff.mp hs
    rw [decide_eq_true_iff] at hyx
    obtain rfl | hy := mem_cons.mp hy
    · exact hyx
    · exact ((pairwise_cons.mp hi).1 y hy).le.trans hyx
  rw [treeValues, hm, values, mem_cons]
  by_cases heq : item.first = x
  · simp [heq]
  rw [if_neg heq, simple8bContains_iff hi (by omega)]
  simp [Ne.symm heq]

include h hne

theorem leaf_search :
    let items := (s.leaf (s.nodeFor x 0)).items
    let itemno := intsetBinsrchLeaf x items true
    (if itemno = 0 then false
      else
        let item := items.getD (itemno - 1) ⟨0, 0⟩
        if item.first = x then true else simple8bContains item.codeword x item.first) = true ↔
      x ∈ s.treeValues := by
  have hf := firsts_sorted hsorted
  rw [← leafGroups_flatten] at hf
  have hgr := leafGroups_ne h hne
  have hg : groupOf 0
      (s.leaves.map fun leaf => leaf.items.map first) x = s.nodeFor x 0 := rfl
  have hl : s.nodeFor x 0 < s.leaves.length := by
    have hsm : (s.leaves.map fun leaf => leaf.items.map first) ≠ [] := by simp [h.leaves]
    have hlt := groupOf_lt 0 x hsm
    rwa [hg, length_map] at hlt
  have hgd {β : Type} (f : IntsetLeafNode → List β) :
      (s.leaves.map f).getD (s.nodeFor x 0) [] = f (s.leaf (s.nodeFor x 0)) := by
    rw [getD_eq_getElem _ _ (by simpa using hl), getElem_map, leaf, getD_eq_getElem _ _ hl]
  have hfr := hgd fun leaf => leaf.items.map first
  have hi := hgd IntsetLeafNode.items
  have hsb : ((s.leaf (s.nodeFor x 0)).items.map first).Sublist
      (s.leaves.map fun leaf => leaf.items.map first).flatten := by
    refine sublist_flatten_of_mem ?_
    rw [← hfr, getD_eq_getElem _ _ (by simpa using hl)]
    exact getElem_mem _
  have hs := @intsetBinsrchLeaf_next x _ (hf.sublist hsb)
  have hp : (s.leaves.map IntsetLeafNode.items).map length =
      (s.leaves.map fun leaf => leaf.items.map first).map length := by
    simp
  have hz := countP_flatten_eq_zero 0 x hgr hf
  have he := getD_of_group 0 x ⟨0, 0⟩ hgr hf hp
  rw [hg, hfr, leafGroups_flatten] at hz he
  rw [hi, ← flatMap_def] at he
  simp only [hs]
  by_cases hn : ((s.leaf (s.nodeFor x 0)).items.map first).countP (· ≤ x) = 0
  · rw [if_pos hn]
    simpa using not_mem_of_countP_firsts hsorted x (hz hn)
  rw [if_neg hn, he hn]
  refine item_search hsorted x rfl fun ha => hn ?_
  rw [← leafGroups_flatten] at ha
  exact le_zero.mp (hsb.countP_le.trans ha.le)

theorem tree_search :
    (match s.root with
    | none => false
    | some root =>
      match descend s x (s.numLevels - 1) root with
      | none => false
      | some node =>
        let items := (s.leaf node.index).items
        let itemno := intsetBinsrchLeaf x items true
        if itemno = 0 then false
        else
          let item := items.getD (itemno - 1) ⟨0, 0⟩
          if item.first = x then true else simple8bContains item.codeword x item.first) = true ↔
      x ∈ s.treeValues := by
  have hl := h.upper.levels
  have ht := (upperOk_at h (sub_lt hl one_pos)).top (by omega)
  have hr : s.nodeFor x (s.numLevels - 1) = 0 := by
    have hle := (s.keysAt (s.numLevels - 1)).countP_le_length (p := fun y => decide (y ≤ x))
    rw [nodeFor]
    omega
  have hw := descend_ok h hne hsorted x (sub_lt hl one_pos)
  rw [hr] at hw
  rw [h.upper.root]
  obtain hfn | ⟨hn, hz⟩ := hw
  · simp only [hfn]
    exact leaf_search h hne hsorted x
  simp only [hn, Bool.false_eq_true, false_iff]
  refine not_mem_of_countP_firsts hsorted x ?_
  have hf := firsts_sorted hsorted
  rw [← leafGroups_flatten] at hf ⊢
  exact countP_flatten_of_heads (leafGroups_ne h hne) hf hz

end Member

/-- **Exactly the added values are members.** -/
theorem intsetIsMember_iff (h : IntsetOk s xs) (hso : xs.Pairwise (· < ·)) (x : Nat) :
    intsetIsMember s x = true ↔ x ∈ xs := by
  rw [← h.contents] at hso ⊢
  obtain ⟨ht, hb, ha⟩ := pairwise_append.mp hso
  rw [mem_append, intsetIsMember]
  split
  · -- everything in the tree is below the first buffered value
    rename_i hf
    obtain ⟨hln, hge⟩ := hf
    rw [getD_eq_getElem _ _ hln] at hge
    have hnt : x ∉ s.treeValues := fun hx => by
      have := ha x hx _ (getElem_mem hln)
      omega
    exact (buffered_search hb x).trans (or_iff_right hnt).symm
  rename_i hf
  have hnt : x ∉ s.bufferedValues := by
    intro hx
    cases hv : s.bufferedValues with
    | nil => simp [hv] at hx
    | cons first rest =>
      rw [hv] at hx hb hf
      have hlt : x < first := by simpa using hf
      obtain rfl | hx := mem_cons.mp hx
      · exact lt_irrefl _ hlt
      · exact lt_asymm hlt ((pairwise_cons.mp hb).1 x hx)
  rw [or_iff_left hnt]
  obtain hn | ⟨init, last, hl, hne⟩ := h.tree
  · simp [hn.root, treeValues, items, hn.leaves]
  · exact tree_search hl hne ht x

/-! ## Iteration -/

def IntegerSet.leafRest (s : IntegerSet) : List Nat := match s.iterNode with
  | none => []
  | some p =>
    ((s.leaf p).items.drop s.iterItemno).flatMap LeafItem.values ++
      (s.leaves.drop (p + 1)).flatMap fun leaf => leaf.items.flatMap LeafItem.values

/-- The values that an iteration has still to return. -/
def IntegerSet.iterRest (s : IntegerSet) : List Nat := match s.iterValues with
  | .null => []
  | .iterValuesBuf =>
    (s.iterValuesBuf.take s.iterNumValues).drop s.iterValueno ++ s.leafRest ++ s.bufferedValues
  | .bufferedValues => (s.bufferedValues.take s.iterNumValues).drop s.iterValueno

/-- The rounds of the loop without a value that are still possible. -/
def iterRounds (s : IntegerSet) : Nat :=
  (match s.iterNode with
    | none => 0
    | some p => ((s.leaf p).items.length - s.iterItemno) + 1 +
      ((s.leaves.drop (p + 1)).map fun leaf => leaf.items.length + 1).sum) +
    if s.iterValues = .iterValuesBuf then 1 else 0

structure IterOk (s : IntegerSet) : Prop where
  chained : ∀ p < s.leaves.length,
    (s.leaf p).next = if p + 1 < s.leaves.length then some (p + 1) else none
  node : ∀ p ∈ s.iterNode, p < s.leaves.length
  source : (s.iterValues = .iterValuesBuf ∧ s.iterNumValues ≤ s.iterValuesBuf.length) ∨
    (s.iterValues = .bufferedValues ∧ s.iterNode = none ∧ s.iterNumValues ≤ s.bufferedValues.length)

theorem leaves_drop (hp : p < s.leaves.length) :
    s.leaves.drop p = s.leaf p :: s.leaves.drop (p + 1) := by
  rw [drop_eq_getElem_cons hp, leaf, getD_eq_getElem _ _ hp]

theorem iterRounds_lt (h : IterOk s) : iterRounds s < iterateSteps s := by
  have hle : (match s.iterNode with
      | none => 0
      | some p => ((s.leaf p).items.length - s.iterItemno) + 1 +
        ((s.leaves.drop (p + 1)).map fun leaf => leaf.items.length + 1).sum) ≤
      (s.leaves.map fun leaf => leaf.items.length + 1).sum := by
    cases hnod : s.iterNode with
    | none => exact zero_le _
    | some p =>
      have hs := congrArg (fun l => (l.map fun leaf => leaf.items.length + 1).sum)
        (take_append_drop p s.leaves)
      simp only [map_append, List.sum_append, leaves_drop (h.node p hnod), map_cons, sum_cons] at hs
      simp only
      omega
  have hl : (if s.iterValues = .iterValuesBuf then 1 else 0) ≤ 1 := by split <;> omega
  rw [iterRounds, iterateSteps]
  omega

/-- What a call has to return: the first of the values that remain. -/
def ReturnsNext (s : IntegerSet) (result : Option (Option Nat × IntegerSet)) : Prop :=
  match s.iterRest with
  | [] => ∃ s', result = some (none, s') ∧ s'.iterActive = false
  | value :: rest => ∃ s', result = some (some value, s') ∧ IterOk s' ∧ s'.iterRest = rest

theorem ReturnsNext.congr {s' : IntegerSet} {result : Option (Option Nat × IntegerSet)}
    (h : ReturnsNext s' result) (hr : s'.iterRest = s.iterRest) : ReturnsNext s result := by
  rwa [ReturnsNext, hr] at h

theorem take_drop_cons {num no : Nat} (hn : num ≤ values.length) (hno : no < num) :
    (values.take num).drop no = values.getD no 0 :: (values.take num).drop (no + 1) := by
  rw [drop_eq_getElem_cons (by rw [length_take]; omega), getElem_take,
    getD_eq_getElem _ _ (by omega)]

theorem take_drop_nil {num no : Nat} (hno : ¬ no < num) : (values.take num).drop no = [] := by
  rw [drop_eq_nil_iff, length_take]
  omega

section

variable (h : IterOk s)
include h

theorem iterateLoop_value (hv : s.iterValueno < s.iterNumValues) :
    ReturnsNext s (some (some (s.iterValue s.iterValueno),
      { s with iterValueno := s.iterValueno + 1 })) := by
  have hok : IterOk { s with iterValueno := s.iterValueno + 1 } := { h with }
  have hr : s.iterRest = s.iterValue s.iterValueno ::
      { s with iterValueno := s.iterValueno + 1 }.iterRest := by
    obtain ⟨hs, hn⟩ | ⟨hs, hnod, hn⟩ := h.source
    · simp only [iterRest, iterValue, hs, take_drop_cons hn hv]
      rfl
    simp only [iterRest, iterValue, hs, take_drop_cons hn hv]
  rw [ReturnsNext, hr]
  exact ⟨_, rfl, hok, rfl⟩

section

variable (hnod : s.iterNode = some p)
include hnod

theorem IterOk.source_of_node : s.iterValues = .iterValuesBuf := by
  obtain ⟨hs, _⟩ | ⟨_, hn, _⟩ := h.source
  · exact hs
  rw [hnod] at hn
  cases hn

theorem decodeItem_ok
    (hv : ¬ s.iterValueno < s.iterNumValues) (hi : s.iterItemno < (s.leaf p).items.length) :
    IterOk (s.decodeItem p) ∧ (s.decodeItem p).iterRest = s.iterRest ∧
      iterRounds (s.decodeItem p) < iterRounds s := by
  have hs := h.source_of_node hnod
  have hnod' : (s.decodeItem p).iterNode = some p := hnod
  have hs' : (s.decodeItem p).iterValues = .iterValuesBuf := hs
  have hl : (s.decodeItem p).leaf p = s.leaf p := rfl
  refine ⟨⟨h.chained, h.node, .inl ⟨hs, by simp [decodeItem]⟩⟩, ?_, ?_⟩
  · obtain ⟨item, hg⟩ : ∃ item, (s.leaf p).items.getD s.iterItemno ⟨0, 0⟩ = item := ⟨_, rfl⟩
    have hd : (s.leaf p).items.drop s.iterItemno =
        item :: (s.leaf p).items.drop (s.iterItemno + 1) := by
      rw [drop_eq_getElem_cons hi, ← hg, getD_eq_getElem _ _ hi]
    simp only [iterRest, leafRest, hnod, hnod', hs, hs', hl, take_drop_nil hv, hd]
    simp only [decodeItem, hg]
    simp [LeafItem.values]
  simp only [iterRounds, hnod, hnod', hs, hs', hl]
  simp only [decodeItem]
  omega

theorem nextLeaf_ok (hi : ¬ s.iterItemno < (s.leaf p).items.length) :
    IterOk (s.nextLeaf p) ∧ (s.nextLeaf p).iterRest = s.iterRest ∧
      iterRounds (s.nextLeaf p) < iterRounds s := by
  have hs := h.source_of_node hnod
  have hp := h.node p hnod
  have hs' : (s.nextLeaf p).iterValues = .iterValuesBuf := hs
  have hnm : (s.nextLeaf p).iterNumValues ≤ (s.nextLeaf p).iterValuesBuf.length := by
    obtain ⟨_, hnm⟩ | ⟨ho, _⟩ := h.source
    · exact hnm
    rw [hs] at ho
    cases ho
  have hdn : (s.leaf p).items.drop s.iterItemno = [] := by
    rw [drop_eq_nil_iff]
    omega
  have hn := h.chained p hp
  by_cases hm : p + 1 < s.leaves.length
  · rw [if_pos hm] at hn
    have hnod' : (s.nextLeaf p).iterNode = some (p + 1) := hn
    have hd := leaves_drop hm
    refine ⟨⟨h.chained, ?_, .inl ⟨hs', hnm⟩⟩, ?_, ?_⟩
    · intro q hq
      rw [hnod', Option.mem_some_iff] at hq
      exact hq ▸ hm
    · simp only [iterRest, leafRest, hnod, hnod', hs, hs', hdn, hd]
      simp [nextLeaf, leaf]
    simp only [iterRounds, hnod, hnod', hs, hs', hd]
    simp only [nextLeaf, leaf, map_cons, sum_cons]
    omega
  rw [if_neg hm] at hn
  have hnod' : (s.nextLeaf p).iterNode = none := hn
  have hd : s.leaves.drop (p + 1) = [] := by
    rw [drop_eq_nil_iff]
    omega
  refine ⟨⟨h.chained, ?_, .inl ⟨hs', hnm⟩⟩, ?_, ?_⟩
  · intro q hq
    rw [hnod'] at hq
    cases hq
  · simp only [iterRest, leafRest, hnod, hnod', hs, hs', hdn, hd]
    simp [nextLeaf]
  simp only [iterRounds, hnod, hnod', hs, hs']
  omega

end

theorem toBuffer_ok (hnod : s.iterNode = none)
    (hv : ¬ s.iterValueno < s.iterNumValues) (hs : s.iterValues = .iterValuesBuf) :
    IterOk s.toBuffer ∧ s.toBuffer.iterRest = s.iterRest ∧ iterRounds s.toBuffer < iterRounds s := by
  refine ⟨⟨h.chained, h.node, .inr ⟨rfl, hnod, le_refl _⟩⟩, ?_, ?_⟩
  · simp [iterRest, leafRest, hnod, hs, take_drop_nil hv, toBuffer]
  · simp [iterRounds, hnod, hs, toBuffer]

/-- **The loop returns the next value**, or reports the end. -/
theorem iterateLoop_ok {steps : Nat} (hst : iterRounds s < steps) :
    ReturnsNext s (iterateLoop steps s) := by
  induction steps generalizing s with
  | zero => omega
  | succ steps ih =>
    -- a round without a value goes on with a state that has to return the same
    have hr : ∀ s', IterOk s' ∧ s'.iterRest = s.iterRest ∧ iterRounds s' < iterRounds s →
        ReturnsNext s (iterateLoop steps s') := fun s' ⟨hok, hrs, hlt⟩ =>
      (ih hok (by omega)).congr hrs
    rw [iterateLoop]
    by_cases hv : s.iterValueno < s.iterNumValues
    · rw [if_pos hv]
      exact iterateLoop_value h hv
    rw [if_neg hv]
    cases hnod : s.iterNode with
    | some p =>
      by_cases hi : s.iterItemno < (s.leaf p).items.length
      · simp only [if_pos hi]
        exact hr _ (decodeItem_ok h hnod hv hi)
      simp only [if_neg hi]
      exact hr _ (nextLeaf_ok h hnod hi)
    | none =>
      by_cases hs : s.iterValues = .iterValuesBuf
      · simp only [if_pos hs]
        exact hr _ (toBuffer_ok h hnod hv hs)
      simp only [if_neg hs]
      have hrs : s.iterRest = [] := by
        obtain ⟨hb, _⟩ | ⟨hb, _, _⟩ := h.source
        · exact absurd hb hs
        · simp only [iterRest, hb, take_drop_nil hv]
      rw [ReturnsNext, hrs]
      exact ⟨_, rfl, rfl⟩

end

/-- What the first calls of `intset_iterate_next` return. -/
def iterateCalls : Nat → IntegerSet → Option (List (Option Nat) × IntegerSet)
  | 0, s => some ([], s)
  | calls + 1, s => do
    let (value, s) ← intsetIterateNext s
    let (values, s) ← iterateCalls calls s
    some (value :: values, s)

theorem iterateCalls_rest (h : IterOk s) {rest : List Nat} (hr : s.iterRest = rest) :
    ∃ s', iterateCalls (rest.length + 1) s = some (rest.map some ++ [none], s') ∧
      s'.iterActive = false := by
  induction rest generalizing s with
  | nil =>
    have hn := iterateLoop_ok h (iterRounds_lt h)
    rw [ReturnsNext, hr] at hn
    obtain ⟨s', hs', ha⟩ := hn
    refine ⟨s', ?_, ha⟩
    simp [iterateCalls, intsetIterateNext, hs']
  | cons value rest ih =>
    have hn := iterateLoop_ok h (iterRounds_lt h)
    rw [ReturnsNext, hr] at hn
    obtain ⟨s₁, hs₁, hok₁, hr₁⟩ := hn
    obtain ⟨s', hs', ha⟩ := ih hok₁ hr₁
    refine ⟨s', ?_, ha⟩
    rw [length_cons, iterateCalls, intsetIterateNext, hs₁]
    simp [hs']

theorem LinkedLeaves.chained {init : List IntsetLeafNode} {last : IntsetLeafNode}
    (h : LinkedLeaves s init last) (hp : p < s.leaves.length) :
    (s.leaf p).next = if p + 1 < s.leaves.length then some (p + 1) else none := by
  rw [leaf, h.leaves, length_append, length_singleton] at *
  by_cases hi : p < init.length
  · have hn := congrArg (fun l => l[p]?) h.nexts
    rw [getD_append _ _ _ _ hi, getD_eq_getElem _ _ hi, if_pos (by omega)]
    simpa [hi] using hn
  have heq : p = init.length := by omega
  rw [if_neg (by omega), heq]
  simpa using h.lastNext

theorem intsetBeginIterate_ok (h : IntsetOk s xs) :
    IterOk (intsetBeginIterate s) ∧ (intsetBeginIterate s).iterRest = xs := by
  obtain hn | ⟨init, last, hl, hne⟩ := h.tree
  · have hnod : (intsetBeginIterate s).iterNode = none := hn.leftmost
    have hc := h.contents
    constructor
    · refine ⟨?_, ?_, .inl ⟨rfl, zero_le _⟩⟩
      · intro p hp
        simp [intsetBeginIterate, hn.leaves] at hp
      intro p hp
      rw [hnod] at hp
      cases hp
    · simp only [treeValues, items, hn.leaves] at hc
      simpa [iterRest, leafRest, intsetBeginIterate, hn.leftmost] using
        hc
  have hnod : (intsetBeginIterate s).iterNode = some 0 := hl.leftmost
  have hps : 0 < s.leaves.length := by simp [hl.leaves]
  constructor
  · refine ⟨fun p hp => hl.chained hp, ?_, .inl ⟨rfl, zero_le _⟩⟩
    intro p hp
    rw [hnod, Option.mem_some_iff] at hp
    exact hp ▸ hps
  have hd := leaves_drop hps
  rw [drop_zero] at hd
  have ht : s.treeValues = (s.leaf 0).items.flatMap values ++
      (s.leaves.drop 1).flatMap fun leaf => leaf.items.flatMap values := by
    rw [treeValues, ← flatMap_def, items, flatMap_assoc]
    nth_rewrite 1 [hd]
    rw [flatMap_cons]
  rw [← h.contents, ht]
  simp [iterRest, leafRest, intsetBeginIterate, hl.leftmost, leaf]

/-! ## The set as a whole -/

theorem length_eq_iff_range (hso : xs.Pairwise (· < ·)) (hlt : ∀ x ∈ xs, x < n) :
    xs.length = n ↔ xs = range n := by
  constructor
  · intro hl
    have hn : xs.Nodup := hso.imp fun h => h.ne
    have hs : xs ⊆ range n := fun x hx => mem_range.mpr (hlt x hx)
    have hp := (hn.subperm hs).perm_of_length_le (by rw [length_range, hl])
    exact hp.eq_of_pairwise (fun a b _ _ hab hba => absurd hab (lt_asymm hba)) hso
      pairwise_lt_range
  · intro heq
    rw [heq, length_range]

/-- **What a set that increasing values were added to answers.**  The counter is a `uint64`, so
it is the number of values unless these are all there are. -/
theorem integerset_contents (xs : List Nat) (hsorted : xs.Pairwise (· < ·))
    (hlt : ∀ x ∈ xs, x < 2 ^ 64) :
    ∃ s, intsetAddMembers intsetCreate xs = .ok s ∧
      (∀ x, intsetIsMember s x = true ↔ x ∈ xs) ∧
      (∃ s', iterateCalls (xs.length + 1) (intsetBeginIterate s) =
        some (xs.map some ++ [none], s')) ∧
      intsetNumEntries s = xs.length % 2 ^ 64 ∧
      (intsetNumEntries s = xs.length ↔ xs ≠ List.range (2 ^ 64)) := by
  obtain ⟨s, hs, hok, _⟩ := intsetAddMembers_ok (P := fun _ => True) intsetCreate_ok
    (fun _ _ => trivial) xs hsorted hlt fun _ _ _ _ => trivial
  obtain ⟨hi, hr⟩ := intsetBeginIterate_ok hok
  obtain ⟨s', hs', _⟩ := iterateCalls_rest hi hr
  refine ⟨s, hs, intsetIsMember_iff hok hsorted, ⟨s', hs'⟩, hok.numEntries, ?_⟩
  have hle := length_le_of_sorted hsorted hlt
  rw [intsetNumEntries, hok.numEntries, nil_append, Ne, ← length_eq_iff_range hsorted hlt]
  constructor
  · intro hm hl
    rw [hl, mod_self] at hm
    exact absurd hm (Nat.two_pow_pos 64).ne
  · intro hl
    exact mod_eq_of_lt (by omega)

theorem integerset_contents_sparse :
    ∃ s, intsetAddMembers intsetCreate [3, 5, 2 ^ 63 + 7] = .ok s ∧
      (∀ x, intsetIsMember s x = true ↔ x ∈ [3, 5, 2 ^ 63 + 7]) ∧ intsetNumEntries s = 3 := by
  obtain ⟨s, hs, hm, _, he, _⟩ := integerset_contents [3, 5, 2 ^ 63 + 7] (by decide) (by decide)
  exact ⟨s, hs, hm, he⟩

/-! ## All the values there are -/

theorem gaps_range' (base n : Nat) : gaps base (range' (base + 1) n) = List.replicate n 0 := by
  induction n generalizing base with
  | zero => rfl
  | succ n ih => simp [range'_succ, gaps, ih, replicate_succ]

theorem packedItems_range' {steps first : Nat} (hlt : first + n ≤ 2 ^ 64) :
    ∀ item ∈ (packedItems steps (range' first n)).1, item.values.length = maxValuesPerLeafItem := by
  induction steps generalizing first n with
  | zero => simp [packedItems]
  | succ steps ih =>
    rw [packedItems]
    split
    next hl =>
      rw [length_range'] at hl
      have hp : 0 < n := lt_of_lt_of_le (by decide) hl
      have hf : (range' first n).getD 0 0 = first := by
        rw [getD_eq_getElem _ _ (by simpa using hp)]
        simp
      have he : (simple8bEncode ((range' first n).drop 1)
          ((range' first n).getD 0 0)).2 = simple8bMaxValuesPerCodeword := by
        rw [hf, drop_range']
        refine simple8bEncode_consecutive ?_ ?_
        · rw [length_range']
          rw [maxValuesPerLeafItem] at hl
          omega
        intro j _
        rw [gaps_range', getD_eq_getElem?_getD, getElem?_getD_replicate_default_eq]
      have hsorted : (range' first n).Pairwise (· < ·) := pairwise_lt_range'
      have hb : ∀ x ∈ range' first n, x < 2 ^ 64 := by
        intro x hx
        have := mem_range'_1.mp hx
        omega
      have hv := values_of_encoded (by rwa [length_range']) hsorted hb
      intro item hi
      obtain rfl | hi := mem_cons.mp hi
      · rw [hv, he, length_take, length_range']
        exact min_eq_left hl
      rw [he, drop_range'] at hi
      rw [maxValuesPerLeafItem] at hl
      exact ih (by omega) item hi
    · simp

theorem packed_of_infix_range (hn : n ≤ 2 ^ 64) (values : List Nat) (h : values <:+: range n) :
    ∀ item ∈ (packedItems values.length values).1, item.values.length = maxValuesPerLeafItem := by
  obtain ⟨before, after, heq⟩ := h
  rw [range_eq_range', append_assoc] at heq
  obtain ⟨k, hk, _, hr⟩ := range'_eq_append_iff.mp heq.symm
  obtain ⟨m, hm, hv, _⟩ := range'_eq_append_iff.mp hr.symm
  rw [hv]
  exact packedItems_range' (by omega)

theorem addMembers_range (hn : n ≤ 2 ^ 64) :
    ∃ s, intsetAddMembers intsetCreate (range n) = .ok s ∧
      s.numLevels < maxTreeLevels ∧ s.numEntries = n % 2 ^ 64 := by
  have hlt : ∀ x ∈ range n, x < 2 ^ 64 := fun x hx => by
    have := mem_range.mp hx
    omega
  obtain ⟨s, hs, hok, hi⟩ := intsetAddMembers_ok
    (P := fun item => item.values.length = maxValuesPerLeafItem) intsetCreate_ok
    (by simp [items, intsetCreate]) (range n) pairwise_lt_range hlt
    (packed_of_infix_range hn)
  have he := hok.numEntries
  rw [nil_append, length_range] at he
  refine ⟨s, hs, ?_, he⟩
  obtain hnn | ht := hok.tree
  · rw [hnn.numLevels]
    decide
  obtain ⟨init, last, hl, _⟩ := id ht
  have hlv := length_leaves_le hl
  have hv : s.treeValues.length = s.items.length * maxValuesPerLeafItem := by
    rw [treeValues, length_flatten_map hi]
  have htt : s.treeValues.length ≤ n := by
    have hln := congrArg length hok.contents
    rw [length_append, nil_append, length_range] at hln
    omega
  have hf : s.leaves.length ≤ maxInternalItems ^ 9 := by
    simp only [maxLeafItems, maxValuesPerLeafItem, simple8bMaxValuesPerCodeword,
      maxInternalItems] at *
    omega
  exact (ht.numLevels_le hf).trans_lt (by decide)

/-- **All values can be added, in a tree of fewer levels than there may be, and the counter
is then zero.** -/
theorem integerset_count_wraps :
    (List.range (2 ^ 64)).Pairwise (· < ·) ∧ (∀ x ∈ List.range (2 ^ 64), x < 2 ^ 64) ∧
      ∃ s, intsetAddMembers intsetCreate (List.range (2 ^ 64)) = .ok s ∧
        s.numLevels < maxTreeLevels ∧ intsetNumEntries s ≠ (List.range (2 ^ 64)).length := by
  refine ⟨pairwise_lt_range, fun x hx => mem_range.mp hx, ?_⟩
  obtain ⟨s, hs, hl, he⟩ := addMembers_range (le_refl (2 ^ 64))
  refine ⟨s, hs, hl, ?_⟩
  rw [intsetNumEntries, he, length_range, mod_self]
  exact (Nat.two_pow_pos 64).ne

end AthenaPG
