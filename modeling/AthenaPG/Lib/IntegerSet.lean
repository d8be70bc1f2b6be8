import AthenaPG.Lib.Simple8b
import AthenaPG.Library.Bisection
import AthenaPG.Library.SortedGroups

/-!
The integer set (`src/backend/lib/integerset.c`).

Values are appended to a buffer, and from time to time packed into the items of a B-tree
that only grows at its right edge.  The nodes of each level are kept in the order in which
they were allocated; a pointer is a level and an index.

* `intsetUpdateUpper_ok`: a new node is linked into the levels above it.
* `flushLoop_ok`: packing keeps the tree linked and the contents.
* `intsetAddMember_ok`: adding a value adds it to the contents.
-/

namespace AthenaPG
open List SortedGroups Function
open Function (update)

/-! ## The code -/

def maxInternalItems : Nat := 64

def maxLeafItems : Nat := 64

def maxTreeLevels : Nat := 11

def maxValuesPerLeafItem : Nat := 1 + simple8bMaxValuesPerCodeword

def maxBufferedValues : Nat := maxValuesPerLeafItem * 2

/-- `intset_node *`: a node by its `level` and the order of allocation there. -/
structure NodePtr where
  level : Nat
  index : Nat
  deriving DecidableEq

/-- `intset_internal_node`; `num_items` is the length of the arrays. -/
structure IntsetInternalNode where
  values : List Nat
  downlinks : List NodePtr
  deriving DecidableEq

open IntsetInternalNode

structure LeafItem where
  first : Nat
  codeword : Nat
  deriving DecidableEq

structure IntsetLeafNode where
  items : List LeafItem
  next : Option Nat
  deriving DecidableEq

/-- What `iter_values` points to. -/
inductive IterValues where
  | null
  | iterValuesBuf
  | bufferedValues
  deriving DecidableEq

structure IntegerSet where
  numEntries : Nat
  highestValue : Nat
  /-- the nodes that were allocated with level 0 -/
  leaves : List IntsetLeafNode
  /-- the nodes that were allocated with each level above -/
  internals : Nat → List IntsetInternalNode
  numLevels : Nat
  root : Option NodePtr
  rightmostNodes : Nat → Option NodePtr
  leftmostLeaf : Option Nat
  bufferedValues : List Nat
  iterActive : Bool
  iterValues : IterValues
  iterNumValues : Nat
  iterValueno : Nat
  iterNode : Option Nat
  iterItemno : Nat
  iterValuesBuf : List Nat

open IntegerSet

inductive IntsetError where
  | elog (message : String)
  | nullPointer
  deriving DecidableEq

def intsetCreate : IntegerSet where
  numEntries := 0
  highestValue := 0
  leaves := []
  internals := fun _ => []
  numLevels := 0
  root := none
  rightmostNodes := fun _ => none
  leftmostLeaf := none
  bufferedValues := []
  iterActive := false
  iterValues := .null
  iterNumValues := 0
  iterValueno := 0
  iterNode := none
  iterItemno := 0
  iterValuesBuf := []

namespace IntegerSet

variable (s : IntegerSet)

def leaf (p : Nat) : IntsetLeafNode := s.leaves.getD p ⟨[], none⟩

def internalNode (p : NodePtr) : IntsetInternalNode := (s.internals p.level).getD p.index ⟨[], []⟩

/-- The first value on a page, `items[0].first` or `values[0]`. -/
def firstValue (p : NodePtr) : Nat :=
  if p.level = 0 then ((s.leaf p.index).items.headD ⟨0, 0⟩).first
  else (s.internalNode p).values.headD 0

/-- A new internal node, which becomes the rightmost one of its level. -/
def newRightmost (level : Nat) (node : IntsetInternalNode) : IntegerSet :=
  { s with
    internals := update s.internals level (s.internals level ++ [node])
    rightmostNodes := update s.rightmostNodes level (some ⟨level, (s.internals level).length⟩) }

/-- The first part of `intset_update_upper`: create a new root node. -/
def newRoot (level : Nat) : Except IntsetError IntegerSet := match s.root with
  | none => .error .nullPointer
  | some oldroot =>
    if s.numLevels = maxTreeLevels then
      .error (.elog "could not expand integer set, maximum number of levels reached")
    else
      .ok { s.newRightmost level ⟨[s.firstValue oldroot], [oldroot]⟩ with
        numLevels := s.numLevels + 1
        root := some ⟨level, (s.internals level).length⟩ }

def newRightmostLeaf (oldLeaf : Nat) : IntegerSet :=
  { s with
    leaves := s.leaves.set oldLeaf { s.leaf oldLeaf with next := some s.leaves.length } ++
      [⟨[], none⟩]
    rightmostNodes := update s.rightmostNodes 0 (some ⟨0, s.leaves.length⟩) }

/-- `leaf->items[leaf->num_items++] = item`. -/
def addItem (p : Nat) (item : LeafItem) : IntegerSet :=
  { s with leaves := s.leaves.set p { s.leaf p with items := (s.leaf p).items ++ [item] } }

end IntegerSet

/-- `intset_update_upper`; it recurses only to levels that there can be. -/
def intsetUpdateUpper :
    Nat → IntegerSet → Nat → NodePtr → Nat → Except IntsetError IntegerSet
  | 0, _, _, _, _ =>
    .error (.elog "could not expand integer set, maximum number of levels reached")
  | steps + 1, s, level, child, childKey => do
    let s ← if level ≥ s.numLevels then s.newRoot level else .ok s
    match s.rightmostNodes level with
    | none => .error .nullPointer
    | some p =>
      let parent := s.internalNode p
      if parent.values.length < maxInternalItems then
        .ok { s with
          internals := update s.internals p.level
            ((s.internals p.level).set p.index
              ⟨parent.values ++ [childKey], parent.downlinks ++ [child]⟩) }
      else
        -- doesn't fit: a new parent, which the level above has to link
        intsetUpdateUpper steps (s.newRightmost level ⟨[childKey], [child]⟩) (level + 1)
          ⟨level, (s.internals level).length⟩ childKey

/-- The part of the packing loop that allocates a new leaf if the old one is full. -/
def leafWithRoom (s : IntegerSet) (leaf first : Nat) : Except IntsetError (IntegerSet × Nat) :=
  if (s.leaf leaf).items.length ≥ maxLeafItems then do
    let s' ← intsetUpdateUpper maxTreeLevels (s.newRightmostLeaf leaf) 1 ⟨0, s.leaves.length⟩ first
    .ok (s', s.leaves.length)
  else .ok (s, leaf)

/-- The packing loop of `intset_flush_buffered_values`; `values` are those not packed yet, and
each step packs at least one. -/
def flushLoop :
    Nat → IntegerSet → Nat → List Nat → Except IntsetError (IntegerSet × List Nat)
  | 0, s, _, values => .ok (s, values)
  | steps + 1, s, leaf, values =>
    if values.length ≥ maxValuesPerLeafItem then do
      let first := values.getD 0 0
      let (codeword, numEncoded) := simple8bEncode (values.drop 1) first
      let (s, leaf) ← leafWithRoom s leaf first
      flushLoop steps (s.addItem leaf ⟨first, codeword⟩) leaf (values.drop (1 + numEncoded))
    else .ok (s, values)

def firstLeaf (s : IntegerSet) : IntegerSet :=
  { s with
    leaves := s.leaves ++ [⟨[], none⟩]
    root := some ⟨0, s.leaves.length⟩
    leftmostLeaf := some s.leaves.length
    rightmostNodes := update s.rightmostNodes 0 (some ⟨0, s.leaves.length⟩)
    numLevels := 1 }

def intsetFlushBufferedValues (s : IntegerSet) : Except IntsetError IntegerSet := do
  let (s, leaf) := match s.rightmostNodes 0 with
    | some p => (s, p.index)
    | none => (firstLeaf s, s.leaves.length)
  let (s, rest) ← flushLoop s.bufferedValues.length s leaf s.bufferedValues
  .ok { s with bufferedValues := rest }

def intsetAddMember (s : IntegerSet) (x : Nat) : Except IntsetError IntegerSet :=
  if s.iterActive then
    .error (.elog "cannot add new values to integer set while iteration is in progress")
  else if x ≤ s.highestValue ∧ s.numEntries > 0 then
    .error (.elog "cannot add value to integer set out of order")
  else do
    let s ← if s.bufferedValues.length ≥ maxBufferedValues then intsetFlushBufferedValues s
      else .ok s
    .ok { s with
      bufferedValues := s.bufferedValues ++ [x]
      numEntries := (s.numEntries + 1) % 2 ^ 64
      highestValue := x }

def intsetNumEntries (s : IntegerSet) : Nat := s.numEntries

def intsetBinsrch (item : Nat) (key : Nat → Nat) (arrElems : Nat) (nextkey : Bool) : Nat :=
  Bisection.partitionPoint
    (fun mid => if nextkey then decide (item ≥ key mid) else decide (item > key mid))
    arrElems 0 arrElems

def intsetBinsrchUint64 (item : Nat) (arr : List Nat) (nextkey : Bool) : Nat :=
  intsetBinsrch item (fun mid => arr.getD mid 0) arr.length nextkey

def intsetBinsrchLeaf (item : Nat) (arr : List LeafItem) (nextkey : Bool) : Nat :=
  intsetBinsrch item (fun mid => (arr.getD mid ⟨0, 0⟩).first) arr.length nextkey

/-- The loop of `intset_is_member` that walks down to a leaf. -/
def descend (s : IntegerSet) (x : Nat) : Nat → NodePtr → Option NodePtr
  | 0, node => some node
  | level + 1, node =>
    let n := s.internalNode node
    let itemno := intsetBinsrchUint64 x n.values true
    if itemno = 0 then none else descend s x level (n.downlinks.getD (itemno - 1) ⟨0, 0⟩)

def intsetIsMember (s : IntegerSet) (x : Nat) : Bool :=
  if s.bufferedValues.length > 0 ∧ x ≥ s.bufferedValues.getD 0 0 then
    let itemno := intsetBinsrchUint64 x s.bufferedValues false
    if itemno ≥ s.bufferedValues.length then false
    else decide (s.bufferedValues.getD itemno 0 = x)
  else
    match s.root with
    | none => false
    | some root =>
      match descend s x (s.numLevels - 1) root with
      | none => false
      | some node =>
        let items := (s.leaf node.index).items
        let itemno := intsetBinsrchLeaf x items true
        if itemno = 0 then false
        else
          let item := items.getD (itemno - 1) ⟨0, 0⟩
          if item.first = x then true else simple8bContains item.codeword x item.first

def intsetBeginIterate (s : IntegerSet) : IntegerSet :=
  { s with
    iterActive := true
    iterNode := s.leftmostLeaf
    iterItemno := 0
    iterValueno := 0
    iterNumValues := 0
    iterValues := .iterValuesBuf }

/-- `iter_values[i]`. -/
def IntegerSet.iterValue (s : IntegerSet) (i : Nat) : Nat := match s.iterValues with
  | .null => 0
  | .iterValuesBuf => s.iterValuesBuf.getD i 0
  | .bufferedValues => s.bufferedValues.getD i 0

namespace IntegerSet

def decodeItem (s : IntegerSet) (p : Nat) : IntegerSet :=
  let item := (s.leaf p).items.getD s.iterItemno ⟨0, 0⟩
  let decoded := simple8bDecode item.codeword item.first
  { s with
    iterItemno := s.iterItemno + 1
    iterValuesBuf := item.first :: decoded
    iterNumValues := decoded.length + 1
    iterValueno := 0 }

def nextLeaf (s : IntegerSet) (p : Nat) : IntegerSet :=
  { s with iterNode := (s.leaf p).next, iterItemno := 0 }

def toBuffer (s : IntegerSet) : IntegerSet :=
  { s with
    iterValues := .bufferedValues
    iterNumValues := s.bufferedValues.length
    iterValueno := 0 }

end IntegerSet

/-- The loop of `intset_iterate_next`: the value or the end, and the set afterwards. -/
def iterateLoop : Nat → IntegerSet → Option (Option Nat × IntegerSet)
  | 0, _ => none
  | steps + 1, s =>
    if s.iterValueno < s.iterNumValues then
      some (some (s.iterValue s.iterValueno), { s with iterValueno := s.iterValueno + 1 })
    else
      match s.iterNode with
      | some p =>
        if s.iterItemno < (s.leaf p).items.length then iterateLoop steps (s.decodeItem p)
        else iterateLoop steps (s.nextLeaf p)
      | none =>
        if s.iterValues = .iterValuesBuf then iterateLoop steps s.toBuffer
        else some (none, { s with iterActive := false })

/-- The rounds of that loop are bounded by the items and leaves of the tree. -/
def iterateSteps (s : IntegerSet) : Nat := (s.leaves.map fun leaf => leaf.items.length + 1).sum + 2

def intsetIterateNext (s : IntegerSet) : Option (Option Nat × IntegerSet) :=
  iterateLoop (iterateSteps s) s

/-! ## The levels above the leaves -/

/-- The nodes of level `lower + 1` hold the low keys and the pointers of the level below,
in order; all of them but the last are full. -/
structure LinkedLevel (lower : Nat) (below : List Nat) (nodes : List IntsetInternalNode) :
    Prop where
  keys : (nodes.map values).flatten = below
  links : (nodes.map downlinks).flatten = (List.range below.length).map (NodePtr.mk lower)
  paired : ∀ n ∈ nodes, n.downlinks.length = n.values.length
  nonempty : ∀ n ∈ nodes, n.values ≠ []
  room : ∀ n ∈ nodes, n.values.length ≤ maxInternalItems
  full : ∀ n ∈ nodes.dropLast, n.values.length = maxInternalItems

def lowKeys (nodes : List IntsetInternalNode) : List Nat := SortedGroups.heads 0 (nodes.map values)

theorem length_lowKeys (nodes : List IntsetInternalNode) :
    (lowKeys nodes).length = nodes.length := by
  simp [lowKeys, heads]

/-- The `height` levels above `lower`, whose low keys are given, up to the root. -/
def LinkedUpper (internals : Nat → List IntsetInternalNode) : Nat → Nat → List Nat → Prop
  | 0, _, below => below.length = 1
  | height + 1, lower, below =>
    2 ≤ below.length ∧ LinkedLevel lower below (internals (lower + 1)) ∧
      LinkedUpper internals height (lower + 1) (lowKeys (internals (lower + 1)))

variable {height lo : Nat} {bl : List Nat} {nodes : List IntsetInternalNode}
  {s s' : IntegerSet} {ss key : Nat} {init : List IntsetLeafNode} {last : IntsetLeafNode}
  {xs : List Nat}

theorem LinkedUpper.congr {internals internals' : Nat → List IntsetInternalNode}
    (h : LinkedUpper internals height lo bl) (heq : ∀ lv, lo < lv → internals' lv = internals lv) :
    LinkedUpper internals' height lo bl := by
  induction height generalizing lo bl with
  | zero => exact h
  | succ height ih =>
    obtain ⟨ht, hl, hu⟩ := h
    rw [LinkedUpper, heq (lo + 1) (by omega)]
    exact ⟨ht, hl, ih hu fun lv hl => heq lv (by omega)⟩

theorem LinkedLevel.push (key : Nat) {init : List IntsetInternalNode} {last : IntsetInternalNode}
    (h : LinkedLevel lo bl (init ++ [last])) (hr : last.values.length < maxInternalItems) :
    LinkedLevel lo (bl ++ [key])
      (init ++ [⟨last.values ++ [key], last.downlinks ++ [⟨lo, bl.length⟩]⟩]) where
  keys := by
    rw [← h.keys]
    simp
  links := by
    have hl := h.links
    simp only [map_append, map_cons, map_nil, flatten_append,
      flatten_cons, flatten_nil, append_nil] at hl ⊢
    rw [← append_assoc, hl, length_append, length_singleton, range_succ, map_append]
    rfl
  paired := by
    obtain ⟨hi, hls⟩ := forall_mem_append.mp h.paired
    exact forall_mem_append.mpr ⟨hi, by simp [forall_mem_singleton.mp hls]⟩
  nonempty := forall_mem_append.mpr ⟨(forall_mem_append.mp h.nonempty).1, by simp⟩
  room := forall_mem_append.mpr ⟨(forall_mem_append.mp h.room).1, by simpa using hr⟩
  full := by
    have hf := h.full
    rw [dropLast_concat] at hf ⊢
    exact hf

theorem LinkedLevel.grow (key : Nat) (h : LinkedLevel lo bl nodes)
    (hf : ∀ n ∈ nodes, n.values.length = maxInternalItems) :
    LinkedLevel lo (bl ++ [key]) (nodes ++ [⟨[key], [⟨lo, bl.length⟩]⟩]) where
  keys := by
    rw [← h.keys]
    simp
  links := by
    rw [map_append, flatten_append, h.links, length_append, length_singleton,
      range_succ, map_append]
    rfl
  paired := forall_mem_append.mpr ⟨h.paired, by simp⟩
  nonempty := forall_mem_append.mpr ⟨h.nonempty, by simp⟩
  room := forall_mem_append.mpr ⟨h.room, by simp [maxInternalItems]⟩
  full := by
    rw [dropLast_concat]
    exact hf

theorem length_flatten_map {α β : Type} {f : α → List β} {l : List α} {n : Nat}
    (h : ∀ x ∈ l, (f x).length = n) : (l.map f).flatten.length = l.length * n := by
  rw [length_flatten, map_map, sum_eq_card_nsmul _ n (by simpa using h), length_map, smul_eq_mul]

theorem LinkedLevel.length_of_full (h : LinkedLevel lo bl nodes)
    (hf : ∀ n ∈ nodes, n.values.length = maxInternalItems) :
    bl.length = maxInternalItems * nodes.length := by
  rw [← h.keys, length_flatten_map hf, mul_comm]

/-- The levels above `lower` and the pointers into them. -/
structure UpperOk (s : IntegerSet) (lower : Nat) (below : List Nat) : Prop where
  levels : lower < s.numLevels
  linked : LinkedUpper s.internals (s.numLevels - 1 - lower) lower below
  above : ∀ level, s.numLevels ≤ level → s.internals level = []
  rightmost : ∀ level, lower < level → level < s.numLevels →
    s.rightmostNodes level = some ⟨level, (s.internals level).length - 1⟩
  root : s.root = some ⟨s.numLevels - 1, 0⟩

theorem UpperOk.top (h : UpperOk s lo bl) (ht : s.numLevels = lo + 1) : bl.length = 1 := by
  have hl := h.linked
  rwa [ht, show lo + 1 - 1 - lo = 0 by omega] at hl

theorem UpperOk.step (h : UpperOk s lo bl) (hlv : lo + 1 < s.numLevels) :
    2 ≤ bl.length ∧ LinkedLevel lo bl (s.internals (lo + 1)) ∧
      UpperOk s (lo + 1) (lowKeys (s.internals (lo + 1))) := by
  have hln := h.linked
  rw [show s.numLevels - 1 - lo = (s.numLevels - 1 - (lo + 1)) + 1 by omega] at hln
  obtain ⟨ht, hle, hu⟩ := hln
  exact ⟨ht, hle, hlv, hu, h.above, fun lv hl => h.rightmost lv (by omega), h.root⟩

theorem UpperOk.of_step (ht : 2 ≤ bl.length) (hlv : LinkedLevel lo bl (s.internals (lo + 1)))
    (hr : s.rightmostNodes (lo + 1) = some ⟨lo + 1, (s.internals (lo + 1)).length - 1⟩)
    (hu : UpperOk s (lo + 1) (lowKeys (s.internals (lo + 1)))) :
    UpperOk s lo bl where
  levels := by
    have := hu.levels
    omega
  linked := by
    have := hu.levels
    rw [show s.numLevels - 1 - lo = (s.numLevels - 1 - (lo + 1)) + 1 by omega]
    exact ⟨ht, hlv, hu.linked⟩
  above := hu.above
  rightmost := by
    intro lv hl hlt
    by_cases heq : lv = lo + 1
    · rw [heq, hr]
    · exact hu.rightmost lv (by omega) hlt
  root := hu.root

theorem UpperOk.congr (h : UpperOk s lo bl) (hn : s'.numLevels = s.numLevels)
    (hrt : s'.root = s.root) (hi : ∀ lv, lo < lv → s'.internals lv = s.internals lv)
    (hr : ∀ lv, lo < lv → s'.rightmostNodes lv = s.rightmostNodes lv) :
    UpperOk s' lo bl where
  levels := by
    rw [hn]
    exact h.levels
  linked := by
    rw [hn]
    exact h.linked.congr hi
  above := by
    intro lv hl
    have := h.levels
    rw [hi lv (by omega)]
    exact h.above lv (by omega)
  rightmost := by
    intro lv hl hlt
    rw [hr lv hl, hi lv hl]
    exact h.rightmost lv hl (by omega)
  root := by
    rw [hrt, hn]
    exact h.root

/-- Nothing but the upper levels differs. -/
def OnlyUpper (s s' : IntegerSet) : Prop :=
  s' = { s with
    numLevels := s'.numLevels
    internals := s'.internals
    root := s'.root
    rightmostNodes := s'.rightmostNodes }

theorem OnlyUpper.trans {s'' : IntegerSet} (h : OnlyUpper s s') (h' : OnlyUpper s' s'') :
    OnlyUpper s s'' := by
  rw [OnlyUpper] at *
  rw [h']
  rw [h]

theorem OnlyUpper.leaves (h : OnlyUpper s s') : s'.leaves = s.leaves :=
  (congrArg IntegerSet.leaves h :)

theorem OnlyUpper.leftmostLeaf (h : OnlyUpper s s') : s'.leftmostLeaf = s.leftmostLeaf :=
  (congrArg IntegerSet.leftmostLeaf h :)

/-- What linking a new node of level `lower` gives. -/
structure UpdatedUpper (s s' : IntegerSet) (lower : Nat) (below : List Nat) : Prop where
  upper : UpperOk s' lower below
  only : OnlyUpper s s'
  internals : ∀ level ≤ lower, s'.internals level = s.internals level
  rightmost : ∀ level ≤ lower, s'.rightmostNodes level = s.rightmostNodes level

section

variable (h : UpperOk s lo bl)
include h

theorem updateUpper_root (ht : s.numLevels = lo + 1)
    (hf : s.firstValue ⟨lo, 0⟩ = bl.getD 0 0) (hlv : s.numLevels < maxTreeLevels) :
    ∃ s', intsetUpdateUpper (ss + 1) s (lo + 1) ⟨lo, bl.length⟩ key = .ok s' ∧
      UpdatedUpper s s' lo (bl ++ [key]) := by
  have ho := h.top ht
  obtain ⟨low, rfl⟩ := length_eq_one_iff.mp ho
  have hr : s.root = some ⟨lo, 0⟩ := by rw [h.root, ht]; rfl
  have hn : s.internals (lo + 1) = [] := h.above _ (by omega)
  have hnw : s.newRoot (lo + 1) = .ok { s.newRightmost (lo + 1) ⟨[low], [⟨lo, 0⟩]⟩ with
      numLevels := s.numLevels + 1
      root := some ⟨lo + 1, 0⟩ } := by
    rw [newRoot, hr]
    simp only [if_neg hlv.ne, hf, hn]
    rfl
  refine ⟨{ s with
    numLevels := s.numLevels + 1
    root := some ⟨lo + 1, 0⟩
    internals := update s.internals (lo + 1) [⟨[low, key], [⟨lo, 0⟩, ⟨lo, 1⟩]⟩]
    rightmostNodes := update s.rightmostNodes (lo + 1) (some ⟨lo + 1, 0⟩) },
    ?_, ?_⟩
  · rw [intsetUpdateUpper, if_pos (by omega), hnw]
    simp [newRightmost, internalNode, hn, bind, Except.bind, maxInternalItems]
  refine ⟨?_, rfl, ?_, ?_⟩
  · refine UpperOk.of_step (by simp) ?_ (by simp) ?_
    · have hle : LinkedLevel lo [low] ([] ++ [⟨[low], [⟨lo, 0⟩]⟩]) :=
        ⟨rfl, rfl, by simp, by simp, by simp [maxInternalItems], by simp⟩
      simpa using hle.push key (by simp [maxInternalItems])
    constructor
    case levels => exact ht ▸ Nat.lt_succ_self _
    case linked =>
      simp only [ht, show lo + 1 + 1 - 1 - (lo + 1) = 0 by omega, LinkedUpper]
      simp [length_lowKeys]
    case above =>
      intro lv hl
      have hne : lv ≠ lo + 1 := by
        rintro rfl
        simp [ht] at hl
      simp only [update_of_ne hne] at hl ⊢
      exact h.above lv (by omega)
    case rightmost =>
      intro lv hl hlt
      simp only [ht] at hlt
      omega
    case root => simp [ht]
  · intro lv hl
    exact update_of_ne (by omega) _ _
  intro lv hl
  exact update_of_ne (by omega) _ _

theorem updateUpper_push (hle : lo + 1 < s.numLevels)
    {init : List IntsetInternalNode} {last : IntsetInternalNode}
    (hn : s.internals (lo + 1) = init ++ [last]) (hrm : last.values.length < maxInternalItems) :
    ∃ s', intsetUpdateUpper (ss + 1) s (lo + 1) ⟨lo, bl.length⟩ key = .ok s' ∧
      UpdatedUpper s s' lo (bl ++ [key]) := by
  obtain ⟨ht, hlv, hu⟩ := h.step hle
  have hr : s.rightmostNodes (lo + 1) = some ⟨lo + 1, init.length⟩ := by
    rw [h.rightmost _ (by omega) hle, hn]
    simp
  have hp : s.internalNode ⟨lo + 1, init.length⟩ = last := by simp [internalNode, hn]
  rw [hn] at hlv
  have hps := hlv.push key hrm
  refine ⟨{ s with
    internals := update s.internals (lo + 1)
      (init ++ [⟨last.values ++ [key], last.downlinks ++ [⟨lo, bl.length⟩]⟩]) }, ?_, ?_⟩
  · rw [intsetUpdateUpper, if_neg (by omega)]
    simp [hr, hp, hrm, hn, bind, Except.bind]
  refine ⟨?_, rfl, fun lv hl => update_of_ne (by omega) _ _, fun _ _ => rfl⟩
  have hlw : lowKeys (init ++ [⟨last.values ++ [key], last.downlinks ++ [⟨lo, bl.length⟩]⟩])
      = lowKeys (s.internals (lo + 1)) := by
    obtain ⟨first, rest, hv⟩ := exists_cons_of_ne_nil (hlv.nonempty last (by simp))
    rw [hn]
    simp [lowKeys, heads, hv]
  refine UpperOk.of_step (by simp; omega) (by simpa using hps) (by simp [hr]) ?_
  simp only [update_self, hlw]
  exact hu.congr rfl rfl (fun lv hl => update_of_ne (by omega) _ _) fun _ _ => rfl

theorem UpperOk.pos : 0 < bl.length := by
  obtain hl | hl := lt_or_ge (lo + 1) s.numLevels
  · have := (h.step hl).1
    omega
  have := h.top (by have := h.levels; omega)
  omega

end

theorem LinkedLevel.ne_nil (h : LinkedLevel lo bl nodes) (hp : 0 < bl.length) : nodes ≠ [] := by
  rintro rfl
  rw [← h.keys] at hp
  simp at hp

theorem updateUpper_grow (h : UpperOk s lo bl) (hlv : lo + 1 < s.numLevels)
    (hf : ∀ n ∈ s.internals (lo + 1), n.values.length = maxInternalItems)
    (hrc : ∃ s', intsetUpdateUpper ss
        (s.newRightmost (lo + 1) ⟨[key], [⟨lo, bl.length⟩]⟩) (lo + 2)
        ⟨lo + 1, (lowKeys (s.internals (lo + 1))).length⟩ key = .ok s' ∧
      UpdatedUpper (s.newRightmost (lo + 1) ⟨[key], [⟨lo, bl.length⟩]⟩) s' (lo + 1)
        (lowKeys (s.internals (lo + 1)) ++ [key])) :
    ∃ s', intsetUpdateUpper (ss + 1) s (lo + 1) ⟨lo, bl.length⟩ key = .ok s' ∧
      UpdatedUpper s s' lo (bl ++ [key]) := by
  obtain ⟨ht, hle, _⟩ := h.step hlv
  obtain ⟨init, last, hn⟩ := (eq_nil_or_concat' _).resolve_left
    (hle.ne_nil (by omega))
  have hrg : s.rightmostNodes (lo + 1) = some ⟨lo + 1, init.length⟩ := by
    rw [h.rightmost _ (by omega) hlv, hn]
    simp
  have hp : s.internalNode ⟨lo + 1, init.length⟩ = last := by simp [internalNode, hn]
  have hls : ¬ last.values.length < maxInternalItems := by
    rw [hf last (by simp [hn])]
    omega
  obtain ⟨s', hs', hu⟩ := hrc
  refine ⟨s', ?_, ?_⟩
  · rw [length_lowKeys] at hs'
    rw [intsetUpdateUpper, if_neg (by omega)]
    simp [hrg, hp, hls, bind, Except.bind, hs']
  have hi : s'.internals (lo + 1) = s.internals (lo + 1) ++ [⟨[key], [⟨lo, bl.length⟩]⟩] := by
    rw [hu.internals _ (le_refl _)]
    simp [newRightmost]
  have hr : s'.rightmostNodes (lo + 1) = some ⟨lo + 1, (s.internals (lo + 1)).length⟩ := by
    rw [hu.rightmost _ (le_refl _)]
    simp [newRightmost]
  constructor
  case upper =>
    refine UpperOk.of_step (by simp; omega) ?_ ?_ ?_
    · rw [hi]
      exact hle.grow key hf
    · rw [hr, hi]
      simp
    have hlw : lowKeys (s'.internals (lo + 1)) = lowKeys (s.internals (lo + 1)) ++ [key] := by
      rw [hi]
      simp [lowKeys, heads]
    rw [hlw]
    exact hu.upper
  case only =>
    have hnw : OnlyUpper s (s.newRightmost (lo + 1) ⟨[key], [⟨lo, bl.length⟩]⟩) := rfl
    exact hnw.trans hu.only
  case internals =>
    intro lv hl
    rw [hu.internals lv (by omega)]
    exact update_of_ne (by omega) _ _
  case rightmost =>
    intro lv hl
    rw [hu.rightmost lv (by omega)]
    exact update_of_ne (by omega) _ _

/-- **A new node is linked into the levels above it**, with new nodes there as needed. -/
theorem intsetUpdateUpper_ok (ss key : Nat) (h : UpperOk s lo bl)
    (hs : maxTreeLevels ≤ ss + lo)
    (hfr : s.numLevels = lo + 1 → s.firstValue ⟨lo, 0⟩ = bl.getD 0 0)
    (hb : bl.length < maxInternalItems ^ (maxTreeLevels - 1 - lo)) :
    ∃ s', intsetUpdateUpper ss s (lo + 1) ⟨lo, bl.length⟩ key = .ok s' ∧
      UpdatedUpper s s' lo (bl ++ [key]) := by
  have hp := h.pos
  -- so many nodes need a level above them only if there can be one
  have hlw : lo + 1 < maxTreeLevels := by
    by_contra hge
    rw [show maxTreeLevels - 1 - lo = 0 by omega, pow_zero] at hb
    omega
  induction ss generalizing lo s bl with
  | zero => omega
  | succ ss ih =>
    obtain hlev | ht := lt_or_eq_of_le (Nat.succ_le_of_lt h.levels)
    · obtain ⟨htw, hlv, hu⟩ := h.step hlev
      obtain ⟨init, last, hnd⟩ := (eq_nil_or_concat' _).resolve_left
        (hlv.ne_nil (by omega))
      by_cases hr : last.values.length < maxInternalItems
      · exact updateUpper_push h hlev hnd hr
      have hf : ∀ n ∈ s.internals (lo + 1), n.values.length = maxInternalItems := by
        have hi := hlv.full
        have hle := hlv.room last (by simp [hnd])
        rw [hnd, dropLast_concat] at hi
        rw [hnd]
        exact forall_mem_append.mpr ⟨hi, forall_mem_singleton.mpr (by omega)⟩
      have hln := hlv.length_of_full hf
      have hb' : (lowKeys (s.internals (lo + 1))).length <
          maxInternalItems ^ (maxTreeLevels - 1 - (lo + 1)) := by
        rw [length_lowKeys]
        rw [hln, show maxTreeLevels - 1 - lo = maxTreeLevels - 1 - (lo + 1) + 1 by omega,
          pow_succ, mul_comm] at hb
        exact Nat.lt_of_mul_lt_mul_right hb
      refine updateUpper_grow h hlev hf (ih ?_ (by omega) ?_ hb' hu.pos ?_)
      · exact hu.congr rfl rfl (fun lv hl => update_of_ne (by omega) _ _)
          fun lv hl => update_of_ne (by omega) _ _
      · intro _
        obtain ⟨first, others, hc⟩ := exists_cons_of_ne_nil
          (hlv.ne_nil (by omega))
        simp [firstValue, internalNode, newRightmost, lowKeys, heads, hc]
      by_contra hge
      rw [show maxTreeLevels - 1 - (lo + 1) = 0 by omega, pow_zero] at hb'
      have := hu.pos
      omega
    exact updateUpper_root h ht.symm (hfr ht.symm) (by omega)

/-! ## The leaves -/

def leafKeys (leaves : List IntsetLeafNode) : List Nat :=
  SortedGroups.heads 0 (leaves.map fun leaf => leaf.items.map LeafItem.first)

theorem length_leafKeys (leaves : List IntsetLeafNode) :
    (leafKeys leaves).length = leaves.length := by
  simp [leafKeys, heads]

/-- All leaves but the last are full, and each points to the one behind it; the levels above
link them. -/
structure LinkedLeaves (s : IntegerSet) (init : List IntsetLeafNode) (last : IntsetLeafNode) :
    Prop where
  leaves : s.leaves = init ++ [last]
  full : ∀ leaf ∈ init, leaf.items.length = maxLeafItems
  room : last.items.length ≤ maxLeafItems
  nexts : init.map IntsetLeafNode.next = (List.range init.length).map fun p => some (p + 1)
  lastNext : last.next = none
  leftmost : s.leftmostLeaf = some 0
  rightmost : s.rightmostNodes 0 = some ⟨0, init.length⟩
  upper : UpperOk s 0 (leafKeys s.leaves)

/-- A tree with items in all its leaves. -/
def TreeOk (s : IntegerSet) : Prop := ∃ init last, LinkedLeaves s init last ∧ last.items ≠ []

def IntegerSet.items (s : IntegerSet) : List LeafItem := s.leaves.flatMap IntsetLeafNode.items

def OnlyTree (s s' : IntegerSet) : Prop :=
  s' = { s with
    leaves := s'.leaves
    numLevels := s'.numLevels
    internals := s'.internals
    root := s'.root
    rightmostNodes := s'.rightmostNodes }

theorem OnlyTree.trans {s'' : IntegerSet} (h : OnlyTree s s') (h' : OnlyTree s' s'') :
    OnlyTree s s'' := by
  rw [OnlyTree] at *
  rw [h']
  rw [h]

theorem UpperOk.single {s : IntegerSet} {lo : Nat} {bl bl' : List Nat}
    (h : UpperOk s lo bl) (ho : bl.length = 1) (ho' : bl'.length = 1) : UpperOk s lo bl' := by
  have hl := h.levels
  have ht : s.numLevels = lo + 1 := by
    by_contra hne
    have := (h.step (by omega)).1
    omega
  refine ⟨h.levels, ?_, h.above, h.rightmost, h.root⟩
  rw [ht, show lo + 1 - 1 - lo = 0 by omega]
  exact ho'

section

variable (h : LinkedLeaves s init last)
include h

theorem addItem_push (he : last.items = [] → init = [])
    (hr : last.items.length < maxLeafItems) (item : LeafItem) :
    LinkedLeaves (s.addItem init.length item) init { last with items := last.items ++ [item] } := by
  have hlf : s.leaf init.length = last := by simp [leaf, h.leaves]
  have hl : (s.addItem init.length item).leaves =
      init ++ [{ last with items := last.items ++ [item] }] := by
    simp [addItem, hlf, h.leaves]
  refine ⟨hl, h.full, by simpa using hr, h.nexts, h.lastNext, h.leftmost, h.rightmost, ?_⟩
  have hs : UpperOk (s.addItem init.length item) 0 (leafKeys s.leaves) :=
    h.upper.congr rfl rfl (fun _ _ => rfl) fun _ _ => rfl
  rw [hl]
  by_cases hn : last.items = []
  · have hi := he hn
    refine hs.single ?_ ?_
    · rw [length_leafKeys, h.leaves, hi]
      rfl
    rw [length_leafKeys, hi]
    rfl
  obtain ⟨first, rest, hit⟩ := exists_cons_of_ne_nil hn
  have hk : leafKeys (init ++ [{ last with items := last.items ++ [item] }]) =
      leafKeys s.leaves := by
    simp [leafKeys, heads, h.leaves, hit]
  rwa [hk]

theorem leafWithRoom_grow (hfl : last.items.length = maxLeafItems)
    (hb : s.leaves.length < maxInternalItems ^ (maxTreeLevels - 1)) (item : LeafItem) :
    ∃ s', leafWithRoom s init.length item.first = .ok (s', init.length + 1) ∧
      LinkedLeaves (s'.addItem (init.length + 1) item)
        (init ++ [{ last with next := some (init.length + 1) }]) ⟨[item], none⟩ ∧
      OnlyTree s s' := by
  have hlf : s.leaf init.length = last := by simp [leaf, h.leaves]
  have hln : s.leaves.length = init.length + 1 := by simp [h.leaves]
  have hn : (s.newRightmostLeaf init.length).leaves =
      init ++ [{ last with next := some (init.length + 1) }] ++ [⟨[], none⟩] := by
    simp [newRightmostLeaf, hlf, h.leaves]
  have hup : UpperOk (s.newRightmostLeaf init.length) 0 (leafKeys s.leaves) :=
    h.upper.congr rfl rfl (fun _ _ => rfl) fun lv hl => update_of_ne (by omega) _ _
  have hf : (s.newRightmostLeaf init.length).firstValue ⟨0, 0⟩ = (leafKeys s.leaves).getD 0 0 := by
    rw [firstValue, if_pos rfl, leaf, hn, h.leaves]
    cases init with
    | nil =>
      cases hi : last.items with
      | nil | cons first rest => simp [leafKeys, heads, hi]
    | cons leaf init =>
      cases hi : leaf.items with
      | nil | cons first rest => simp [leafKeys, heads, hi]
  obtain ⟨s', hs', hu⟩ := intsetUpdateUpper_ok maxTreeLevels item.first
    hup (by omega) (fun _ => hf) (by rw [length_leafKeys]; exact hb)
  rw [length_leafKeys, hln] at hs'
  have hsl := hu.only.leaves
  rw [hn] at hsl
  have ha : (s'.addItem (init.length + 1) item).leaves =
      init ++ [{ last with next := some (init.length + 1) }] ++ [⟨[item], none⟩] := by
    simp [addItem, leaf, hsl]
  refine ⟨s', ?_, ⟨ha, ?_, by simp [maxLeafItems], ?_, rfl, ?_, ?_, ?_⟩, ?_⟩
  · rw [leafWithRoom, hlf, if_pos (by omega), hln, hs']
    rfl
  · exact forall_mem_append.mpr ⟨h.full, forall_mem_singleton.mpr hfl⟩
  · rw [map_append, h.nexts, length_append, length_singleton, range_succ, map_append]
    rfl
  · exact hu.only.leftmostLeaf.trans h.leftmost
  · refine (hu.rightmost 0 (le_refl _)).trans ?_
    simp [newRightmostLeaf, hln]
  · have hk : leafKeys (s'.addItem (init.length + 1) item).leaves =
        leafKeys s.leaves ++ [item.first] := by
      rw [ha, h.leaves]
      simp [leafKeys, heads]
    rw [hk]
    exact hu.upper.congr rfl rfl (fun _ _ => rfl) fun _ _ => rfl
  have ho := hu.only
  rw [OnlyTree, ho]
  rfl

theorem packItem_ok (he : last.items = [] → init = [])
    (hb : s.leaves.length < maxInternalItems ^ (maxTreeLevels - 1)) (item : LeafItem) :
    ∃ s' leaf init' last', leafWithRoom s init.length item.first = .ok (s', leaf) ∧
      leaf = init'.length ∧ LinkedLeaves (s'.addItem leaf item) init' last' ∧ last'.items ≠ [] ∧
      (s'.addItem leaf item).items = s.items ++ [item] ∧ OnlyTree s (s'.addItem leaf item) := by
  have hl : s.leaf init.length = last := by simp [leaf, h.leaves]
  by_cases hr : last.items.length < maxLeafItems
  · have hp := addItem_push h he hr item
    refine ⟨s, init.length, init, _, ?_, rfl, hp, by simp, ?_, rfl⟩
    · rw [leafWithRoom, hl, if_neg (by omega)]
    · simp [items, hp.leaves, h.leaves]
  have hf := le_antisymm h.room (by omega)
  obtain ⟨s', hs', hg, ho⟩ := leafWithRoom_grow h hf hb item
  refine ⟨s', init.length + 1, _, _, hs', by simp, hg, by simp, ?_, OnlyTree.trans ho rfl⟩
  rw [items, hg.leaves, items, h.leaves]
  simp

end

/-! ## Packing -/

def LeafItem.values (item : LeafItem) : List Nat :=
  item.first :: simple8bDecode item.codeword item.first

def IntegerSet.treeValues (s : IntegerSet) : List Nat := (s.items.map LeafItem.values).flatten

/-- The items that the packing loop makes, and the values that it leaves. -/
def packedItems : Nat → List Nat → List LeafItem × List Nat
  | 0, values => ([], values)
  | steps + 1, values =>
    if values.length ≥ maxValuesPerLeafItem then
      let encoded := simple8bEncode (values.drop 1) (values.getD 0 0)
      let packed := packedItems steps (values.drop (1 + encoded.2))
      (⟨values.getD 0 0, encoded.1⟩ :: packed.1, packed.2)
    else ([], values)

variable {values : List Nat}

theorem values_of_encoded (hl : values.length ≥ maxValuesPerLeafItem)
    (hs : values.Pairwise (· < ·)) (hlt : ∀ x ∈ values, x < 2 ^ 64) :
    LeafItem.values ⟨values.getD 0 0, (simple8bEncode (values.drop 1) (values.getD 0 0)).1⟩ =
      values.take (1 + (simple8bEncode (values.drop 1) (values.getD 0 0)).2) := by
  obtain ⟨first, rest, rfl⟩ : ∃ first rest, values = first :: rest := by
    cases values with
    | nil => exact absurd hl (by decide)
    | cons first rest => exact ⟨first, rest, rfl⟩
  have hr : simple8bMaxValuesPerCodeword ≤ rest.length := by
    rw [maxValuesPerLeafItem, length_cons] at hl
    omega
  have hd := (simple8bEncode_decode hr hs fun x hx => hlt x (mem_cons_of_mem first hx)).2.2
  simp only [drop_succ_cons, drop_zero, getD_cons_zero, LeafItem.values, hd]
  rw [add_comm, take_succ_cons]

theorem packedItems_values (ss : Nat) (hs : values.Pairwise (· < ·))
    (hlt : ∀ x ∈ values, x < 2 ^ 64) :
    ((packedItems ss values).1.map LeafItem.values).flatten ++ (packedItems ss values).2 =
      values := by
  induction ss generalizing values with
  | zero => rfl
  | succ ss ih =>
    rw [packedItems]
    split
    next hl =>
      have hr := ih (hs.sublist (drop_sublist
        (1 + (simple8bEncode (values.drop 1) (values.getD 0 0)).2) values))
        fun x hx => hlt x (mem_of_mem_drop hx)
      simp only [map_cons, flatten_cons, append_assoc, hr,
        values_of_encoded hl hs hlt, take_append_drop]
    · simp

theorem packedItems_rest (hs : values.length ≤ ss) :
    (packedItems ss values).2.length < maxValuesPerLeafItem := by
  induction ss generalizing values with
  | zero =>
    rw [packedItems, Nat.le_zero.mp hs]
    decide
  | succ ss ih =>
    rw [packedItems]
    split
    · refine ih ?_
      rw [length_drop]
      omega
    next hl => exact Nat.lt_of_not_le hl

theorem packedItems_ne_nil (hl : maxValuesPerLeafItem ≤ values.length)
    (hs : maxValuesPerLeafItem ≤ ss) : (packedItems ss values).1 ≠ [] := by
  cases ss with
  | zero => exact absurd hs (by decide)
  | succ ss =>
    rw [packedItems, if_pos hl]
    simp

theorem length_leaves_le (h : LinkedLeaves s init last) :
    maxLeafItems * (s.leaves.length - 1) ≤ s.items.length := by
  have hi : (init.map fun leaf => leaf.items.length).sum = init.length * maxLeafItems := by
    have hm : (init.map fun leaf => leaf.items.length) =
        List.replicate init.length maxLeafItems := by
      rw [eq_replicate_iff]
      refine ⟨by simp, fun b hb => ?_⟩
      obtain ⟨leaf, hl, rfl⟩ := mem_map.mp hb
      exact h.full leaf hl
    rw [hm, sum_replicate, smul_eq_mul]
  have hf : (init.flatMap IntsetLeafNode.items).length = init.length * maxLeafItems := by
    rw [length_flatMap, hi]
  rw [items, h.leaves, flatMap_append, length_append, length_singleton,
    Nat.add_sub_cancel, length_append, hf, Nat.mul_comm]
  exact Nat.le_add_right _ _

/-- **The packing loop** adds its items to the tree. -/
theorem flushLoop_ok (ss : Nat) (values : List Nat) (h : LinkedLeaves s init last)
    (he : last.items = [] → init = []) (hc : s.items.length + values.length ≤ 2 ^ 64) :
    ∃ s' init' last', flushLoop ss s init.length values = .ok (s', (packedItems ss values).2) ∧
      LinkedLeaves s' init' last' ∧ (last'.items = [] → init' = []) ∧
      s'.items = s.items ++ (packedItems ss values).1 ∧ OnlyTree s s' := by
  induction ss generalizing s init last values with
  | zero => exact ⟨s, init, last, rfl, h, he, by simp [packedItems], rfl⟩
  | succ ss ih =>
    rw [flushLoop, packedItems]
    by_cases hln : values.length ≥ maxValuesPerLeafItem
    · rw [if_pos hln, if_pos hln]
      have hb : s.leaves.length < maxInternalItems ^ (maxTreeLevels - 1) := by
        have hle := length_leaves_le h
        simp only [maxLeafItems, maxInternalItems, maxTreeLevels] at hle ⊢
        omega
      obtain ⟨s₁, leaf, init₁, last₁, hs₁, rfl, hl, hn, hi, ho⟩ :=
        packItem_ok h he hb
          ⟨values.getD 0 0, (simple8bEncode (values.drop 1) (values.getD 0 0)).1⟩
      have hp : 0 < values.length := lt_of_lt_of_le (by decide) hln
      obtain ⟨s', init', last', hs', hl', he', hi', ho'⟩ :=
        ih (values.drop (1 + (simple8bEncode (values.drop 1) (values.getD 0 0)).2)) hl
          (fun hnl => absurd hnl hn) (by
            rw [hi, length_append, length_singleton, length_drop]
            omega)
      refine ⟨s', init', last', ?_, hl', he', ?_, ho.trans ho'⟩
      · simp only [hs₁, bind, Except.bind]
        exact hs'
      rw [hi', hi]
      simp
    rw [if_neg hln, if_neg hln]
    exact ⟨s, init, last, rfl, h, he, by simp, rfl⟩

/-! ## Adding values -/

structure NoTree (s : IntegerSet) : Prop where
  leaves : s.leaves = []
  internals : ∀ level, s.internals level = []
  numLevels : s.numLevels = 0
  root : s.root = none
  rightmost : s.rightmostNodes 0 = none
  leftmost : s.leftmostLeaf = none

structure SameTree (s s' : IntegerSet) : Prop where
  leaves : s'.leaves = s.leaves
  internals : s'.internals = s.internals
  numLevels : s'.numLevels = s.numLevels
  root : s'.root = s.root
  rightmostNodes : s'.rightmostNodes = s.rightmostNodes
  leftmostLeaf : s'.leftmostLeaf = s.leftmostLeaf

theorem LinkedLeaves.congr (h : LinkedLeaves s init last) (hs : SameTree s s') :
    LinkedLeaves s' init last where
  leaves := hs.leaves.trans h.leaves
  full := h.full
  room := h.room
  nexts := h.nexts
  lastNext := h.lastNext
  leftmost := hs.leftmostLeaf.trans h.leftmost
  rightmost := (congrFun hs.rightmostNodes 0).trans h.rightmost
  upper := by
    rw [hs.leaves]
    exact h.upper.congr hs.numLevels hs.root (fun lv _ => congrFun hs.internals lv)
      fun lv _ => congrFun hs.rightmostNodes lv

theorem TreeOk.congr (h : TreeOk s) (hs : SameTree s s') : TreeOk s' := by
  obtain ⟨init, last, hl, hne⟩ := h
  exact ⟨init, last, hl.congr hs, hne⟩

theorem NoTree.congr (h : NoTree s) (hs : SameTree s s') : NoTree s' where
  leaves := hs.leaves.trans h.leaves
  internals := fun lv => (congrFun hs.internals lv).trans (h.internals lv)
  numLevels := hs.numLevels.trans h.numLevels
  root := hs.root.trans h.root
  rightmost := (congrFun hs.rightmostNodes 0).trans h.rightmost
  leftmost := hs.leftmostLeaf.trans h.leftmost

/-- The set stands for the values, which were added in this order. -/
structure IntsetOk (s : IntegerSet) (xs : List Nat) : Prop where
  tree : NoTree s ∨ TreeOk s
  contents : s.treeValues ++ s.bufferedValues = xs
  buffered : s.bufferedValues.length ≤ maxBufferedValues
  numEntries : s.numEntries = xs.length % 2 ^ 64
  highestValue : xs ≠ [] → xs.getLast? = some s.highestValue
  iterActive : s.iterActive = false

theorem intsetCreate_ok : IntsetOk intsetCreate [] where
  tree := .inl ⟨rfl, fun _ => rfl, rfl, rfl, rfl, rfl⟩
  contents := rfl
  buffered := by decide
  numEntries := rfl
  highestValue := fun h => absurd rfl h
  iterActive := rfl

theorem firstLeaf_ok (h : NoTree s) : LinkedLeaves (firstLeaf s) [] ⟨[], none⟩ where
  leaves := by simp [firstLeaf, h.leaves]
  full := by simp
  room := by decide
  nexts := rfl
  lastNext := rfl
  leftmost := by simp [firstLeaf, h.leaves]
  rightmost := by simp [firstLeaf, h.leaves]
  upper := by
    refine ⟨zero_lt_one, ?_, fun lv _ => h.internals lv, ?_, ?_⟩
    · change (leafKeys (firstLeaf s).leaves).length = 1
      simp [length_leafKeys, firstLeaf, h.leaves]
    · intro lv hl hlt
      simp only [firstLeaf] at hlt
      omega
    simp [firstLeaf, h.leaves]

theorem length_le_of_sorted (hs : xs.Pairwise (· < ·)) (hlt : ∀ x ∈ xs, x < 2 ^ 64) :
    xs.length ≤ 2 ^ 64 := by
  have hn : xs.Nodup := hs.imp fun h => h.ne
  have hsb : xs ⊆ List.range (2 ^ 64) := fun x hx => mem_range.mpr (hlt x hx)
  simpa using (hn.subperm hsb).length_le

theorem length_items_le (s : IntegerSet) : s.items.length ≤ s.treeValues.length := by
  rw [treeValues, length_flatten, map_map]
  generalize s.items = items
  induction items with
  | nil => simp
  | cons item items ih =>
    rw [map_cons, sum_cons, length_cons]
    simp only [comp, LeafItem.values, length_cons] at ih ⊢
    omega

structure Flushed (s s' : IntegerSet) : Prop where
  tree : TreeOk s'
  items : s'.items = s.items ++ (packedItems s.bufferedValues.length s.bufferedValues).1
  buffered : s'.bufferedValues = (packedItems s.bufferedValues.length s.bufferedValues).2
  numEntries : s'.numEntries = s.numEntries
  highestValue : s'.highestValue = s.highestValue
  iterActive : s'.iterActive = s.iterActive

theorem intsetFlushBufferedValues_ok (h : IntsetOk s xs) (hsr : xs.Pairwise (· < ·))
    (hlt : ∀ x ∈ xs, x < 2 ^ 64) (hln : maxValuesPerLeafItem ≤ s.bufferedValues.length) :
    ∃ s', intsetFlushBufferedValues s = .ok s' ∧ Flushed s s' := by
  have hc : s.items.length + s.bufferedValues.length ≤ 2 ^ 64 := by
    have hle := length_le_of_sorted hsr hlt
    rw [← h.contents, length_append] at hle
    have := length_items_le s
    omega
  -- the tree that the loop starts with
  obtain ⟨s₀, init, last, hst, hl, he, hi, ho⟩ :
      ∃ s₀ init last, (match s.rightmostNodes 0 with
          | some p => (s, p.index)
          | none => (firstLeaf s, s.leaves.length)) = (s₀, List.length init) ∧
        LinkedLeaves s₀ init last ∧ (last.items = [] → init = []) ∧ s₀.items = s.items ∧
        (s₀.bufferedValues = s.bufferedValues ∧ s₀.numEntries = s.numEntries ∧
          s₀.highestValue = s.highestValue ∧ s₀.iterActive = s.iterActive) := by
    obtain hn | ⟨init, last, hl, hne⟩ := h.tree
    · refine ⟨firstLeaf s, [], ⟨[], none⟩, ?_, firstLeaf_ok hn, fun _ => rfl, ?_, rfl, rfl, rfl,
        rfl⟩
      · rw [hn.rightmost, hn.leaves]
      · simp [items, firstLeaf, hn.leaves]
    refine ⟨s, init, last, ?_, hl, fun hnl => absurd hnl hne, rfl, rfl, rfl, rfl, rfl⟩
    rw [hl.rightmost]
  obtain ⟨hb, hen, hh, ha⟩ := ho
  obtain ⟨s', init', last', hs', hl', he', hi', ho'⟩ :=
    flushLoop_ok s.bufferedValues.length s.bufferedValues hl he (by rw [hi]; exact hc)
  refine ⟨{ s' with bufferedValues := (packedItems s.bufferedValues.length s.bufferedValues).2 },
    ?_, ?_⟩
  · rw [intsetFlushBufferedValues, hst]
    simp only [hb, hs', bind, Except.bind]
  rw [hi] at hi'
  have hne : last'.items ≠ [] := by
    intro hnl
    rw [items, hl'.leaves, he' hnl] at hi'
    have hsm := packedItems_ne_nil hln hln
    simp [hnl, hsm] at hi'
  constructor
  case tree => exact TreeOk.congr ⟨init', last', hl', hne⟩ ⟨rfl, rfl, rfl, rfl, rfl, rfl⟩
  case items => exact hi'
  case buffered => rfl
  case numEntries => exact (congrArg numEntries ho' :).trans hen
  case highestValue => exact (congrArg highestValue ho' :).trans hh
  case iterActive => exact (congrArg iterActive ho' :).trans ha

/-- **A larger value is added behind the others.** -/
theorem intsetAddMember_ok {x : Nat} (h : IntsetOk s xs) (hsr : (xs ++ [x]).Pairwise (· < ·))
    (hlt : ∀ y ∈ xs ++ [x], y < 2 ^ 64) :
    ∃ s', intsetAddMember s x = .ok s' ∧ IntsetOk s' (xs ++ [x]) ∧
      (s'.items = s.items ∨
        s'.items = s.items ++ (packedItems s.bufferedValues.length s.bufferedValues).1) := by
  have hsr' := (pairwise_append.mp hsr).1
  have hlt' : ∀ y ∈ xs, y < 2 ^ 64 := fun y hy => hlt y (mem_append_left _ hy)
  have ho : ¬ (x ≤ s.highestValue ∧ s.numEntries > 0) := by
    rintro ⟨hle, hps⟩
    have hne : xs ≠ [] := by
      rintro rfl
      rw [h.numEntries] at hps
      exact absurd hps (by decide)
    have hm := mem_of_getLast? (h.highestValue hne)
    have hb := (pairwise_append.mp hsr).2.2 _ hm x (mem_singleton.mpr rfl)
    omega
  have he : (xs.length % 2 ^ 64 + 1) % 2 ^ 64 = (xs ++ [x]).length % 2 ^ 64 := by
    rw [length_append, length_singleton, Nat.mod_add_mod]
  rw [intsetAddMember, if_neg (by simp [h.iterActive]), if_neg ho]
  by_cases hfl : s.bufferedValues.length ≥ maxBufferedValues
  · have hl : maxValuesPerLeafItem ≤ s.bufferedValues.length := le_trans (by decide) hfl
    obtain ⟨s', hs', hf⟩ := intsetFlushBufferedValues_ok h hsr' hlt' hl
    have hv : s'.treeValues ++ s'.bufferedValues = xs := by
      have hp := packedItems_values s.bufferedValues.length
        (hsr'.sublist (h.contents ▸ sublist_append_right _ _))
        fun y hy => hlt' y (h.contents ▸ mem_append_right _ hy)
      rw [← h.contents, treeValues, hf.items, hf.buffered, map_append,
        flatten_append, append_assoc, hp]
      rfl
    rw [if_pos hfl, hs']
    refine ⟨_, rfl, ?_, .inr hf.items⟩
    constructor
    case tree => exact .inr (hf.tree.congr ⟨rfl, rfl, rfl, rfl, rfl, rfl⟩)
    case contents =>
      rw [← hv, append_assoc]
      rfl
    case buffered =>
      have hr := packedItems_rest (le_refl s.bufferedValues.length)
      rw [← hf.buffered] at hr
      rw [length_append, length_singleton]
      exact le_trans hr (by decide)
    case numEntries => rw [hf.numEntries, h.numEntries, he]
    case highestValue => simp
    case iterActive => exact hf.iterActive.trans h.iterActive
  rw [if_neg hfl]
  refine ⟨_, rfl, ?_, .inl rfl⟩
  constructor
  case tree =>
    exact h.tree.imp (fun ht => ht.congr ⟨rfl, rfl, rfl, rfl, rfl, rfl⟩)
      fun ht => ht.congr ⟨rfl, rfl, rfl, rfl, rfl, rfl⟩
  case contents =>
    rw [← h.contents, append_assoc]
    rfl
  case buffered =>
    rw [length_append, length_singleton]
    omega
  case numEntries => rw [h.numEntries, he]
  case highestValue => simp
  case iterActive => exact h.iterActive

def intsetAddMembers (s : IntegerSet) : List Nat → Except IntsetError IntegerSet
  | [] => .ok s
  | x :: xs => do
    let s ← intsetAddMember s x
    intsetAddMembers s xs

/-- **The set that increasing values are added to.**  Its items are those that the packing
loop makes of values in a row. -/
theorem intsetAddMembers_ok {P : LeafItem → Prop} (h : IntsetOk s xs)
    (hi : ∀ item ∈ s.items, P item) (ys : List Nat) (hsr : (xs ++ ys).Pairwise (· < ·))
    (hlt : ∀ y ∈ xs ++ ys, y < 2 ^ 64)
    (hp : ∀ values, values <:+: xs ++ ys → ∀ item ∈ (packedItems values.length values).1, P item) :
    ∃ s', intsetAddMembers s ys = .ok s' ∧ IntsetOk s' (xs ++ ys) ∧ ∀ item ∈ s'.items, P item := by
  induction ys generalizing s xs with
  | nil => exact ⟨s, rfl, by rwa [append_nil], hi⟩
  | cons y ys ih =>
    have hc : xs ++ y :: ys = (xs ++ [y]) ++ ys := by simp
    have hin : s.bufferedValues <:+: xs ++ y :: ys := ⟨s.treeValues, y :: ys, by rw [h.contents]⟩
    have hb := hp _ hin
    rw [hc] at hsr hlt hp
    obtain ⟨s₁, hs₁, hok₁, ha⟩ := intsetAddMember_ok h (pairwise_append.mp hsr).1
      fun z hz => hlt z (mem_append_left _ hz)
    have hi₁ : ∀ item ∈ s₁.items, P item := by
      obtain hsm | hm := ha
      · rwa [hsm]
      intro item hit
      rw [hm] at hit
      exact (mem_append.mp hit).elim (hi item) (hb item)
    obtain ⟨s', hs', hok', hi'⟩ := ih hok₁ hi₁ hsr hlt hp
    refine ⟨s', ?_, hc ▸ hok', hi'⟩
    rw [intsetAddMembers, hs₁]
    exact hs'

/-! ## The height -/

theorem LinkedUpper.lt_length {internals : Nat → List IntsetInternalNode}
    (h : LinkedUpper internals (height + 1) lo bl) : maxInternalItems ^ height < bl.length := by
  induction height generalizing lo bl with
  | zero =>
    rw [pow_zero]
    exact h.1
  | succ height ih =>
    obtain ⟨ht, hl, hu⟩ := h
    have hnd := ih hu
    rw [length_lowKeys] at hnd
    obtain ⟨init, last, heq⟩ := (eq_nil_or_concat' _).resolve_left
      (hl.ne_nil (by omega))
    have hf := hl.full
    have hls := length_pos_iff.mpr (hl.nonempty last (by simp [heq]))
    rw [heq, dropLast_concat] at hf
    have hln : bl.length = maxInternalItems * init.length + last.values.length := by
      rw [← hl.keys, heq, map_append, flatten_append, length_append, length_flatten_map hf, mul_comm]
      simp
    rw [heq, length_append, length_singleton] at hnd
    have hml := Nat.mul_le_mul_left maxInternalItems (Nat.le_of_lt_succ hnd)
    rw [pow_succ, mul_comm]
    omega

theorem TreeOk.numLevels_le (h : TreeOk s) (hlv : s.leaves.length ≤ maxInternalItems ^ height) :
    s.numLevels ≤ height + 1 := by
  obtain ⟨init, last, hl, _⟩ := h
  by_contra hgt
  have hu := hl.upper.linked
  rw [show s.numLevels - 1 - 0 = (s.numLevels - 2) + 1 by omega] at hu
  have hlt := hu.lt_length
  rw [length_leafKeys] at hlt
  have hp : maxInternalItems ^ height ≤ maxInternalItems ^ (s.numLevels - 2) :=
    Nat.pow_le_pow_right (by decide) (by omega)
  omega

end AthenaPG
