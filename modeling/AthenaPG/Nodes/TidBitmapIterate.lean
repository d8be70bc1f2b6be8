import AthenaPG.Nodes.TidBitmapSound

/-!
Tuple-id bitmaps (`src/backend/nodes/tidbitmap.c`): reading them out.

A private iterator works on sorted arrays of pointers to the exact pages and to the
chunks, a shared one on sorted arrays of indexes into the shared element array.  The two are
stepped side by side, and a private one is a merge of the lossy blocks and the exact pages
that remain.

* `tbmSharedIterate_eq`: one shared call does what a private call does.
* `tbmIterate_merges`, `returns_all`: a call is a step of the merge, and what all of them
  return.
* `Builds.sound`: whatever expression built it, a bitmap bounds the sets for which the
  expression stands.
* `tidbitmap_sound`, `shared_iteration_agrees`: the two together.
-/

namespace AthenaPG
open List TIDBitmap

/-! ## Private iteration -/

/-- `TBMIterateResult`; `offsets` holds the `ntuples` offsets of an exact page. -/
structure TBMIterateResult where
  blockno : Nat
  ntuples : Int
  recheck : Bool
  offsets : List Nat
  deriving DecidableEq

instance : Inhabited PagetableEntry := ⟨.zero 0 false⟩

/-- `qsort` with `tbm_comparator`; the block numbers are different. -/
def sortPages (pages : List PagetableEntry) : List PagetableEntry :=
  pages.insertionSort fun left right => left.blockno ≤ right.blockno

/-- A bitmap with the lists that `tbm_begin_iterate` attaches to it. -/
structure IteratedBitmap where
  tbm : TIDBitmap
  spages : List PagetableEntry
  schunks : List PagetableEntry

open IteratedBitmap

structure TBMIterator where
  spageptr : Nat
  schunkptr : Nat
  schunkbit : Nat
  deriving DecidableEq

/-- `tbm_begin_iterate`; `order` is that in which the scan returns the entries.  A further
iterator over the same bitmap finds the lists filled. -/
def tbmBeginIterate (order : List PagetableEntry) (tbm : TIDBitmap) :
    IteratedBitmap × TBMIterator :=
  let iterator : TBMIterator := { spageptr := 0, schunkptr := 0, schunkbit := 0 }
  match tbm.status with
  | .hash _ =>
    ({ tbm := tbm
       spages := sortPages (order.filter fun page => !page.ischunk)
       schunks := sortPages (order.filter fun page => page.ischunk) }, iterator)
  | _ => ({ tbm := tbm, spages := [], schunks := [] }, iterator)

def tbmExtractPageTuple (page : PagetableEntry) : List Nat := scanWords wordsPerPage page.words 1

/-- The loop of `tbm_advance_schunkbit`, with the number of bits left. -/
def advanceSchunkbitLoop (chunk : PagetableEntry) : Nat → Nat → Nat
  | 0, schunkbit => schunkbit
  | left + 1, schunkbit =>
    if chunk.bit schunkbit then schunkbit else advanceSchunkbitLoop chunk left (schunkbit + 1)

def tbmAdvanceSchunkbit (chunk : PagetableEntry) (schunkbit : Nat) : Nat :=
  advanceSchunkbitLoop chunk (pagesPerChunk - schunkbit) schunkbit

/-- The first loop of `tbm_iterate`, with the number of chunks left: advance to the next
bit that is set. -/
def iterateChunks (schunks : List PagetableEntry) : Nat → TBMIterator → TBMIterator
  | 0, iterator => iterator
  | left + 1, iterator =>
    let chunk := schunks.getD iterator.schunkptr default
    let schunkbit := tbmAdvanceSchunkbit chunk iterator.schunkbit
    if schunkbit < pagesPerChunk then { iterator with schunkbit := schunkbit }
    else
      iterateChunks schunks left
        { iterator with schunkptr := iterator.schunkptr + 1, schunkbit := 0 }

def lossyResult (blockno : Nat) : TBMIterateResult where
  blockno := blockno
  ntuples := -1
  recheck := true
  offsets := []

def exactResult (page : PagetableEntry) : TBMIterateResult where
  blockno := page.blockno
  ntuples := (tbmExtractPageTuple page).length
  recheck := page.recheck
  offsets := tbmExtractPageTuple page

variable (it : IteratedBitmap)

/-- The second half of `tbm_iterate`: the next exact page. -/
def iteratePages (iterator : TBMIterator) :
    Option TBMIterateResult × TBMIterator :=
  if iterator.spageptr < it.tbm.npages then
    let page := match it.tbm.status with
      | .onePage entry1 => entry1
      | _ => it.spages.getD iterator.spageptr default
    (some (exactResult page), { iterator with spageptr := iterator.spageptr + 1 })
  else (none, iterator)

def tbmIterate (iterator : TBMIterator) :
    Option TBMIterateResult × TBMIterator :=
  let iterator := iterateChunks it.schunks (it.tbm.nchunks - iterator.schunkptr) iterator
  if iterator.schunkptr < it.tbm.nchunks then
    let chunk := it.schunks.getD iterator.schunkptr default
    let chunkBlockno := chunk.blockno + iterator.schunkbit
    if iterator.spageptr ≥ it.tbm.npages ∨
        chunkBlockno < (it.spages.getD iterator.spageptr default).blockno then
      (some (lossyResult chunkBlockno), { iterator with schunkbit := iterator.schunkbit + 1 })
    else iteratePages it iterator
  else iteratePages it iterator

/-! ## Shared iteration -/

/-- `TBMSharedIteratorState`, with what its `dsa_pointer`s point to: the element array,
and the arrays of indexes into it. -/
structure TBMSharedIteratorState where
  nentries : Nat
  maxentries : Nat
  npages : Nat
  nchunks : Nat
  pagetable : Option (List PagetableEntry)
  spages : Option (List Nat)
  schunks : Option (List Nat)
  spageptr : Nat
  schunkptr : Nat
  schunkbit : Nat

/-- `qsort_arg` with `tbm_shared_comparator`. -/
def sortIndexes (base : List PagetableEntry) (indexes : List Nat) : List Nat :=
  indexes.insertionSort fun left right =>
    (base.getD left default).blockno ≤ (base.getD right default).blockno

/-- `tbm_prepare_shared_iterate`.  `ptentry` is the element array of the hash table, in
which buckets that are not in use may hold anything; `order` are the indexes of those in
use, in the order of the scan. -/
def tbmPrepareSharedIterate (ptentry : List PagetableEntry) (order : List Nat)
    (tbm : TIDBitmap) : TBMSharedIteratorState :=
  let istate : TBMSharedIteratorState :=
    { nentries := tbm.nentries, maxentries := tbm.maxentries, npages := tbm.npages
      nchunks := tbm.nchunks, pagetable := none, spages := none, schunks := none
      spageptr := 0, schunkptr := 0, schunkbit := 0 }
  match tbm.status with
  | .empty => istate
  | .onePage entry1 =>
    { istate with
      pagetable := some [entry1]
      spages := if tbm.npages ≠ 0 then some [0] else none }
  | .hash _ =>
    let pages := order.filter fun idx => !(ptentry.getD idx default).ischunk
    let chunks := order.filter fun idx => (ptentry.getD idx default).ischunk
    { istate with
      pagetable := some ptentry
      spages := if tbm.npages ≠ 0 then some (sortIndexes ptentry pages) else none
      schunks := if tbm.nchunks ≠ 0 then some (sortIndexes ptentry chunks) else none }

/-- The backend-private part of a `TBMSharedIterator`; `none` is `NULL`. -/
structure TBMSharedIterator where
  ptbase : Option (List PagetableEntry)
  ptpages : Option (List Nat)
  ptchunks : Option (List Nat)

def tbmAttachSharedIterate (istate : TBMSharedIteratorState) : TBMSharedIterator where
  ptbase := istate.pagetable
  ptpages := if istate.npages ≠ 0 then istate.spages else none
  ptchunks := if istate.nchunks ≠ 0 then istate.schunks else none

namespace TBMSharedIterator

/-- `ptbase[idxchunks[i]]`. -/
def chunkAt (iterator : TBMSharedIterator) (i : Nat) : PagetableEntry :=
  (iterator.ptbase.getD []).getD ((iterator.ptchunks.getD []).getD i 0) default

/-- `ptbase[idxpages[i]]`. -/
def pageAt (iterator : TBMSharedIterator) (i : Nat) : PagetableEntry :=
  (iterator.ptbase.getD []).getD ((iterator.ptpages.getD []).getD i 0) default

end TBMSharedIterator

/-- The first loop of `tbm_shared_iterate`, with the number of chunks left. -/
def sharedIterateChunks (iterator : TBMSharedIterator) :
    Nat → TBMSharedIteratorState → TBMSharedIteratorState
  | 0, istate => istate
  | left + 1, istate =>
    let chunk := iterator.chunkAt istate.schunkptr
    let schunkbit := tbmAdvanceSchunkbit chunk istate.schunkbit
    if schunkbit < pagesPerChunk then { istate with schunkbit := schunkbit }
    else
      sharedIterateChunks iterator left
        { istate with schunkptr := istate.schunkptr + 1, schunkbit := 0 }

/-- The second half of `tbm_shared_iterate`. -/
def sharedIteratePages (iterator : TBMSharedIterator) (istate : TBMSharedIteratorState) :
    Option TBMIterateResult × TBMSharedIteratorState :=
  if istate.spageptr < istate.npages then
    (some (exactResult (iterator.pageAt istate.spageptr)),
      { istate with spageptr := istate.spageptr + 1 })
  else (none, istate)

/-- `tbm_shared_iterate`; the lock is held during a call, so that calls are atomic. -/
def tbmSharedIterate (iterator : TBMSharedIterator) (istate : TBMSharedIteratorState) :
    Option TBMIterateResult × TBMSharedIteratorState :=
  let istate := sharedIterateChunks iterator (istate.nchunks - istate.schunkptr) istate
  if istate.schunkptr < istate.nchunks then
    let chunk := iterator.chunkAt istate.schunkptr
    let chunkBlockno := chunk.blockno + istate.schunkbit
    if istate.spageptr ≥ istate.npages ∨
        chunkBlockno < (iterator.pageAt istate.spageptr).blockno then
      (some (lossyResult chunkBlockno), { istate with schunkbit := istate.schunkbit + 1 })
    else sharedIteratePages iterator istate
  else sharedIteratePages iterator istate

/-- What happens to a shared iteration: a process attaches to it, or one of those that are
attached makes a call. -/
inductive SharedEvent where
  | attach
  | call (iterator : Nat)

def sharedRun : List SharedEvent → List TBMSharedIterator → TBMSharedIteratorState →
    List (Option TBMIterateResult)
  | [], _, _ => []
  | .attach :: events, iterators, istate =>
    sharedRun events (iterators ++ [tbmAttachSharedIterate istate]) istate
  | .call i :: events, iterators, istate =>
    match iterators[i]? with
    | none => sharedRun events iterators istate
    | some iterator =>
      let (result, istate) := tbmSharedIterate iterator istate
      result :: sharedRun events iterators istate

/-- The results of `n` calls of a private iterator. -/
def privateRun : Nat → IteratedBitmap → TBMIterator → List (Option TBMIterateResult)
  | 0, _, _ => []
  | n + 1, it, iterator =>
    let (result, iterator) := tbmIterate it iterator
    result :: privateRun n it iterator

variable {tbm : TIDBitmap}

theorem TIDBitmap.Valid.counts_onePage (h : tbm.Valid)
    {e1 : PagetableEntry} (hs : tbm.status = .onePage e1) : tbm.npages = 1 ∧ tbm.nchunks = 0 := by
  have he := h.onePage e1 hs
  have hc := h.counted
  rw [hs] at hc
  refine ⟨hc.npages.trans ?_, hc.nchunks.trans ?_⟩ <;>
    simp [tbmCreatePagetable, KeyedTable.put, KeyedTable.putList, KeyedTable.empty, he]

/-! ## Sorted arrays -/

instance : IsTrans PagetableEntry fun left right => left.blockno ≤ right.blockno :=
  ⟨fun _ _ _ => le_trans⟩

instance : Std.Total fun left right : PagetableEntry => left.blockno ≤ right.blockno :=
  ⟨fun left right => le_total left.blockno right.blockno⟩

theorem sortPages_sorted {pages : List PagetableEntry} (h : (pages.map (·.blockno)).Nodup) :
    (sortPages pages).Pairwise fun left right => left.blockno < right.blockno := by
  have hle := pairwise_insertionSort
    (fun left right : PagetableEntry => left.blockno ≤ right.blockno) pages
  have hp := perm_insertionSort
    (fun left right : PagetableEntry => left.blockno ≤ right.blockno) pages
  have hne : (sortPages pages).Pairwise fun left right => left.blockno ≠ right.blockno := by
    have hn := (hp.map (·.blockno)).nodup_iff.mpr h
    rwa [List.Nodup, pairwise_map] at hn
  exact (hle.and hne).imp fun hb => lt_of_le_of_ne hb.1 hb.2

theorem sortPages_perm {pages pages' : List PagetableEntry} (hp : pages.Perm pages')
    (h : (pages'.map (·.blockno)).Nodup) : sortPages pages = sortPages pages' := by
  have hn := (hp.map (·.blockno)).nodup_iff.mpr h
  have hs : (sortPages pages).Perm (sortPages pages') :=
    ((perm_insertionSort _ pages).trans hp).trans (perm_insertionSort _ pages').symm
  refine hs.eq_of_pairwise (fun left right _ _ hlt hgt => ?_) (sortPages_sorted hn)
    (sortPages_sorted h)
  omega

theorem map_sortIndexes (base : List PagetableEntry) (indexes : List Nat) :
    (sortIndexes base indexes).map (base.getD · default) =
      sortPages (indexes.map (base.getD · default)) :=
  map_insertionSort _ _ _ _ fun _ _ _ _ => Iff.rfl

/-! ## Shared and private iteration in step -/

def IteratedBitmap.pageAt (i : Nat) : PagetableEntry := match it.tbm.status with
  | .onePage entry1 => entry1
  | _ => it.spages.getD i default

structure SameArrays (it : IteratedBitmap) (iterator : TBMSharedIterator) : Prop where
  chunks : ∀ i < it.tbm.nchunks, iterator.chunkAt i = it.schunks.getD i default
  pages : ∀ i < it.tbm.npages, iterator.pageAt i = it.pageAt i
  hash : 0 < it.tbm.nchunks → ∀ i, it.pageAt i = it.spages.getD i default

def TBMSharedIteratorState.at (istate : TBMSharedIteratorState) (iterator : TBMIterator) :
    TBMSharedIteratorState :=
  { istate with
    spageptr := iterator.spageptr
    schunkptr := iterator.schunkptr
    schunkbit := iterator.schunkbit }

section Lockstep

variable {it : IteratedBitmap} {shared : TBMSharedIterator} {is : TBMSharedIteratorState}

section

variable (h : SameArrays it shared)
include h

theorem sharedIterateChunks_eq {left : Nat} {itr : TBMIterator}
    (hl : itr.schunkptr + left ≤ it.tbm.nchunks) :
    sharedIterateChunks shared left (is.at itr) = is.at (iterateChunks it.schunks left itr) := by
  induction left generalizing itr with
  | zero => rfl
  | succ left ih =>
    have hc := h.chunks itr.schunkptr (by omega)
    rw [sharedIterateChunks, iterateChunks]
    simp only [TBMSharedIteratorState.at, hc]
    split
    · rfl
    · exact @ih { itr with schunkptr := itr.schunkptr + 1, schunkbit := 0 } (by simp only; omega)

theorem sharedIteratePages_eq (hp : is.npages = it.tbm.npages) (itr : TBMIterator) :
    sharedIteratePages shared (is.at itr) =
      ((iteratePages it itr).1, is.at (iteratePages it itr).2) := by
  unfold sharedIteratePages iteratePages
  have ht : (is.at itr).spageptr < (is.at itr).npages ↔ itr.spageptr < it.tbm.npages := by
    rw [← hp]
    rfl
  by_cases hlt : itr.spageptr < it.tbm.npages
  · rw [if_pos hlt, if_pos (ht.mpr hlt)]
    simp only [TBMSharedIteratorState.at, h.pages _ hlt]
    rfl
  rw [if_neg hlt, if_neg (mt ht.mp hlt)]

/-- One call of a shared iterator does what a private one does from the same position. -/
theorem tbmSharedIterate_eq (hp : is.npages = it.tbm.npages)
    (hch : is.nchunks = it.tbm.nchunks) (itr : TBMIterator) :
    tbmSharedIterate shared (is.at itr) = ((tbmIterate it itr).1, is.at (tbmIterate it itr).2) := by
  obtain ⟨iter, hi⟩ : ∃ iter, iterateChunks it.schunks (it.tbm.nchunks - itr.schunkptr)
      itr = iter := ⟨_, rfl⟩
  have hl : sharedIterateChunks shared ((is.at itr).nchunks -
      (is.at itr).schunkptr) (is.at itr) = is.at iter := by
    change sharedIterateChunks shared (is.nchunks - itr.schunkptr) (is.at itr) = _
    rw [hch, ← hi]
    by_cases hpt : itr.schunkptr ≤ it.tbm.nchunks
    · exact sharedIterateChunks_eq h (by omega)
    rw [Nat.sub_eq_zero_of_le (by omega)]
    rfl
  have hr := sharedIteratePages_eq h hp iter
  unfold tbmSharedIterate tbmIterate
  simp only [hl, hi]
  have hm : (is.at iter).schunkptr < (is.at iter).nchunks ↔ iter.schunkptr < it.tbm.nchunks := by
    rw [← hch]
    rfl
  by_cases hlt : iter.schunkptr < it.tbm.nchunks
  · rw [if_pos hlt, if_pos (hm.mpr hlt)]
    -- both compare the next page of the chunk with the next exact page
    have ht : ((is.at iter).spageptr ≥ (is.at iter).npages ∨
          (shared.chunkAt (is.at iter).schunkptr).blockno + (is.at iter).schunkbit <
            (shared.pageAt (is.at iter).spageptr).blockno) ↔
        (iter.spageptr ≥ it.tbm.npages ∨
          (it.schunks.getD iter.schunkptr default).blockno + iter.schunkbit <
            (it.spages.getD iter.spageptr default).blockno) := by
      simp only [TBMSharedIteratorState.at, hp, h.chunks _ hlt]
      refine or_congr_right' fun he => ?_
      rw [h.pages _ (by omega), h.hash (by omega)]
    by_cases hc : iter.spageptr ≥ it.tbm.npages ∨
        (it.schunks.getD iter.schunkptr default).blockno + iter.schunkbit <
          (it.spages.getD iter.spageptr default).blockno
    · rw [if_pos (ht.mpr hc), if_pos hc]
      simp only [TBMSharedIteratorState.at, h.chunks _ hlt]
    rw [if_neg (mt ht.mp hc), if_neg hc]
    exact hr
  rw [if_neg hlt, if_neg (mt hm.mp hlt)]
  exact hr

end

end Lockstep

variable {it : IteratedBitmap}

theorem sharedRun_eq {ist : TBMSharedIteratorState}
    (hp : ist.npages = it.tbm.npages) (hc : ist.nchunks = it.tbm.nchunks)
    (ha : SameArrays it (tbmAttachSharedIterate ist)) (events : List SharedEvent)
    {ite : List TBMSharedIterator} (hit : ∀ shared ∈ ite, SameArrays it shared)
    (itr : TBMIterator) :
    sharedRun events ite (ist.at itr) =
      privateRun (sharedRun events ite (ist.at itr)).length it itr := by
  induction events generalizing ite itr with
  | nil => rfl
  | cons event events ih =>
    cases event with
    | attach =>
      -- the part of the state that an iterator copies does not change
      exact @ih (ite ++ [tbmAttachSharedIterate (ist.at itr)])
        (forall_mem_append.mpr ⟨hit, forall_mem_singleton.mpr ha⟩) itr
    | call i =>
      simp only [sharedRun]
      cases hi : ite[i]? with
      | none => exact ih hit itr
      | some shared =>
        have hs := hit shared (mem_of_getElem? hi)
        simp only [tbmSharedIterate_eq hs hp hc, length_cons, privateRun]
        rw [← ih hit]

variable {order : List PagetableEntry} {chunk : PagetableEntry} {rest : Remaining}

theorem getD_sortIndexes {base : List PagetableEntry} {indexes : List Nat}
    (p : PagetableEntry → Bool) (hp : (indexes.map (base.getD · default)).Perm order)
    (hn : (order.map (·.blockno)).Nodup) {i : Nat} (hi : i < order.countP p) :
    base.getD ((sortIndexes base (indexes.filter fun idx => p (base.getD idx default))).getD i 0)
      default = (sortPages (order.filter p)).getD i default := by
  have hf : (indexes.filter fun idx => p (base.getD idx default)).map (base.getD · default) =
      (indexes.map (base.getD · default)).filter p := by
    rw [filter_map]
    rfl
  have hs := map_sortIndexes base (indexes.filter fun idx => p (base.getD idx default))
  rw [hf, sortPages_perm (hp.filter p) (hn.sublist (filter_sublist.map _))] at hs
  have hl : i < (sortIndexes base
      (indexes.filter fun idx => p (base.getD idx default))).length := by
    have hc := congrArg List.length hs
    rw [length_map, sortPages, length_insertionSort, ← countP_eq_length_filter]
      at hc
    omega
  rw [← hs, getD_eq_getElem?_getD (l := List.map _ _), getElem?_map,
    getD_eq_getElem?_getD (l := sortIndexes _ _), getElem?_eq_getElem hl]
  rfl

theorem sameArrays (h : tbm.Valid) (ho : tbm.ScanOrder order)
    {pte : List PagetableEntry} {indexes : List Nat}
    (hin : tbm.ScanOrder (indexes.map (pte.getD · default))) :
    SameArrays (tbmBeginIterate order tbm).1
      (tbmAttachSharedIterate (tbmPrepareSharedIterate pte indexes tbm)) := by
  have hc := h.counted
  cases hs : tbm.status with
  | empty =>
    rw [hs] at hc
    have hn : tbm.npages = 0 ∧ tbm.nchunks = 0 := ⟨hc.npages, hc.nchunks⟩
    simp only [tbmBeginIterate, hs]
    exact ⟨fun i hi => by simp [hn] at hi, fun i hi => by simp [hn] at hi,
      fun hps => by simp [hn] at hps⟩
  | onePage entry1 =>
    have hon := h.counts_onePage hs
    simp only [tbmBeginIterate, hs]
    refine ⟨fun i hi => by simp [hon] at hi, fun i hi => ?_, fun hps => by simp [hon] at hps⟩
    have hi0 : i = 0 := by
      simp only [hon.1] at hi
      omega
    subst hi0
    simp [TBMSharedIterator.pageAt, tbmAttachSharedIterate, tbmPrepareSharedIterate, hs, hon,
      pageAt]
  | hash pt =>
    rw [hs] at hc
    have hp := (hin pt hs).trans (ho pt hs).symm
    have hnd := ((ho pt hs).map _).nodup_iff.mpr pt.nodup
    have hpg := hc.npages.trans ((ho pt hs).countP_eq _).symm
    have hch := hc.nchunks.trans ((ho pt hs).countP_eq _).symm
    simp only [tbmBeginIterate, hs]
    refine ⟨fun i hi => ?_, fun i hi => ?_, fun _ i => ?_⟩
    · have hne : tbm.nchunks ≠ 0 := by
        simp only at hi
        omega
      simp only [TBMSharedIterator.chunkAt, tbmAttachSharedIterate, tbmPrepareSharedIterate, hs,
        hne, ne_eq, not_false_eq_true, if_true, Option.getD_some]
      exact getD_sortIndexes _ hp hnd (hch ▸ hi)
    · have hne : tbm.npages ≠ 0 := by
        simp only at hi
        omega
      simp only [TBMSharedIterator.pageAt, tbmAttachSharedIterate, tbmPrepareSharedIterate, hs,
        hne, ne_eq, not_false_eq_true, if_true, Option.getD_some, pageAt]
      exact getD_sortIndexes _ hp hnd (hpg ▸ hi)
    simp only [pageAt, hs]

/-! ## Iteration as a merge -/

/-- What remains to be returned: the lossy blocks and the exact pages. -/
structure Remaining where
  lossy : List Nat
  pages : List PagetableEntry

def mergeStep : Remaining → Option TBMIterateResult × Remaining
  | ⟨[], []⟩ => (none, ⟨[], []⟩)
  | ⟨[], page :: pages⟩ => (some (exactResult page), ⟨[], pages⟩)
  | ⟨blockno :: lossy, []⟩ => (some (lossyResult blockno), ⟨lossy, []⟩)
  | ⟨blockno :: lossy, page :: pages⟩ =>
    if blockno < page.blockno then (some (lossyResult blockno), ⟨lossy, page :: pages⟩)
    else (some (exactResult page), ⟨blockno :: lossy, pages⟩)

def chunkRest (chunk : PagetableEntry) (schunkbit : Nat) : List Nat :=
  ((List.range' schunkbit (pagesPerChunk - schunkbit)).filter chunk.bit).map (chunk.blockno + ·)

def chunksRest (schunks : List PagetableEntry) (schunkptr schunkbit : Nat) : List Nat :=
  match schunks.drop schunkptr with
  | [] => []
  | chunk :: chunks => chunkRest chunk schunkbit ++ chunks.flatMap (chunkRest · 0)

theorem chunkRest_of_bit {sb : Nat} (hlt : sb < pagesPerChunk) (hb : chunk.bit sb = true) :
    chunkRest chunk sb = (chunk.blockno + sb) :: chunkRest chunk (sb + 1) := by
  obtain ⟨left, hl⟩ : ∃ left, pagesPerChunk - sb = left + 1 := ⟨pagesPerChunk - (sb + 1), by omega⟩
  have hn : pagesPerChunk - (sb + 1) = left := by omega
  rw [chunkRest, chunkRest, hl, hn, range'_succ, filter_cons_of_pos hb, map_cons]

theorem chunkRest_of_not_bit {sb : Nat} (hlt : sb < pagesPerChunk) (hb : chunk.bit sb = false) :
    chunkRest chunk sb = chunkRest chunk (sb + 1) := by
  obtain ⟨left, hl⟩ : ∃ left, pagesPerChunk - sb = left + 1 := ⟨pagesPerChunk - (sb + 1), by omega⟩
  have hn : pagesPerChunk - (sb + 1) = left := by omega
  rw [chunkRest, chunkRest, hl, hn, range'_succ, filter_cons_of_neg (by simp [hb])]

theorem chunkRest_advance (ck : PagetableEntry) (sb : Nat) :
    chunkRest ck (tbmAdvanceSchunkbit ck sb) = chunkRest ck sb ∧
      (tbmAdvanceSchunkbit ck sb < pagesPerChunk →
        ck.bit (tbmAdvanceSchunkbit ck sb) = true) := by
  unfold tbmAdvanceSchunkbit
  obtain ⟨left, hl⟩ : ∃ left, left = pagesPerChunk - sb := ⟨_, rfl⟩
  rw [← hl]
  induction left generalizing sb with
  | zero =>
    rw [advanceSchunkbitLoop]
    exact ⟨rfl, fun hlt => by omega⟩
  | succ left ih =>
    rw [advanceSchunkbitLoop]
    cases hb : ck.bit sb with
    | true => exact ⟨rfl, fun _ => hb⟩
    | false =>
      obtain ⟨hr, hs⟩ := ih (sb + 1) (by omega)
      exact ⟨hr.trans (chunkRest_of_not_bit (by omega) hb).symm, hs⟩

theorem chunksRest_of_lt {schunks : List PagetableEntry} {schunkptr : Nat}
    (hlt : schunkptr < schunks.length) (sb : Nat) :
    chunksRest schunks schunkptr sb =
      chunkRest (schunks.getD schunkptr default) sb ++
        (schunks.drop (schunkptr + 1)).flatMap (chunkRest · 0) := by
  rw [chunksRest, drop_eq_getElem_cons hlt, getD_eq_getElem?_getD,
    getElem?_eq_getElem hlt, Option.getD_some]

theorem iterateChunks_spec {schunks : List PagetableEntry} {left : Nat} {itr : TBMIterator}
    (hlf : itr.schunkptr + left = schunks.length) :
    ∃ ptr bit, iterateChunks schunks left itr =
        { itr with schunkptr := ptr, schunkbit := bit } ∧
      chunksRest schunks ptr bit = chunksRest schunks itr.schunkptr itr.schunkbit ∧
      (ptr = schunks.length ∨ (ptr < schunks.length ∧ bit < pagesPerChunk ∧
        (schunks.getD ptr default).bit bit = true)) := by
  induction left generalizing itr with
  | zero => exact ⟨_, _, rfl, rfl, .inl (by omega)⟩
  | succ left ih =>
    have hlt : itr.schunkptr < schunks.length := by omega
    obtain ⟨hr, hst⟩ := chunkRest_advance (schunks.getD itr.schunkptr default) itr.schunkbit
    rw [iterateChunks]
    split <;> rename_i hb
    · refine ⟨_, _, rfl, ?_, .inr ⟨hlt, hb, hst hb⟩⟩
      rw [chunksRest_of_lt hlt, chunksRest_of_lt hlt, hr]
    · obtain ⟨ptr, bit, hl, hs, he⟩ :=
        @ih { itr with schunkptr := itr.schunkptr + 1, schunkbit := 0 } (by simp only; omega)
      refine ⟨ptr, bit, hl, hs.trans ?_, he⟩
      -- nothing was left in the chunk
      have hn : chunkRest (schunks.getD itr.schunkptr default) itr.schunkbit = [] := by
        rw [← hr, chunkRest, Nat.sub_eq_zero_of_le (by omega)]
        rfl
      rw [chunksRest_of_lt hlt, hn, nil_append, chunksRest]
      cases schunks.drop (itr.schunkptr + 1) with
      | nil | cons chunk chunks => rfl

def IteratedBitmap.pages : List PagetableEntry := match it.tbm.status with
  | .onePage entry1 => [entry1]
  | _ => it.spages

/-- The lists are as long as the counts say, and chunks are in a hash table only. -/
structure IteratedBitmap.Ready (it : IteratedBitmap) : Prop where
  nchunks : it.tbm.nchunks = it.schunks.length
  npages : it.tbm.npages = it.pages.length
  hash : 0 < it.tbm.nchunks → it.pages = it.spages

/-- An iterator has this left to return. -/
structure LeftToReturn (it : IteratedBitmap) (iterator : TBMIterator) (rest : Remaining) :
    Prop where
  lossy : rest.lossy = chunksRest it.schunks iterator.schunkptr iterator.schunkbit
  pages : rest.pages = it.pages.drop iterator.spageptr
  bound : iterator.schunkptr ≤ it.schunks.length

theorem IteratedBitmap.getElem?_pages {i : Nat} (hi : i < it.pages.length) :
    it.pages[i]? = some (it.pageAt i) := by
  unfold pages at hi ⊢
  unfold pageAt
  split at hi
  next entry1 hs =>
    have hi0 : i = 0 := by simpa using hi
    rw [hi0]
    rfl
  · rw [getD_eq_getElem?_getD, getElem?_eq_getElem hi]
    rfl

theorem iteratePages_merges (h : it.Ready) {itr : TBMIterator} (hr : LeftToReturn it itr rest) :
    (iteratePages it itr).1 = rest.pages.head?.map exactResult ∧
      LeftToReturn it (iteratePages it itr).2 { rest with pages := rest.pages.tail } := by
  unfold iteratePages
  split
  next hlt =>
    rw [h.npages] at hlt
    refine ⟨?_, hr.lossy, ?_, hr.bound⟩
    · rw [hr.pages, head?_drop, it.getElem?_pages hlt]
      rfl
    rw [hr.pages, tail_drop]
  next hge =>
    rw [h.npages] at hge
    have hn : rest.pages = [] := by
      rw [hr.pages]
      exact drop_of_length_le (by omega)
    rw [hn]
    exact ⟨rfl, hr.lossy, by rw [← hr.pages, hn]; rfl, hr.bound⟩

/-- One call of `tbm_iterate` is one step of the merge. -/
theorem tbmIterate_merges (h : it.Ready) {itr : TBMIterator} (hr : LeftToReturn it itr rest) :
    (tbmIterate it itr).1 = (mergeStep rest).1 ∧
      LeftToReturn it (tbmIterate it itr).2 (mergeStep rest).2 := by
  obtain ⟨ptr, bit, hlp, hs, he⟩ := @iterateChunks_spec it.schunks
    (it.tbm.nchunks - itr.schunkptr) itr (by
      rw [h.nchunks]
      have hb := hr.bound
      omega)
  obtain ⟨lossy, pages⟩ := rest
  -- after the loop the same remains
  have ha : LeftToReturn it { itr with schunkptr := ptr, schunkbit := bit } ⟨lossy, pages⟩ := by
    refine ⟨hr.lossy.trans hs.symm, hr.pages, ?_⟩
    simp only
    omega
  obtain ⟨hpg, hp⟩ := iteratePages_merges h ha
  have hl : lossy = chunksRest it.schunks ptr bit := ha.lossy
  unfold tbmIterate
  simp only [hlp]
  obtain hpt | ⟨hpt, hbt, hst⟩ := he
  · -- no lossy pages remain
    have hn : lossy = [] := by rw [hl, chunksRest, drop_of_length_le (by omega)]
    rw [if_neg (by rw [h.nchunks]; omega)]
    subst hn
    cases pages with
    | nil | cons page pages => exact ⟨hpg, hp⟩
  rw [if_pos (by rw [h.nchunks]; omega)]
  have hc : lossy = ((it.schunks.getD ptr default).blockno + bit) ::
      chunksRest it.schunks ptr (bit + 1) := by
    rw [hl, chunksRest_of_lt hpt, chunksRest_of_lt hpt, chunkRest_of_bit hbt hst]
    rfl
  have hnx : LeftToReturn it { itr with schunkptr := ptr, schunkbit := bit + 1 }
      ⟨chunksRest it.schunks ptr (bit + 1), pages⟩ :=
    ⟨rfl, hr.pages, le_of_lt hpt⟩
  rw [hc] at hpg hp ⊢
  have hps : 0 < it.tbm.nchunks := by
    rw [h.nchunks]
    omega
  cases pages with
  | nil =>
    have ho : itr.spageptr ≥ it.tbm.npages := by
      rw [h.npages]
      simpa using hr.pages.symm
    rw [if_pos (.inl ho)]
    exact ⟨rfl, hnx⟩
  | cons page pages =>
    have hlt : itr.spageptr < it.pages.length := by
      by_contra hge
      have hn := hr.pages
      rw [drop_of_length_le (by omega)] at hn
      cases hn
    have hh : it.spages.getD itr.spageptr default = page := by
      have hf := congrArg List.head? hr.pages
      rw [head?_drop] at hf
      rw [← h.hash hps, getD_eq_getElem?_getD, ← hf]
      rfl
    simp only [hh, mergeStep]
    by_cases hls : (it.schunks.getD ptr default).blockno + bit < page.blockno
    · rw [if_pos (.inr hls), if_pos hls]
      exact ⟨rfl, hnx⟩
    rw [if_neg (by rw [h.npages]; omega), if_neg hls]
    exact ⟨hpg, hp⟩

/-- Calls of `tbm_iterate` return these results one after another, and then `NULL`. -/
inductive Returns (it : IteratedBitmap) : TBMIterator → List TBMIterateResult → Prop
  | done {iterator} (h : (tbmIterate it iterator).1 = none) : Returns it iterator []
  | next {iterator result results} (h : (tbmIterate it iterator).1 = some result)
      (hrest : Returns it (tbmIterate it iterator).2 results) : Returns it iterator (result :: results)

namespace Remaining

structure Sorted (rest : Remaining) : Prop where
  lossy : rest.lossy.Pairwise (· < ·)
  pages : rest.pages.Pairwise fun left right => left.blockno < right.blockno
  apart : ∀ blockno ∈ rest.lossy, ∀ page ∈ rest.pages, blockno ≠ page.blockno

def Has (rest : Remaining) (result : TBMIterateResult) : Prop :=
  (∃ blockno ∈ rest.lossy, result = lossyResult blockno) ∨
    ∃ page ∈ rest.pages, result = exactResult page

theorem mergeStep_cases {rest : Remaining} (h : rest.Sorted) :
    ((mergeStep rest).1 = none ∧ ∀ result, ¬ rest.Has result) ∨
      ∃ result, (mergeStep rest).1 = some result ∧ (mergeStep rest).2.Sorted ∧
        (mergeStep rest).2.lossy.length + (mergeStep rest).2.pages.length <
          rest.lossy.length + rest.pages.length ∧
        (∀ other, rest.Has other ↔ other = result ∨ (mergeStep rest).2.Has other) ∧
        ∀ other, (mergeStep rest).2.Has other → result.blockno < other.blockno := by
  obtain ⟨lossy, pages⟩ := rest
  obtain ⟨hl, hpg, ha⟩ := h
  cases lossy with
  | nil =>
    cases pages with
    | nil =>
      left
      refine ⟨rfl, fun result => ?_⟩
      simp [Has]
    | cons page pages =>
      right
      rw [pairwise_cons] at hpg
      refine ⟨exactResult page, rfl, ⟨.nil, hpg.2, by simp [mergeStep]⟩, by simp [mergeStep],
        fun other => by simp [Has, mergeStep], ?_⟩
      rintro other (⟨blockno, hb, _⟩ | ⟨page', hp, rfl⟩)
      · cases hb
      · exact hpg.1 page' hp
  | cons blockno lossy =>
    rw [pairwise_cons] at hl
    have hs : ∀ other, (Remaining.mk lossy pages).Has other →
        (∀ page ∈ pages, blockno < page.blockno) → blockno < other.blockno := by
      rintro other (⟨blockno', hb, rfl⟩ | ⟨page', hp, rfl⟩) hf
      · exact hl.1 blockno' hb
      · exact hf page' hp
    have hh : ∀ other, (Remaining.mk (blockno :: lossy) pages).Has other ↔
        other = lossyResult blockno ∨ (Remaining.mk lossy pages).Has other := by
      intro other
      simp [Has, or_assoc]
    have hsr : (Remaining.mk lossy pages).Sorted :=
      ⟨hl.2, hpg, fun blockno' hb page hp => ha blockno' (mem_cons_of_mem _ hb) page hp⟩
    cases pages with
    | nil =>
      right
      exact ⟨lossyResult blockno, rfl, hsr, by simp [mergeStep], hh,
        fun other ho => hs other ho (by simp)⟩
    | cons page pages =>
      have hpg' := pairwise_cons.mp hpg
      right
      by_cases hls : blockno < page.blockno
      · have hst : mergeStep ⟨blockno :: lossy, page :: pages⟩ =
            (some (lossyResult blockno), ⟨lossy, page :: pages⟩) := by
          simp [mergeStep, hls]
        rw [hst]
        refine ⟨lossyResult blockno, rfl, hsr, by simp, hh, fun other ho => ?_⟩
        refine hs other ho fun page' hp => ?_
        obtain rfl | hp := mem_cons.mp hp
        · exact hls
        · exact hls.trans (hpg'.1 page' hp)
      have hst : mergeStep ⟨blockno :: lossy, page :: pages⟩ =
          (some (exactResult page), ⟨blockno :: lossy, pages⟩) := by
        simp [mergeStep, hls]
      have hg : page.blockno < blockno := by
        have hne := ha blockno mem_cons_self page mem_cons_self
        omega
      rw [hst]
      refine ⟨exactResult page, rfl, ⟨pairwise_cons.mpr hl, hpg'.2, fun blockno' hb page' hp =>
        ha blockno' hb page' (mem_cons_of_mem _ hp)⟩, by simp, fun other => ?_, ?_⟩
      · simp only [Has, mem_cons, exists_eq_or_imp]
        exact or_left_comm
      rintro other (⟨blockno', hb, rfl⟩ | ⟨page', hp, rfl⟩)
      · obtain rfl | hb := mem_cons.mp hb
        · exact hg
        · exact hg.trans (hl.1 blockno' hb)
      · exact hpg'.1 page' hp

end Remaining

/-- An iteration returns all that remains, in the order of the block numbers. -/
theorem returns_all (h : it.Ready) {itr : TBMIterator}
    (hrs : LeftToReturn it itr rest) (hs : rest.Sorted) :
    ∃ results, Returns it itr results ∧
      results.Pairwise (fun left right => left.blockno < right.blockno) ∧
      ∀ result, result ∈ results ↔ rest.Has result := by
  obtain ⟨n, hn⟩ : ∃ n, rest.lossy.length + rest.pages.length = n := ⟨_, rfl⟩
  induction n using Nat.strong_induction_on generalizing itr rest with
  | _ n ih =>
    obtain ⟨hr, ha⟩ := tbmIterate_merges h hrs
    rcases Remaining.mergeStep_cases hs with ⟨hnn, he⟩ |
      ⟨result, hsm, hs', hl, hh, hf⟩
    · refine ⟨[], .done (hr.trans hnn), .nil, fun result => ?_⟩
      simp [he result]
    obtain ⟨results, hrt, hp, hm⟩ := ih _ (hn ▸ hl) ha hs' rfl
    refine ⟨result :: results, .next (hr.trans hsm) hrt, ?_, fun other => ?_⟩
    · rw [pairwise_cons]
      exact ⟨fun other ho => hf other ((hm other).mp ho), hp⟩
    rw [mem_cons, hm, hh]

/-! ## What an iteration starts with -/

theorem mem_chunkRest {blockno : Nat} :
    blockno ∈ chunkRest chunk 0 ↔
      ∃ bit < pagesPerChunk, chunk.bit bit = true ∧ blockno = chunk.blockno + bit := by
  simp only [chunkRest, mem_map, mem_filter, mem_range'_1, Nat.zero_add, Nat.sub_zero,
    zero_le, true_and, and_assoc, eq_comm]

theorem flatMap_chunkRest_sorted {chunks : List PagetableEntry}
    (ha : ∀ chunk ∈ chunks, chunk.blockno % pagesPerChunk = 0)
    (hs : chunks.Pairwise fun left right => left.blockno < right.blockno) :
    (chunks.flatMap (chunkRest · 0)).Pairwise (· < ·) := by
  induction chunks with
  | nil => exact .nil
  | cons chunk chunks ih =>
    rw [pairwise_cons] at hs
    rw [flatMap_cons, pairwise_append]
    refine ⟨?_, ih (fun c hc => ha c (mem_cons_of_mem _ hc)) hs.2, ?_⟩
    · have hb : ((List.range' 0 (pagesPerChunk - 0)).filter chunk.bit).Pairwise (· < ·) :=
        (pairwise_lt_range' 1).filter _
      exact hb.map _ fun a b hab => Nat.add_lt_add_left hab _
    intro left hl right hr
    obtain ⟨next, hn, hr⟩ := mem_flatMap.mp hr
    obtain ⟨bit, hbt, _, rfl⟩ := mem_chunkRest.mp hl
    obtain ⟨bit', _, _, rfl⟩ := mem_chunkRest.mp hr
    have hlt := hs.1 next hn
    have hm := ha chunk mem_cons_self
    have hm' := ha next (mem_cons_of_mem _ hn)
    rw [pagesPerChunk_eq] at hbt hm hm'
    omega

section BeginIterate

variable {tbm : TIDBitmap} {order : List PagetableEntry}

theorem mem_tbmBeginIterate (h : tbm.Valid) (ho : tbm.ScanOrder order) (page : PagetableEntry) :
    (page ∈ (tbmBeginIterate order tbm).1.pages ↔
      tbm.entry page.blockno = some page ∧ page.ischunk = false) ∧
    (page ∈ (tbmBeginIterate order tbm).1.schunks ↔
      tbm.entry page.blockno = some page ∧ page.ischunk = true) := by
  rw [← mem_entries]
  cases hs : tbm.status with
  | empty => simp [tbmBeginIterate, hs, pages, entries,
      tbmCreatePagetable, KeyedTable.empty]
  | onePage entry1 =>
    have he := h.onePage entry1 hs
    simp only [tbmBeginIterate, hs, pages, entries, tbmCreatePagetable,
      KeyedTable.put, KeyedTable.putList, KeyedTable.empty, mem_singleton, not_mem_nil, false_iff]
    refine ⟨⟨fun heq => ⟨heq, heq ▸ he⟩, fun hb => hb.1⟩, ?_⟩
    rintro ⟨rfl, hc⟩
    rw [he] at hc
    cases hc
  | hash pt =>
    simp only [tbmBeginIterate, hs, pages, entries, tbmCreatePagetable,
      sortPages, mem_insertionSort, mem_filter, (ho pt hs).mem_iff]
    simp

theorem ready_tbmBeginIterate (h : tbm.Valid) (ho : tbm.ScanOrder order) :
    (tbmBeginIterate order tbm).1.Ready := by
  have hc := h.counted
  cases hs : tbm.status with
  | empty =>
    rw [hs] at hc
    simp only [tbmBeginIterate, hs]
    refine ⟨hc.nchunks, ?_, fun _ => ?_⟩
    · simp only [pages, hs]
      exact hc.npages
    simp only [pages, hs]
  | onePage entry1 =>
    have hon := h.counts_onePage hs
    simp only [tbmBeginIterate, hs]
    exact ⟨hon.2, by simpa [pages, hs] using hon.1, fun hps => by simp [hon.2] at hps⟩
  | hash pt =>
    rw [hs] at hc
    have hp := ho pt hs
    simp only [tbmBeginIterate, hs]
    refine ⟨?_, ?_, fun _ => by simp only [pages, hs]⟩
    · simp only [sortPages, length_insertionSort, ← countP_eq_length_filter]
      exact hc.nchunks.trans (hp.countP_eq _).symm
    simp only [pages, hs, sortPages, length_insertionSort, ← countP_eq_length_filter]
    exact hc.npages.trans (hp.countP_eq _).symm

def toReturn (it : IteratedBitmap) : Remaining := ⟨it.schunks.flatMap (chunkRest · 0), it.pages⟩

theorem leftToReturn_tbmBeginIterate (order : List PagetableEntry) (tbm : TIDBitmap) :
    LeftToReturn (tbmBeginIterate order tbm).1 (tbmBeginIterate order tbm).2
      (toReturn (tbmBeginIterate order tbm).1) := by
  have hs : (tbmBeginIterate order tbm).2 = { spageptr := 0, schunkptr := 0, schunkbit := 0 } := by
    unfold tbmBeginIterate
    split <;> rfl
  rw [hs]
  refine ⟨?_, rfl, Nat.zero_le _⟩
  rw [chunksRest, drop_zero]
  cases hc : (tbmBeginIterate order tbm).1.schunks with
  | nil | cons chunk chunks => simp [toReturn, hc]

theorem mem_lossy_toReturn (h : tbm.Valid) (ho : tbm.ScanOrder order) (pag : Nat) :
    pag ∈ (toReturn (tbmBeginIterate order tbm).1).lossy ↔ lossyIn tbm.entry pag = true := by
  simp only [toReturn, mem_flatMap, (mem_tbmBeginIterate h ho _).2, mem_chunkRest]
  rw [lossyIn, Option.any_eq_true]
  constructor
  · rintro ⟨chunk, ⟨he, hc⟩, bit, hbi, hs, rfl⟩
    obtain ⟨hm, hch⟩ := chunkOf_add (h.aligned _ _ he hc) hbi
    exact ⟨chunk, by rw [hch, he], by rw [hm, hc, hs]; rfl⟩
  · rintro ⟨chunk, he, hbt⟩
    rw [Bool.and_eq_true] at hbt
    have hb := blockno_of_entry he
    exact ⟨chunk, ⟨hb ▸ he, hbt.1⟩, pag % pagesPerChunk, Nat.mod_lt _ (by decide),
      hbt.2, by rw [hb, chunkOf_add_mod]⟩

theorem sorted_toReturn (h : tbm.Valid) (ho : tbm.ScanOrder order) :
    (toReturn (tbmBeginIterate order tbm).1).Sorted where
  lossy := by
    refine flatMap_chunkRest_sorted (fun chunk hch => ?_) ?_
    · obtain ⟨he, hc⟩ := (mem_tbmBeginIterate h ho chunk).2.mp hch
      exact h.aligned _ _ he hc
    unfold tbmBeginIterate
    split
    next pt hs =>
      exact sortPages_sorted
        ((((ho pt hs).map _).nodup_iff.mpr pt.nodup).sublist
          (filter_sublist.map _))
    · exact .nil
  pages := by
    cases hs : tbm.status with
    | empty | onePage entry1 => simp [toReturn, pages, tbmBeginIterate, hs]
    | hash pt =>
      simp only [toReturn, pages, tbmBeginIterate, hs]
      exact sortPages_sorted
        ((((ho pt hs).map _).nodup_iff.mpr pt.nodup).sublist
          (filter_sublist.map _))
  apart blockno hb page hp := by
    rw [mem_lossy_toReturn h ho] at hb
    obtain ⟨he, hc⟩ := (mem_tbmBeginIterate h ho page).1.mp hp
    rintro rfl
    rw [h.apart _ _ he hc] at hb
    cases hb

end BeginIterate

/-! ## Expressions -/

/-- A tuple identifier names a block: `BlockNumberIsValid`. -/
abbrev Tid := { tid : ItemPointerData // tid.block.toNat ≠ invalidBlockNumber }

inductive TbmExpr where
  | create (maxbytes : Int)
  | addTuples (a : TbmExpr) (tids : List Tid) (recheck : Bool)
  | addPage (a : TbmExpr) (pageno : BitVec 32)
  | union (a b : TbmExpr)
  | intersect (a b : TbmExpr)

/-- The bitmaps that can result, for any order in which the scans of the hash tables return
their entries.  In `addTuples`, `tbm_add_tuples` reports no error. -/
inductive Builds : TbmExpr → TIDBitmap → Prop
  | create (maxbytes : Int) : Builds (.create maxbytes) (tbmCreate maxbytes)
  | addTuples {e : TbmExpr} {a a' : TIDBitmap} {tids : List Tid} {recheck : Bool} (ha : Builds e a)
      (scans : Nat → List Nat) (hrun : tbmAddTuples scans a (tids.map (·.1)) recheck = .ok a') :
      Builds (.addTuples e tids recheck) a'
  | addPage {e : TbmExpr} {a : TIDBitmap} {pageno : BitVec 32} (ha : Builds e a)
      (visits : List Nat) : Builds (.addPage e pageno) (tbmAddPage visits a pageno.toNat)
  | union {e f : TbmExpr} {a b : TIDBitmap} (ha : Builds e a) (hb : Builds f b)
      (scans : Nat → List Nat) (order : List PagetableEntry) (horder : b.ScanOrder order) :
      Builds (.union e f) (tbmUnion scans order a b)
  | intersect {e f : TbmExpr} {a b : TIDBitmap} (ha : Builds e a) (hb : Builds f b)
      (order : List PagetableEntry) (horder : a.ScanOrder order) :
      Builds (.intersect e f) (tbmIntersect (order.map (·.blockno)) a b)

/-- The sets of tuples for which an expression can stand.  A tuple added with `recheck`, or
one on a page added as a whole, may be in the set or not. -/
inductive Denotes : TbmExpr → TidSet → Prop
  | create (maxbytes : Int) : Denotes (.create maxbytes) (fun _ => ∅)
  | addTuples {e : TbmExpr} {set : TidSet} (tids : List Tid) (h : Denotes e set) :
      Denotes (.addTuples e tids false) (set.withTids (tids.map (·.1)))
  | addRecheck {e : TbmExpr} {set set' : TidSet} (tids : List Tid) (h : Denotes e set)
      (hsub : ∀ k, set k ⊆ set' k) (hsup : ∀ k, set' k ⊆ set.withTids (tids.map (·.1)) k) :
      Denotes (.addTuples e tids true) set'
  | addPage {e : TbmExpr} {set set' : TidSet} (pageno : BitVec 32) (h : Denotes e set)
      (hsub : ∀ k, set k ⊆ set' k) (hsup : ∀ k, k ≠ pageno.toNat → set' k ⊆ set k) :
      Denotes (.addPage e pageno) set'
  | union {e f : TbmExpr} {set set' : TidSet} (h : Denotes e set) (h' : Denotes f set') :
      Denotes (.union e f) (fun k => set k ∪ set' k)
  | intersect {e f : TbmExpr} {set set' : TidSet} (h : Denotes e set) (h' : Denotes f set') :
      Denotes (.intersect e f) (fun k => set k ∩ set' k)

theorem tbmCreate_spec (maxbytes : Int) :
    (tbmCreate maxbytes).Valid ∧ (tbmCreate maxbytes).Sound (fun _ => ∅) (fun _ => ∅) := by
  have he : ∀ k, (tbmCreate maxbytes).entry k = none := entry_empty rfl
  have hn : ∀ k page, (tbmCreate maxbytes).entry k ≠ some page := by
    intro k page
    rw [he]
    exact nofun
  refine ⟨⟨⟨rfl, rfl, rfl⟩, nofun, fun k page hp => absurd hp (hn k page),
    fun k page hp => absurd hp (hn k page), ?_⟩, fun k => ?_⟩
  · simp only [tbmCreate, tbmCalculateEntries]
    omega
  have hv : viewIn (tbmCreate maxbytes).entry k = .absent := by
    rw [viewIn, lossyIn, exactIn, he, he]
    rfl
  rw [hv]
  exact fun off => Set.notMem_empty off

theorem exists_denotes (e : TbmExpr) : ∃ set, Denotes e set := by
  induction e with
  | create maxbytes => exact ⟨_, .create maxbytes⟩
  | addTuples a tids recheck ih =>
    obtain ⟨set, hs⟩ := ih
    cases recheck with
    | false => exact ⟨_, .addTuples tids hs⟩
    | true => exact ⟨set, .addRecheck tids hs (fun k => subset_rfl) fun k => Set.subset_union_left⟩
  | addPage a pageno ih =>
    obtain ⟨set, hs⟩ := ih
    exact ⟨set, .addPage pageno hs (fun k => subset_rfl) fun k _ => subset_rfl⟩
  | union a b iha ihb =>
    obtain ⟨⟨seta, ha⟩, ⟨setb, hb⟩⟩ := And.intro iha ihb
    exact ⟨_, .union ha hb⟩
  | intersect a b iha ihb =>
    obtain ⟨⟨seta, ha⟩, ⟨setb, hb⟩⟩ := And.intro iha ihb
    exact ⟨_, .intersect ha hb⟩

/-- However a bitmap is built, it is valid and bounds every set for which the expression can
stand. -/
theorem Builds.sound {e : TbmExpr} (h : Builds e tbm) {set : TidSet}
    (hs : Denotes e set) : tbm.Valid ∧ tbm.Sound set set := by
  induction h generalizing set with
  | create maxbytes =>
    cases hs
    exact tbmCreate_spec maxbytes
  | @addTuples e a a' tids recheck ha scans hr ih =>
    have hbl : ∀ tid ∈ tids.map (·.1), tid.block.toNat ≠ invalidBlockNumber := by
      intro tid ht
      obtain ⟨tid', _, rfl⟩ := mem_map.mp ht
      exact tid'.2
    cases hs with
    | addTuples tids hs => exact tbmAddTuples_sound (ih hs).1 (ih hs).2 hbl hr
    | addRecheck tids hs hsb hsp =>
      obtain ⟨hv, hsn⟩ := tbmAddTuples_sound (ih hs).1 (ih hs).2 hbl hr
      exact ⟨hv, hsn.mono hsp hsb⟩
  | addPage ha visits ih =>
    cases hs with
    | addPage pageno hs hsb hsp =>
      obtain ⟨hv, hsn⟩ := tbmAddPage_sound visits (ih hs).1 (ih hs).2 hsp
      exact ⟨hv, hsn.mono (fun k => subset_rfl) hsb⟩
  | union ha hb scans order ho iha ihb =>
    cases hs with
    | union hst hse => exact tbmUnion_sound (iha hst).1 (iha hst).2 (ihb hse).1 (ihb hse).2 ho
  | intersect ha hb order ho iha ihb =>
    cases hs with
    | intersect hst hse =>
      exact tbmIntersect_sound (iha hst).1 (iha hst).2 (ihb hse).1 (ihb hse).2 ho

theorem scanOrder_entries (tbm : TIDBitmap) : tbm.ScanOrder tbm.entries := by
  intro pt hs
  rw [entries, hs, tbmCreatePagetable]

/-! ## The results of an iteration -/

/-- The results report every tuple of the set, exactly or through a lossy page, an exact page
without `recheck` reports nothing else, and the pages come in order. -/
structure Reports (set : TidSet) (results : List TBMIterateResult) : Prop where
  complete : ∀ blockno, ∀ off ∈ set blockno, ∃ result ∈ results, result.blockno = blockno ∧
    (result.ntuples < 0 ∨ off ∈ result.offsets)
  exact : ∀ result ∈ results, 0 ≤ result.ntuples → result.recheck = false →
    ∀ off ∈ result.offsets, off ∈ set result.blockno
  ordered : results.Pairwise fun left right => left.blockno < right.blockno

theorem mem_tbmExtractPageTuple (page : PagetableEntry) (off : Nat) :
    off ∈ tbmExtractPageTuple page ↔ 1 ≤ off ∧ wordBit page.words (off - 1) = true := by
  rw [tbmExtractPageTuple, mem_scanWords]
  constructor
  · rintro ⟨k, _, hb, rfl⟩
    exact ⟨by omega, by rwa [Nat.add_sub_cancel_left]⟩
  · rintro ⟨hp, hb⟩
    have hl := wordBit_lt_length hb
    rw [page.hwords] at hl
    have hw : max wordsPerPage wordsPerChunk = wordsPerPage := by decide
    exact ⟨off - 1, by omega, hb, by omega⟩

theorem reports_of_sound (h : tbm.Valid) (ho : tbm.ScanOrder order) :
    ∃ results, Returns (tbmBeginIterate order tbm).1 (tbmBeginIterate order tbm).2 results ∧
      ∀ set, tbm.Sound set set → Reports set results := by
  obtain ⟨results, hrt, hor, hm⟩ := returns_all (ready_tbmBeginIterate h ho)
    (leftToReturn_tbmBeginIterate order tbm) (sorted_toReturn h ho)
  refine ⟨results, hrt, fun set hs => ⟨?_, ?_, hor⟩⟩
  · intro blockno off hof
    have hsn := hs blockno
    cases hl : lossyIn tbm.entry blockno with
    | true =>
      have hin := (mem_lossy_toReturn h ho blockno).mpr hl
      exact ⟨lossyResult blockno, (hm _).mpr (.inl ⟨blockno, hin, rfl⟩), rfl,
        .inl (by simp [lossyResult])⟩
    | false =>
      cases hex : exactIn tbm.entry blockno with
      | none =>
        rw [viewIn, hl, hex] at hsn
        exact absurd hof (hsn off)
      | some page =>
        obtain ⟨he, hc⟩ := exactIn_eq_some.mp hex
        rw [h.view_exact he hc] at hsn
        have hb := blockno_of_entry he
        have hin := (mem_tbmBeginIterate h ho page).1.mpr ⟨hb ▸ he, hc⟩
        exact ⟨exactResult page, (hm _).mpr (.inr ⟨page, hin, rfl⟩), hb,
          .inr ((mem_tbmExtractPageTuple page off).mpr (hsn.1 off hof))⟩
  intro result hrs hex hr off hof
  obtain ⟨blockno, _, rfl⟩ | ⟨page, hp, rfl⟩ := (hm result).mp hrs
  · exact absurd hex (by simp [lossyResult])
  obtain ⟨he, hc⟩ := (mem_tbmBeginIterate h ho page).1.mp hp
  have hsn := hs page.blockno
  rw [h.view_exact he hc] at hsn
  obtain ⟨hps, hbt⟩ := (mem_tbmExtractPageTuple page off).mp hof
  have hin := hsn.2 hr (off - 1) hbt
  rwa [Nat.sub_add_cancel hps] at hin

/-- **A bitmap is a sound over-approximation**: whatever expression built it, with any memory
limits and any scan orders, and whichever of the doubtful tuples are in the set. -/
theorem tidbitmap_sound (e : TbmExpr) (tbm : TIDBitmap) (hbuilds : Builds e tbm)
    (order : List PagetableEntry) (horder : tbm.ScanOrder order) :
    (∃ results, Returns (tbmBeginIterate order tbm).1 (tbmBeginIterate order tbm).2 results ∧
      ∀ set, Denotes e set → Reports set results) ∧
      tbm.npages = tbm.entries.countP (fun page => !page.ischunk) ∧
      tbm.nchunks = tbm.entries.countP (fun page => page.ischunk) ∧
      tbm.nentries = tbm.entries.length := by
  obtain ⟨set, hs⟩ := exists_denotes e
  have hv := (hbuilds.sound hs).1
  obtain ⟨results, hr, hrp⟩ := reports_of_sound hv horder
  exact ⟨⟨results, hr, fun set hs => hrp set (hbuilds.sound hs).2⟩,
    hv.counted.npages, hv.counted.nchunks, hv.counted.nentries⟩

/-! A tuple on page 5, and page 300 as a whole. -/

def mixedExpr : TbmExpr :=
  .union (.addTuples (.create 0) [⟨⟨5, 3⟩, by decide⟩] false) (.addPage (.create 0) 300)

def tupleBitmap : TIDBitmap := (tbmGetPageentry (tbmCreate 0) 5).modifyEntry 5 (addTupleBit 3 false)

def pageBitmap : TIDBitmap := tbmAddPage [] (tbmCreate 0) 300

def mixedBitmap : TIDBitmap := tbmUnion (fun _ => []) pageBitmap.entries tupleBitmap pageBitmap

theorem builds_mixedBitmap : Builds mixedExpr mixedBitmap :=
  .union (.addTuples (.create 0) (fun _ => []) (by decide +kernel)) (.addPage (.create 0) [])
    (fun _ => []) pageBitmap.entries (scanOrder_entries pageBitmap)

theorem tidbitmap_sound_mixed :
    (∃ results, Returns (tbmBeginIterate mixedBitmap.entries mixedBitmap).1
        (tbmBeginIterate mixedBitmap.entries mixedBitmap).2 results ∧
      ∀ set, Denotes mixedExpr set → Reports set results) ∧
      mixedBitmap.npages = mixedBitmap.entries.countP (fun page => !page.ischunk) ∧
      mixedBitmap.nchunks = mixedBitmap.entries.countP (fun page => page.ischunk) ∧
      mixedBitmap.nentries = mixedBitmap.entries.length :=
  tidbitmap_sound mixedExpr mixedBitmap builds_mixedBitmap mixedBitmap.entries
    (scanOrder_entries mixedBitmap)

/-- **Private and shared iteration agree**: for a bitmap in any state, and whichever of the
attached iterators makes each call, the results in call order are those that a private
iterator obtains. -/
theorem shared_iteration_agrees (tbm : TIDBitmap) (h : tbm.Valid) (order : List PagetableEntry)
    (horder : tbm.ScanOrder order) (ptentry : List PagetableEntry) (indexes : List Nat)
    (hindexes : tbm.ScanOrder (indexes.map (ptentry.getD · default)))
    (events : List SharedEvent) :
    sharedRun events [] (tbmPrepareSharedIterate ptentry indexes tbm) =
      privateRun (sharedRun events [] (tbmPrepareSharedIterate ptentry indexes tbm)).length
        (tbmBeginIterate order tbm).1 (tbmBeginIterate order tbm).2 := by
  have hsm := sameArrays h horder hindexes
  have hb : (tbmBeginIterate order tbm).1.tbm = tbm := by
    unfold tbmBeginIterate
    split <;> rfl
  have hst : (tbmPrepareSharedIterate ptentry indexes tbm).at (tbmBeginIterate order tbm).2 =
      tbmPrepareSharedIterate ptentry indexes tbm := by
    unfold tbmBeginIterate tbmPrepareSharedIterate
    cases tbm.status <;> rfl
  have hc : (tbmPrepareSharedIterate ptentry indexes tbm).npages = tbm.npages ∧
      (tbmPrepareSharedIterate ptentry indexes tbm).nchunks = tbm.nchunks := by
    unfold tbmPrepareSharedIterate
    cases tbm.status <;> exact ⟨rfl, rfl⟩
  have hr := sharedRun_eq (hc.1.trans (congrArg npages hb.symm))
    (hc.2.trans (congrArg nchunks hb.symm)) hsm events
    (fun shared hs => absurd hs not_mem_nil) (tbmBeginIterate order tbm).2
  rwa [hst] at hr

/-- Two processes share the iteration. -/
theorem shared_iteration_agrees_mixed :
    (sharedRun [.attach, .call 0, .attach, .call 1, .call 0] []
      (tbmPrepareSharedIterate mixedBitmap.entries [1, 0] mixedBitmap)).length = 3 ∧
    sharedRun [.attach, .call 0, .attach, .call 1, .call 0] []
      (tbmPrepareSharedIterate mixedBitmap.entries [1, 0] mixedBitmap) =
    privateRun (sharedRun [.attach, .call 0, .attach, .call 1, .call 0] []
      (tbmPrepareSharedIterate mixedBitmap.entries [1, 0] mixedBitmap)).length
      (tbmBeginIterate mixedBitmap.entries mixedBitmap).1
      (tbmBeginIterate mixedBitmap.entries mixedBitmap).2 := by
  obtain ⟨set, hst⟩ := exists_denotes mixedExpr
  refine ⟨by decide +kernel, shared_iteration_agrees mixedBitmap (builds_mixedBitmap.sound hst).1
    mixedBitmap.entries (scanOrder_entries mixedBitmap) mixedBitmap.entries [1, 0] ?_ _⟩
  intro pagetable hs
  refine List.Perm.trans ?_ (scanOrder_entries mixedBitmap pagetable hs)
  decide +kernel

end AthenaPG
