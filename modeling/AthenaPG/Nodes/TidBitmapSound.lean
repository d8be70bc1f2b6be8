import AthenaPG.Nodes.TidBitmap

/-!
Tuple-id bitmaps (`src/backend/nodes/tidbitmap.c`): the operations keep the bounds.

If two bitmaps bound two sets of tuples, the result of an operation on them bounds the
result of the operation on the sets, whatever the order in which the hash tables are
scanned and whatever `tbm_lossify` does in between.

* `tbmAddTuples_sound`: an entry remembered between rounds is still there.
* `tbmUnion_sound`: each entry returned by the scan adds the pages it covers.
* `tbmIntersect_sound`: each entry of `a` is replaced once.
-/

namespace AthenaPG
open List PagetableEntry KeyedTable TIDBitmap
open Option (any_some bind_some)

/-! ## Adding tuples -/

variable (set : TidSet)

def TidSet.withTid (tid : ItemPointerData) : TidSet := fun pageno =>
  set pageno ∪ { off | tid.block.toNat = pageno ∧ tid.offset.toNat = off }

def TidSet.withTids (tids : List ItemPointerData) : TidSet := fun pageno =>
  set pageno ∪ { off | ∃ tid ∈ tids, tid.block.toNat = pageno ∧ tid.offset.toNat = off }

theorem TidSet.withTids_cons (tid : ItemPointerData) (tids : List ItemPointerData) :
    set.withTids (tid :: tids) = (set.withTid tid).withTids tids := by
  funext pno
  ext off
  simp only [withTids, withTid, mem_cons, or_and_right, exists_or, exists_eq_left, Set.mem_union,
    Set.mem_ofPred_eq, or_assoc]

variable {tid : ItemPointerData} {tbm : TIDBitmap} {may must : TidSet} {page : PagetableEntry}
  {s s' : AddTuplesState} {recheck : Bool} {scans : Nat → List Nat} {may' : TidSet} {a : TIDBitmap}
  {ap : PagetableEntry} {b : TIDBitmap} {mayb mustb maya musta : TidSet}

theorem TidSet.withTid_of_ne {pno : Nat} (h : pno ≠ tid.block.toNat) :
    set.withTid tid pno = set pno := by
  ext off
  constructor
  · rintro (hs | ⟨hb, _⟩)
    · exact hs
    · exact absurd hb.symm h
  · exact .inl

def TidSet.withSure (recheck : Bool) (tid : ItemPointerData) : TidSet :=
  if recheck then set else set.withTid tid

/-- The invariant of the loop of `tbm_add_tuples`: unless a new lookup is forced, the page
is known to be lossy or its entry is there. -/
structure AddTuplesInv (may must : TidSet) (s : AddTuplesState) : Prop where
  valid : s.tbm.Valid
  sound : s.tbm.Sound may must
  lossy : s.currblk ≠ invalidBlockNumber → s.page = none → lossyIn s.tbm.entry s.currblk = true
  there : s.currblk ≠ invalidBlockNumber → ∀ k, s.page = some k →
    k = s.currblk ∧ ∃ page, s.tbm.entry k = some page

theorem addTupleBit_blockno (off : Nat) (recheck : Bool) (page : PagetableEntry) :
    (addTupleBit off recheck page).blockno = page.blockno := by
  cases hc : page.ischunk <;> simp [addTupleBit, hc]

theorem addTupleBit_sound (h : tbm.Valid) (hs : tbm.Sound may must) (recheck : Bool)
    (hof : 1 ≤ tid.offset.toNat ∧ tid.offset.toNat ≤ maxTuplesPerPage)
    (hp : tbm.entry tid.block.toNat = some page) :
    (tbm.modifyEntry tid.block.toNat (addTupleBit tid.offset.toNat recheck)).Valid ∧
      (tbm.modifyEntry tid.block.toNat (addTupleBit tid.offset.toNat recheck)).Sound
        (may.withTid tid) (must.withSure recheck tid) := by
  have hky := addTupleBit_blockno tid.offset.toNat recheck page
  have hkn : (addTupleBit tid.offset.toNat recheck page).ischunk = page.ischunk := by
    cases hc : page.ischunk <;> simp [addTupleBit, hc]
  have hch : page.ischunk = true → ∀ j,
      (addTupleBit tid.offset.toNat recheck page).bit j = (page.bit j || decide (j = 0)) := by
    intro hc j
    have hb := page.bit_setBit (k := 0) (by decide) j
    rw [← hb]
    simp [addTupleBit, hc, PagetableEntry.bit]
  refine ⟨h.modifyEntry hp hky hkn hch, modifyEntry_sound h hs hp hky hkn hch ?_ ?_ ?_⟩
  · intro hc
    have hmx : maxTuplesPerPage ≤ wordsPerPage * 64 := by decide
    have hb := page.bit_setBit (k := tid.offset.toNat - 1) (by omega)
    have hw : ∀ k, wordBit (addTupleBit tid.offset.toNat recheck page).words k =
        (wordBit page.words k || decide (k = tid.offset.toNat - 1)) := by
      intro k
      rw [← bit_eq page, ← hb, bit_eq]
      simp [addTupleBit, hc]
    have ho := hs tid.block.toNat
    rw [h.view_exact hp hc] at ho
    constructor
    · rintro off (hm | ⟨_, rfl⟩)
      · obtain ⟨hps, hst⟩ := ho.1 off hm
        exact ⟨hps, by simp [hw, hst]⟩
      · exact ⟨hof.1, by simp [hw]⟩
    · intro hr k hk
      have hr' : page.recheck = false ∧ recheck = false := by simpa [addTupleBit, hc] using hr
      rw [TidSet.withSure, hr'.2]
      rw [hw, Bool.or_eq_true, decide_eq_true_eq] at hk
      obtain hk | rfl := hk
      · exact .inl (ho.2 hr'.1 k hk)
      · exact .inr ⟨rfl, by omega⟩
  · intro k hk
    rw [TidSet.withTid_of_ne _ hk]
  intro k hk
  unfold TidSet.withSure
  split
  · exact subset_rfl
  · rw [TidSet.withTid_of_ne _ hk]

theorem addTuple_lookup (h : AddTuplesInv may must s) {blk : Nat}
    (hs' : s' = if blk ≠ s.currblk then
        if tbmPageIsLossy s.tbm blk then { s with page := none, currblk := blk }
        else { tbm := tbmGetPageentry s.tbm blk, page := some blk, currblk := blk }
      else s) :
    AddTuplesInv may must s' ∧ s'.currblk = blk := by
  subst hs'
  split
  · rw [h.valid.pageIsLossy]
    split <;> rename_i hl
    · refine ⟨⟨h.valid, h.sound, fun _ _ => hl, fun _ k hk => ?_⟩, rfl⟩
      cases hk
    · obtain ⟨hv, hsn, he⟩ := tbmGetPageentry_spec h.valid h.sound (by simpa using hl)
      refine ⟨⟨hv, hsn, fun _ hk => ?_, fun _ k hk => ?_⟩, rfl⟩
      · cases hk
      cases hk
      exact ⟨rfl, he⟩
  next hc => exact ⟨h, (not_not.mp hc).symm⟩

theorem addTuple_spec {visit : List Nat} (h : AddTuplesInv may must s)
    (hb : tid.block.toNat ≠ invalidBlockNumber) (hst : addTuple recheck visit s tid = .ok s') :
    AddTuplesInv (may.withTid tid) (must.withSure recheck tid) s' := by
  unfold addTuple at hst
  simp only at hst
  split at hst
  · cases hst
  rename_i ho
  obtain ⟨s₁, hs₁⟩ : ∃ s₁, s₁ = if tid.block.toNat ≠ s.currblk then
      if tbmPageIsLossy s.tbm tid.block.toNat then
        { s with page := none, currblk := tid.block.toNat }
      else
        { tbm := tbmGetPageentry s.tbm tid.block.toNat, page := some tid.block.toNat,
          currblk := tid.block.toNat }
    else s := ⟨_, rfl⟩
  rw [← hs₁] at hst
  obtain ⟨hi, hc⟩ := addTuple_lookup h hs₁
  have hv := hc ▸ hb
  split at hst
  · -- the whole page is already marked
    rename_i hp
    cases hst
    have hls := hi.lossy hv hp
    refine ⟨hi.valid, fun k => ?_, hi.lossy, hi.there⟩
    by_cases hk : k = tid.block.toNat
    · rw [hk, ← hc, viewIn_lossy hls]
      trivial
    refine (hi.sound k).mono ?_ ?_
    · rw [TidSet.withTid_of_ne _ hk]
    unfold TidSet.withSure
    split
    · exact subset_rfl
    · rw [TidSet.withTid_of_ne _ hk]
  rename_i key hp
  obtain ⟨hky, page, he⟩ := hi.there hv key hp
  rw [hky, hc] at he hst
  obtain ⟨hvl, hsn⟩ := addTupleBit_sound hi.valid hi.sound recheck
    (by omega) he
  split at hst
  · cases hst
    obtain ⟨hl, hcr⟩ := tbmLossify_spec visit hvl
    exact ⟨hl, hsn.coarser hcr, fun hne => absurd rfl hne, fun hne => absurd rfl hne⟩
  cases hst
  refine ⟨hvl, hsn, fun _ hn => ?_, fun _ k hk => ?_⟩
  · rw [hp] at hn
    cases hn
  have hk' := (hi.there hv k hk).1.trans hc
  subst hk'
  exact ⟨rfl, _, (entry_modifyEntry he (addTupleBit_blockno ..) _).trans (if_pos rfl)⟩

/-- The tuples that the set has for certain after adding several. -/
def TidSet.withSures (recheck : Bool) (tids : List ItemPointerData) : TidSet :=
  if recheck then set else set.withTids tids

theorem TidSet.withSures_cons (recheck : Bool) (tid : ItemPointerData)
    (tids : List ItemPointerData) :
    set.withSures recheck (tid :: tids) = (set.withSure recheck tid).withSures recheck tids := by
  cases recheck with
  | true => rfl
  | false => exact withTids_cons set tid tids

theorem addTuplesLoop_spec {tids : List ItemPointerData} (h : AddTuplesInv may must s)
    (hb : ∀ tid ∈ tids, tid.block.toNat ≠ invalidBlockNumber)
    (hr : addTuplesLoop recheck scans tids s = .ok s') :
    AddTuplesInv (may.withTids tids) (must.withSures recheck tids) s' := by
  induction tids generalizing scans may must s with
  | nil =>
    cases hr
    have hn : ∀ set : TidSet, set.withTids [] = set := by
      intro set
      funext pno
      simp [TidSet.withTids]
    have hsr : must.withSures recheck [] = must := by
      unfold TidSet.withSures
      split
      · rfl
      · exact hn must
    rw [hn, hsr]
    exact h
  | cons tid tids ih =>
    rw [addTuplesLoop] at hr
    cases hs : addTuple recheck (scans 0) s tid with
    | error message =>
      rw [hs] at hr
      cases hr
    | ok s₁ =>
      rw [hs] at hr
      have hrn := addTuple_spec h (hb tid mem_cons_self) hs
      rw [TidSet.withTids_cons, TidSet.withSures_cons]
      exact ih hrn (fun tid' ht' => hb tid' (mem_cons_of_mem _ ht')) hr

/-- **`tbm_add_tuples`** -/
theorem tbmAddTuples_sound {tbm' : TIDBitmap} {tids : List ItemPointerData} (h : tbm.Valid)
    (hs : tbm.Sound may must) (hb : ∀ tid ∈ tids, tid.block.toNat ≠ invalidBlockNumber)
    (hr : tbmAddTuples scans tbm tids recheck = .ok tbm') :
    tbm'.Valid ∧ tbm'.Sound (may.withTids tids) (must.withSures recheck tids) := by
  unfold tbmAddTuples at hr
  cases hl : addTuplesLoop recheck scans tids
      { tbm := tbm, currblk := invalidBlockNumber, page := none } with
  | error message =>
    rw [hl] at hr
    cases hr
  | ok s =>
    rw [hl] at hr
    cases hr
    have hst : AddTuplesInv may must { tbm := tbm, currblk := invalidBlockNumber, page := none } :=
      ⟨h, hs, fun hne => absurd rfl hne, fun hne => absurd rfl hne⟩
    have he := addTuplesLoop_spec hst hb hl
    exact ⟨he.valid, he.sound⟩

/-! ## Union -/

/-- The entry says something about the page. -/
def PagetableEntry.Covers (page : PagetableEntry) (pageno : Nat) : Prop :=
  if page.ischunk then
    chunkOf pageno = page.blockno ∧ page.bit (pageno % pagesPerChunk) = true
  else pageno = page.blockno

theorem mem_scanWords_chunk (hc : page.ischunk = true) (ha : page.blockno % pagesPerChunk = 0)
    (pno : Nat) : pno ∈ scanWords wordsPerChunk page.words page.blockno ↔ page.Covers pno := by
  rw [mem_scanWords, PagetableEntry.Covers, if_pos hc]
  have hw : wordsPerChunk * 64 = pagesPerChunk := by decide
  rw [hw]
  constructor
  · rintro ⟨k, hk, hb, rfl⟩
    obtain ⟨hm, hch⟩ := chunkOf_add ha hk
    rw [hm, bit_eq]
    exact ⟨hch, hb⟩
  · rintro ⟨hch, hb⟩
    refine ⟨pno % pagesPerChunk, Nat.mod_lt _ (by decide), ?_, ?_⟩
    · rw [← bit_eq]
      exact hb
    rw [← hch, chunkOf_add_mod]

theorem foldl_tbmMarkPageLossy_sound (pages : List Nat) (h : tbm.Valid) (hs : tbm.Sound may must)
    (hmy : ∀ k, k ∉ pages → may' k ⊆ may k) :
    (pages.foldl tbmMarkPageLossy tbm).Valid ∧
      (pages.foldl tbmMarkPageLossy tbm).Sound may' must := by
  induction pages generalizing tbm may with
  | nil => exact ⟨h, hs.mono (fun k => hmy k not_mem_nil) fun k => subset_rfl⟩
  | cons page pages ih =>
    rw [foldl_cons]
    have hm : (tbmMarkPageLossy tbm page).Sound
        (fun k => may k ∪ { off | k = page ∧ off ∈ may' k }) must := by
      refine tbmMarkPageLossy_sound hs fun k hk => ?_
      rintro off (ho | ⟨hsl, _⟩)
      · exact ho
      · exact absurd hsl hk
    refine ih (h.markPageLossy page) hm fun k hk off ho => ?_
    by_cases hsl : k = page
    · exact .inr ⟨hsl, ho⟩
    · exact .inl (hmy k (by simp [hsl, hk]) ho)

theorem unionEntry_sound (h : a.Valid) (hs : a.Sound may must) {bpage : PagetableEntry}
    (ha : a.entry bpage.blockno = some ap) (ho : ∀ k, k ≠ bpage.blockno → may' k ⊆ may k)
    (he : ∀ off ∈ may' bpage.blockno, off ∈ may bpage.blockno ∨
      (1 ≤ off ∧ wordBit bpage.words (off - 1) = true))
    (hsr : bpage.recheck = false → ∀ k, wordBit bpage.words k = true → k + 1 ∈ must bpage.blockno) :
    (a.modifyEntry bpage.blockno fun ap => if ap.ischunk then ap.setBit 0 else ap.merge bpage).Valid ∧
      (a.modifyEntry bpage.blockno fun ap =>
        if ap.ischunk then ap.setBit 0 else ap.merge bpage).Sound may' must := by
  have hky : (if ap.ischunk then ap.setBit 0 else ap.merge bpage).blockno = ap.blockno := by
    split <;> rfl
  have hkn : (if ap.ischunk then ap.setBit 0 else ap.merge bpage).ischunk = ap.ischunk := by
    split <;> rfl
  have hch : ap.ischunk = true → ∀ j,
      (if ap.ischunk then ap.setBit 0 else ap.merge bpage).bit j =
        (ap.bit j || decide (j = 0)) := by
    intro hc j
    rw [if_pos hc]
    exact ap.bit_setBit (by decide) j
  refine ⟨h.modifyEntry ha hky hkn hch,
    modifyEntry_sound h hs ha hky hkn hch ?_ ho fun k _ => subset_rfl⟩
  intro hc
  have hol := hs bpage.blockno
  rw [h.view_exact ha hc] at hol
  simp only [hc, Bool.false_eq_true, if_false, PagetableEntry.merge]
  constructor
  · intro off hof
    rw [wordBit_orWords]
    obtain hm | ⟨hp, hb⟩ := he off hof
    · obtain ⟨hp, hb⟩ := hol.1 off hm
      exact ⟨hp, by simp [hb]⟩
    exact ⟨hp, by simp [hb]⟩
  · intro hr k hk
    rw [Bool.or_eq_false_iff] at hr
    rw [wordBit_orWords, Bool.or_eq_true] at hk
    obtain hk | hk := hk
    · exact hol.2 hr.1 k hk
    · exact hsr hr.2 k hk

theorem tbmUnionPage_sound (visit : List Nat) (h : a.Valid) (hs : a.Sound may must)
    {bpage : PagetableEntry} (ha : bpage.ischunk = true → bpage.blockno % pagesPerChunk = 0)
    (hcv : ∀ k, ¬ bpage.Covers k → may' k ⊆ may k)
    (he : bpage.ischunk = false → ∀ off ∈ may' bpage.blockno, off ∈ may bpage.blockno ∨
      (1 ≤ off ∧ wordBit bpage.words (off - 1) = true))
    (hsr : bpage.ischunk = false → bpage.recheck = false →
      ∀ k, wordBit bpage.words k = true → k + 1 ∈ must bpage.blockno) :
    (tbmUnionPage visit a bpage).Valid ∧ (tbmUnionPage visit a bpage).Sound may' must := by
  unfold tbmUnionPage
  cases hc : bpage.ischunk with
  | true =>
    have hm := foldl_tbmMarkPageLossy_sound
      (scanWords wordsPerChunk bpage.words bpage.blockno) h hs
      fun k hk => hcv k (mt (mem_scanWords_chunk hc (ha hc) k).mpr hk)
    obtain ⟨hv, hcr⟩ := lossifyIfOver_spec visit hm.1
    exact ⟨hv, hm.2.coarser hcr⟩
  | false =>
    have ho : ∀ k, k ≠ bpage.blockno → may' k ⊆ may k := by
      intro k hk
      exact hcv k (by simpa [PagetableEntry.Covers, hc] using hk)
    rw [if_neg Bool.false_ne_true, h.pageIsLossy]
    split
    · -- already lossy in `a`
      rename_i hl
      refine ⟨h, fun k => ?_⟩
      by_cases hk : k = bpage.blockno
      · rw [hk, viewIn_lossy hl]
        trivial
      exact (hs k).mono (ho k hk) subset_rfl
    next hl =>
      obtain ⟨hv, hsn, ap, hap⟩ := tbmGetPageentry_spec h hs (by simpa using hl)
      have hw := unionEntry_sound hv hsn hap ho (he hc) (hsr hc)
      obtain ⟨hlv, hcr⟩ := lossifyIfOver_spec visit hw.1
      exact ⟨hlv, hw.2.coarser hcr⟩

theorem exists_covers (hs : b.Sound may must) {pno off : Nat} (ho : off ∈ may pno) :
    ∃ page ∈ b.entries, page.Covers pno := by
  cases hl : lossyIn b.entry pno with
  | true =>
    rw [lossyIn, Option.any_eq_true] at hl
    obtain ⟨page, hp, hbt⟩ := hl
    rw [Bool.and_eq_true] at hbt
    have hb := blockno_of_entry hp
    refine ⟨page, mem_entries.mpr (hb ▸ hp), ?_⟩
    rw [PagetableEntry.Covers, if_pos hbt.1]
    exact ⟨hb.symm, hbt.2⟩
  | false =>
    cases he : exactIn b.entry pno with
    | none =>
      have hsn := hs pno
      rw [viewIn, hl, he] at hsn
      exact absurd ho (hsn off)
    | some page =>
      obtain ⟨hp, hc⟩ := exactIn_eq_some.mp he
      have hb := blockno_of_entry hp
      refine ⟨page, mem_entries.mpr (hb ▸ hp), ?_⟩
      simp [PagetableEntry.Covers, hc, hb]

theorem unionLoop_sound (hb : b.Valid) (hbs : b.Sound mayb mustb) (hm : ∀ k, mustb k ⊆ must k)
    (scan : Nat → List Nat) {bpage : List PagetableEntry}
    (hmm : ∀ page ∈ bpage, page ∈ b.entries) (h : a.Valid) (hs : a.Sound may must) :
    (unionLoop scan bpage a).Valid ∧ (unionLoop scan bpage a).Sound
      (fun k => may k ∪ { off | off ∈ mayb k ∧ ∃ page ∈ bpage, page.Covers k }) must := by
  induction bpage generalizing a scan may with
  | nil => exact ⟨h, by simpa [unionLoop] using hs⟩
  | cons bp bpage ih =>
    have he := mem_entries.mp (hmm bp mem_cons_self)
    have hv : bp.ischunk = false → (PageView.exact bp.recheck bp.words).Sound
        (mayb bp.blockno) (mustb bp.blockno) := by
      intro hc
      have hsn := hbs bp.blockno
      rwa [hb.view_exact he hc] at hsn
    have hpg : (tbmUnionPage (scan 0) a bp).Valid ∧
        (tbmUnionPage (scan 0) a bp).Sound
          (fun k => may k ∪ { off | off ∈ mayb k ∧ bp.Covers k }) must := by
      refine tbmUnionPage_sound (scan 0) h hs (hb.aligned _ _ he) ?_ ?_ ?_
      · rintro k hk off (ho | ⟨_, hcv⟩)
        · exact ho
        · exact absurd hcv hk
      · rintro hc off (ho | ⟨ho, _⟩)
        · exact .inl ho
        · exact .inr ((hv hc).1 off ho)
      intro hc hr k hk
      exact hm _ ((hv hc).2 hr k hk)
    obtain ⟨hvl, hsn⟩ := ih (fun i => scan (i + 1))
      (fun page hp => hmm page (mem_cons_of_mem _ hp)) hpg.1 hpg.2
    refine ⟨hvl, hsn.mono (fun k => ?_) fun k => subset_rfl⟩
    rintro off (ho | ⟨ho, page, hp, hcv⟩)
    · exact .inl (.inl ho)
    obtain rfl | hp := mem_cons.mp hp
    · exact .inl (.inr ⟨ho, hcv⟩)
    · exact .inr ⟨ho, page, hp, hcv⟩

/-- **`tbm_union`**, in whatever order `b` is scanned. -/
theorem tbmUnion_sound {order : List PagetableEntry} (ha : a.Valid) (has : a.Sound maya musta)
    (hb : b.Valid) (hbs : b.Sound mayb mustb) (hor : b.ScanOrder order) :
    (tbmUnion scans order a b).Valid ∧ (tbmUnion scans order a b).Sound
      (fun k => maya k ∪ mayb k) (fun k => musta k ∪ mustb k) := by
  have hst : a.Sound maya (fun k => musta k ∪ mustb k) :=
    has.mono (fun k => subset_rfl) fun k => Set.subset_union_left
  -- a scan of all entries, and the special cases, are such loops
  have hl : ∀ bpages : List PagetableEntry, bpages.Perm b.entries →
      (unionLoop scans bpages a).Valid ∧ (unionLoop scans bpages a).Sound
        (fun k => maya k ∪ mayb k) (fun k => musta k ∪ mustb k) := by
    intro bpages hpr
    obtain ⟨hv, hsn⟩ := unionLoop_sound hb hbs (fun k => Set.subset_union_right)
      scans (fun page hp => hpr.mem_iff.mp hp) ha hst
    refine ⟨hv, hsn.mono (fun k => ?_) fun k => subset_rfl⟩
    rintro off (ho | ho)
    · exact .inl ho
    obtain ⟨page, hp, hc⟩ := exists_covers hbs ho
    exact .inr ⟨ho, page, hpr.mem_iff.mpr hp, hc⟩
  unfold tbmUnion
  split
  next hn =>
    have hnl : b.entries = [] := length_eq_zero_iff.mp (hb.counted.nentries.symm.trans hn)
    exact hl [] (by rw [hnl])
  split
  next hs =>
    refine hl [] ?_
    simp [TIDBitmap.entries, hs, tbmCreatePagetable, empty]
  next entry1 hs =>
    refine hl [entry1] ?_
    simp [TIDBitmap.entries, hs, tbmCreatePagetable, empty, put, putList]
  next pt hs =>
    refine hl order ((hor pt hs).trans ?_)
    rw [TIDBitmap.entries, hs, tbmCreatePagetable]

/-! ## Intersection -/

variable (b)

/-- `b` says something about the page. -/
def inBitmap (pageno : Nat) : Bool := tbmPageIsLossy b pageno || (tbmFindPageentry b pageno).isSome

theorem getLsbD_foldl_intersect (pg : Nat) (bits : List Nat) (w : Bitmapword)
    {i : Nat} (hi : i < 64) :
    (bits.foldl (fun neww bitnum =>
      if !tbmPageIsLossy b (pg + bitnum) && (tbmFindPageentry b (pg + bitnum)).isNone then
        neww &&& ~~~(1#64 <<< bitnum)
      else neww) w).getLsbD i =
      (w.getLsbD i && (decide (i ∉ bits) || inBitmap b (pg + i))) := by
  induction bits generalizing w with
  | nil => simp
  | cons bit bits ih =>
    rw [foldl_cons, ih]
    by_cases hb : i = bit
    · subst hb
      cases hin : inBitmap b (pg + i) with
      | true =>
        have hk : (!tbmPageIsLossy b (pg + i) && (tbmFindPageentry b (pg + i)).isNone) = false := by
          rw [inBitmap, Bool.or_eq_true] at hin
          obtain hl | hf := hin
          · simp [hl]
          obtain ⟨page, hp⟩ := Option.isSome_iff_exists.mp hf
          simp [hp]
        simp [hk]
      | false =>
        have hls : (!tbmPageIsLossy b (pg + i) && (tbmFindPageentry b (pg + i)).isNone) = true := by
          rw [inBitmap, Bool.or_eq_false_iff] at hin
          simpa using hin
        simp [hls, BitVec.getLsbD_and, BitVec.getLsbD_not, getLsbD_one_shift i i hi]
    have ho : (if !tbmPageIsLossy b (pg + bit) && (tbmFindPageentry b (pg + bit)).isNone then
        w &&& ~~~(1#64 <<< bit) else w).getLsbD i = w.getLsbD i := by
      split
      · rw [BitVec.getLsbD_and, BitVec.getLsbD_not, BitVec.getLsbD_shiftLeft]
        by_cases hlt : i < bit
        · simp [hlt, hi]
        have hne : i - bit ≠ 0 := by omega
        simp [hlt, hi, BitVec.getLsbD_one, hne]
      · rfl
    rw [ho]
    simp [hb]

theorem getLsbD_intersectChunkWord (pg : Nat) (w : Bitmapword) {i : Nat} (hi : i < 64) :
    (intersectChunkWord b pg w).getLsbD i = (w.getLsbD i && inBitmap b (pg + i)) := by
  rw [intersectChunkWord, getLsbD_foldl_intersect b pg _ w hi]
  cases hw : w.getLsbD i with
  | false => rfl
  | true =>
    have hm : i ∈ scanWord 64 w 0 := (mem_scanWord ..).mpr ⟨i, hi, hw, by omega⟩
    simp [hm]

theorem wordBit_intersectChunkWords (blockno wn : Nat)
    (ws : List Bitmapword) {k : Nat} (hk : wn * 64 + k < pagesPerChunk) :
    wordBit (intersectChunkWords b blockno wn ws) k =
      (wordBit ws k && inBitmap b (blockno + (wn * 64 + k))) := by
  have hc : pagesPerChunk = wordsPerChunk * 64 := by decide
  induction ws generalizing wn k with
  | nil => simp [intersectChunkWords]
  | cons w ws ih =>
    rw [intersectChunkWords, wordBit_cons, wordBit_cons]
    split
    next hl => rw [if_pos (by omega), getLsbD_intersectChunkWord b _ w hl, Nat.add_assoc]
    next hh =>
      have hs : (wn + 1) * 64 + (k - 64) = wn * 64 + k := by omega
      rw [ih (wn + 1) (by omega), hs]

variable {b}

theorem all_take_eq_zero_iff (n : Nat) (ws : List Bitmapword) :
    (ws.take n).all (· == 0) = true ↔ ∀ k < n * 64, wordBit ws k = false := by
  induction ws generalizing n with
  | nil => simp
  | cons w ws ih =>
    cases n with
    | zero => simp
    | succ n =>
      rw [take_succ_cons, all_cons, Bool.and_eq_true, ih, beq_iff_eq, word_eq_zero_iff,
        forall_wordBit_cons (P := fun k => k < (n + 1) * 64 → wordBit (w :: ws) k = false)]
      refine and_congr (forall₂_congr fun k hk => ?_) (forall_congr' fun k => ?_)
      · rw [wordBit_cons_low _ _ hk, imp_iff_right (by omega)]
      rw [wordBit_cons_high, show k + 64 < (n + 1) * 64 ↔ k < n * 64 by omega]

theorem tbmIntersectPage_kind (h : tbmIntersectPage b ap = some page) :
    page.blockno = ap.blockno ∧ page.ischunk = ap.ischunk := by
  unfold tbmIntersectPage at h
  split at h
  · simp only at h
    split at h
    · cases h
    cases h
    exact ⟨rfl, rfl⟩
  split at h
  · cases h
    exact ⟨rfl, rfl⟩
  split at h
  · cases h
  simp only at h
  split at h
  · cases h
  cases h
  exact ⟨rfl, rfl⟩

theorem bit_tbmIntersectPage (b : TIDBitmap) (hc : ap.ischunk = true) {j : Nat}
    (hj : j < pagesPerChunk) :
    (tbmIntersectPage b ap).any (fun page => page.ischunk && page.bit j) =
      (ap.bit j && inBitmap b (ap.blockno + j)) := by
  have hb := wordBit_intersectChunkWords b ap.blockno 0 ap.words (k := j) (by omega)
  rw [Nat.zero_mul, Nat.zero_add, ← bit_eq] at hb
  rw [← hb, tbmIntersectPage, if_pos hc]
  simp only
  split
  next hz =>
    rw [all_take_eq_zero_iff] at hz
    rw [hz j hj]
    rfl
  · rw [any_some, bit_eq, hc, Bool.true_and]

/-- The entries once those in `visited` have been intersected with `b`. -/
def intersected (b : TIDBitmap) (visited : Nat → Prop) [DecidablePred visited]
    (entry : Nat → Option PagetableEntry) (k : Nat) : Option PagetableEntry :=
  if visited k then (entry k).bind (tbmIntersectPage b) else entry k

section Intersected

variable {a b : TIDBitmap} {visited : Nat → Prop} [DecidablePred visited]

theorem intersected_eq_some {k : Nat} {page : PagetableEntry}
    (h : intersected b visited a.entry k = some page) :
    ∃ ap, a.entry k = some ap ∧ page.ischunk = ap.ischunk := by
  unfold intersected at h
  split at h
  · obtain ⟨ap, ha, hp⟩ := Option.bind_eq_some_iff.mp h
    exact ⟨ap, ha, (tbmIntersectPage_kind hp).2⟩
  · exact ⟨page, h, rfl⟩

theorem lossyIn_intersected (k : Nat) :
    lossyIn (intersected b visited a.entry) k =
      (lossyIn a.entry k && (decide (¬ visited (chunkOf k)) || inBitmap b k)) := by
  rw [lossyIn, lossyIn, intersected]
  split <;> rename_i hv
  · cases ho : a.entry (chunkOf k) with
    | none => rfl
    | some ap =>
      rw [bind_some, any_some]
      cases hc : ap.ischunk with
      | true =>
        have hb := blockno_of_entry ho
        rw [bit_tbmIntersectPage b hc (Nat.mod_lt _ (by decide)), hb, chunkOf_add_mod]
        simp [hv]
      | false =>
        have hn : (tbmIntersectPage b ap).any
            (fun page => page.ischunk && page.bit (k % pagesPerChunk)) = false := by
          rw [Option.any_eq_false]
          intro page hp
          simp [(tbmIntersectPage_kind hp).2, hc]
        simp [hn]
  · simp [hv]

theorem TIDBitmap.Valid.intersected {a' : TIDBitmap} (h : a.Valid)
    (he : ∀ k, a'.entry k = intersected b visited a.entry k)
    (hc : Counted (tbmCreatePagetable a'.status) a'.nentries a'.npages a'.nchunks)
    (hm : a'.maxentries = a.maxentries)
    (ho : ∀ page, a'.status = .onePage page → page.ischunk = false) : a'.Valid where
  counted := hc
  onePage := ho
  aligned k page hp hch := by
    rw [he] at hp
    obtain ⟨ap, ha, hk⟩ := intersected_eq_some hp
    exact h.aligned k ap ha (hk ▸ hch)
  apart k page hp hex := by
    have heq : a'.entry = AthenaPG.intersected b visited a.entry := funext he
    rw [he] at hp
    obtain ⟨ap, ha, hk⟩ := intersected_eq_some hp
    rw [heq, lossyIn_intersected, h.apart k ap ha (hk ▸ hex), Bool.false_and]
  roomy := hm ▸ h.roomy

end Intersected

theorem intersectEntry_spec (h : a.Valid) {pt : Pagetable} (hs : a.status = .hash pt) (visit : Nat) :
    (intersectEntry b a visit).Valid ∧
      (∃ pt, (intersectEntry b a visit).status = .hash pt) ∧
      ∀ k, (intersectEntry b a visit).entry k = intersected b (· = visit) a.entry k := by
  have he := entry_hash hs
  have hc := h.counted
  rw [hs, tbmCreatePagetable] at hc
  unfold intersectEntry
  rw [hs]
  simp only
  cases ho : pt.lookup visit with
  | none =>
    have hsm : ∀ k, a.entry k = intersected b (· = visit) a.entry k := by
      intro k
      unfold intersected
      split
      next hk =>
        rw [hk, he, ho]
        rfl
      · rfl
    exact ⟨h, ⟨pt, hs⟩, hsm⟩
  | some ap =>
    cases hp : tbmIntersectPage b ap with
    | some page =>
      simp only [hp]
      obtain ⟨hky, hkn⟩ := tbmIntersectPage_kind hp
      have hb := hky.trans (key_of_lookup ho)
      have ha : ∀ k, ({ a with status := .hash (pt.put page) } : TIDBitmap).entry k =
          intersected b (· = visit) a.entry k := by
        intro k
        rw [entry_hash rfl, lookup_put, hb, intersected]
        split
        next hk => rw [hk, he, ho, bind_some, hp]
        · exact (he k).symm
      refine ⟨h.intersected ha ?_ rfl ?_, ⟨_, rfl⟩, ha⟩
      · exact hc.putOver (hb.symm ▸ ho) hkn
      · rintro page' ⟨⟩
    | none =>
      simp only [hp]
      have ha : ∀ k, ({ a with
          status := .hash (pt.delete visit)
          nchunks := if ap.ischunk then a.nchunks - 1 else a.nchunks
          npages := if ap.ischunk then a.npages else a.npages - 1
          nentries := a.nentries - 1 } : TIDBitmap).entry k =
          intersected b (· = visit) a.entry k := by
        intro k
        rw [entry_hash rfl, lookup_delete, intersected]
        split
        next hk => rw [hk, he, ho, bind_some, hp]
        · exact (he k).symm
      refine ⟨h.intersected ha ?_ rfl ?_, ⟨_, rfl⟩, ha⟩
      · exact hc.delete ho
      · rintro page' ⟨⟩

theorem foldl_intersectEntry_spec (h : a.Valid) {pt : Pagetable}
    (hs : a.status = .hash pt) {order : List Nat} (hn : order.Nodup) :
    (order.foldl (intersectEntry b) a).Valid ∧
      ∀ k, (order.foldl (intersectEntry b) a).entry k = intersected b (· ∈ order) a.entry k := by
  induction order generalizing a pt with
  | nil => exact ⟨h, fun k => by simp [intersected]⟩
  | cons visit order ih =>
    obtain ⟨hv, hr⟩ := nodup_cons.mp hn
    obtain ⟨hvl, ⟨pagetable', hs'⟩, hen⟩ := intersectEntry_spec (b := b) h hs visit
    obtain ⟨hend, he⟩ := ih hvl hs' hr
    refine ⟨hend, fun k => ?_⟩
    rw [foldl_cons, he k, intersected, hen k, intersected, intersected]
    by_cases hk : k = visit
    · -- visited now, and not again
      simp [hk, hv]
    simp [hk]

theorem tbmIntersectPage_sound (hb : b.Valid) (hbs : b.Sound mayb mustb)
    (hc : ap.ischunk = false) {maya mus : Set Nat}
    (hsa : (PageView.exact ap.recheck ap.words).Sound maya mus) :
    (PageView.ofExact (tbmIntersectPage b ap)).Sound
      (maya ∩ mayb ap.blockno) (mus ∩ mustb ap.blockno) := by
  have hsb := hbs ap.blockno
  unfold tbmIntersectPage
  rw [if_neg (by simp [hc]), hb.pageIsLossy, hb.findPageentry]
  cases hl : lossyIn b.entry ap.blockno with
  | true =>
    -- at most the tuples of `a` match, and they need a recheck
    rw [if_pos rfl]
    exact ⟨fun off ho => hsa.1 off ho.1, fun hr => nomatch hr⟩
  | false =>
    rw [if_neg Bool.false_ne_true]
    cases hf : exactIn b.entry ap.blockno with
    | none =>
      rw [viewIn, hl, hf] at hsb
      exact fun off ho => hsb off ho.2
    | some bp =>
      obtain ⟨he, hbc⟩ := exactIn_eq_some.mp hf
      rw [hb.view_exact he hbc] at hsb
      have hm : ∀ off ∈ maya ∩ mayb ap.blockno,
          1 ≤ off ∧ wordBit (intWords ap.words bp.words) (off - 1) = true := by
        rintro off ⟨hof, hoffb⟩
        rw [wordBit_intWords, (hsa.1 off hof).2, (hsb.1 off hoffb).2]
        exact ⟨(hsa.1 off hof).1, rfl⟩
      simp only
      by_cases hz : ((intWords ap.words bp.words).take wordsPerPage).all (· == 0) = true
      · rw [if_pos hz]
        rw [all_take_eq_zero_iff] at hz
        intro off ho
        obtain ⟨_, hbt⟩ := hm off ho
        have hln := wordBit_lt_length hbt
        rw [length_intWords, ap.hwords] at hln
        have hw : max wordsPerPage wordsPerChunk = wordsPerPage := by decide
        rw [hz (off - 1) (by omega)] at hbt
        cases hbt
      rw [if_neg hz]
      refine ⟨hm, fun hr k hk => ?_⟩
      rw [Bool.or_eq_false_iff] at hr
      rw [wordBit_intWords, Bool.and_eq_true] at hk
      exact ⟨hsa.2 hr.1 k hk.1, hsb.2 hr.2 k hk.2⟩

theorem intersected_sound (ha : a.Valid) (has : a.Sound maya musta) (hb : b.Valid)
    (hbs : b.Sound mayb mustb) {entry : Nat → Option PagetableEntry}
    (hen : ∀ k, entry k = (a.entry k).bind (tbmIntersectPage b)) (k : Nat) :
    (viewIn entry k).Sound (maya k ∩ mayb k) (musta k ∩ mustb k) := by
  have heq : entry = intersected b (fun _ => True) a.entry := by
    funext k
    rw [hen, intersected, if_pos trivial]
  have hl : lossyIn entry k = (lossyIn a.entry k && inBitmap b k) := by
    rw [heq, lossyIn_intersected]
    simp
  have hk : ∀ page, entry k = some page → ∃ ap, a.entry k = some ap ∧
      page.ischunk = ap.ischunk := fun page hp => intersected_eq_some (heq ▸ hp)
  have hsa := has k
  have hsb := hbs k
  cases hv : lossyIn entry k with
  | true =>
    rw [viewIn_lossy hv]
    trivial
  | false =>
    rw [viewIn, hv, if_neg Bool.false_ne_true]
    cases hf : exactIn a.entry k with
    | some ap =>
      -- an exact page of `a`
      obtain ⟨hap, hc⟩ := exactIn_eq_some.mp hf
      rw [ha.view_exact hap hc] at hsa
      have he : exactIn entry k = tbmIntersectPage b ap := by
        rw [exactIn, hen, hap, bind_some]
        cases hp : tbmIntersectPage b ap with
        | none => rfl
        | some page => simp [Option.filter, (tbmIntersectPage_kind hp).2, hc]
      rw [he, ← blockno_of_entry hap]
      rw [← blockno_of_entry hap] at hsa
      exact tbmIntersectPage_sound hb hbs hc hsa
    | none =>
      have he : exactIn entry k = none := by
        rw [exactIn_eq_none]
        intro page hp
        obtain ⟨ap, hap, hs⟩ := hk page hp
        rw [hs]
        exact exactIn_eq_none.mp hf ap hap
      rw [he]
      cases hla : lossyIn a.entry k with
      | false =>
        rw [viewIn, hla, hf] at hsa
        exact fun off ho => hsa off ho.1
      | true =>
        -- a lossy page of `a` that is not in `b` at all
        rw [hv, hla, Bool.true_and, eq_comm, inBitmap, Bool.or_eq_false_iff, hb.pageIsLossy,
          hb.findPageentry, Option.isSome_eq_false_iff, Option.isNone_iff_eq_none] at hl
        rw [viewIn, hl.1, hl.2] at hsb
        exact fun off ho => hsb off ho.2

theorem TIDBitmap.Valid.entry_of_nentries (h : tbm.Valid) (hn : tbm.nentries = 0) (k : Nat) :
    tbm.entry k = none := by
  have hnl := length_eq_zero_iff.mp (h.counted.nentries.symm.trans hn)
  rw [entry, lookup_eq_none, hnl]
  exact fun page hp => absurd hp not_mem_nil

theorem tbmIntersect_onePage (ha : a.Valid) {e1 : PagetableEntry}
    (hs : a.status = .onePage e1) {a' : TIDBitmap}
    (ha' : a' = match tbmIntersectPage b e1 with
      | some e1 => { a with status := .onePage e1 }
      | none =>
        { a with status := .empty, npages := a.npages - 1, nentries := a.nentries - 1 }) :
    a'.Valid ∧ ∀ k, a'.entry k = (a.entry k).bind (tbmIntersectPage b) := by
  have hc := ha.counted
  have he := ha.onePage e1 hs
  have hsl : (KeyedTable.empty.put e1 : Pagetable).lookup e1.blockno = some e1 := by
    rw [lookup_put, if_pos rfl]
  rw [hs, tbmCreatePagetable] at hc
  suffices hsp : (∀ k, a'.entry k = (a.entry k).bind (tbmIntersectPage b)) ∧
      Counted (tbmCreatePagetable a'.status) a'.nentries a'.npages a'.nchunks ∧
      a'.maxentries = a.maxentries ∧ ∀ page, a'.status = .onePage page → page.ischunk = false by
    obtain ⟨hen, hc', hm, ho⟩ := hsp
    have hal : ∀ k, a'.entry k = intersected b (fun _ => True) a.entry k := fun k =>
      (hen k).trans (if_pos trivial).symm
    exact ⟨ha.intersected hal hc' hm ho, hen⟩
  cases hp : tbmIntersectPage b e1 with
  | some page =>
    simp only [hp] at ha'
    subst ha'
    obtain ⟨hky, hk⟩ := tbmIntersectPage_kind hp
    refine ⟨fun k => ?_, ?_, rfl, ?_⟩
    · rw [entry_onePage rfl, entry_onePage hs, hky]
      split
      · rw [bind_some, hp]
      · rfl
    · have hpt := hc.putOver (hky ▸ hsl) hk
      rwa [empty_put_put hky] at hpt
    rintro page' ⟨⟩
    exact hk.trans he
  | none =>
    simp only [hp] at ha'
    subst ha'
    refine ⟨fun k => ?_, ?_, rfl, ?_⟩
    · rw [entry_empty rfl, entry_onePage hs]
      split
      · rw [bind_some, hp]
      · rfl
    · have hd := hc.delete hsl
      rwa [empty_put_delete, he] at hd
    rintro page' ⟨⟩

/-- **`tbm_intersect`**, in whatever order `a` is scanned. -/
theorem tbmIntersect_sound {order : List PagetableEntry} (ha : a.Valid) (has : a.Sound maya musta)
    (hb : b.Valid) (hbs : b.Sound mayb mustb) (ho : a.ScanOrder order) :
    (tbmIntersect (order.map (·.blockno)) a b).Valid ∧
      (tbmIntersect (order.map (·.blockno)) a b).Sound
        (fun k => maya k ∩ mayb k) (fun k => musta k ∩ mustb k) := by
  suffices hsp : (tbmIntersect (order.map (·.blockno)) a b).Valid ∧ ∀ k,
      (tbmIntersect (order.map (·.blockno)) a b).entry k =
        (a.entry k).bind (tbmIntersectPage b) from
    ⟨hsp.1, intersected_sound ha has hb hbs hsp.2⟩
  unfold tbmIntersect
  split
  next hn =>
    refine ⟨ha, fun k => ?_⟩
    rw [ha.entry_of_nentries hn]
    rfl
  split
  next hs =>
    refine ⟨ha, fun k => ?_⟩
    rw [entry_empty hs]
    rfl
  next entry1 hs => exact tbmIntersect_onePage ha hs rfl
  rename_i pt hs
  have hp := ho pt hs
  have hnd := (hp.map _).nodup_iff.mpr pt.nodup
  obtain ⟨hv, he⟩ := foldl_intersectEntry_spec (b := b) ha hs hnd
  refine ⟨hv, fun k => ?_⟩
  rw [he, intersected]
  split
  · rfl
  rename_i hk
  -- an entry that the scan does not return is not there
  have hnn : a.entry k = none := by
    rw [entry_hash hs, lookup_eq_none]
    rintro page hpg rfl
    exact hk (mem_map_of_mem (hp.mem_iff.mpr hpg))
  rw [hnn]
  rfl

end AthenaPG
