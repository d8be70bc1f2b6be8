import AthenaPG.Access.GinPostingList
import AthenaPG.Library.KeyedTable
import AthenaPG.Nodes.Bitmapset

/-!
Tuple-id bitmaps (`src/backend/nodes/tidbitmap.c`): how they are built, and what they store.

The page table is a table of entries keyed by block number; how its hash table is
laid out shows only in the order in which a scan visits the entries, so every scan
takes that order as an argument.  Blocks are numbers below `2^32`; a chunk starts at a
multiple of `pagesPerChunk`, so that a block of a chunk never overflows.

* `TIDBitmap.Valid`: the counts are right, chunks are aligned, and a page is stored
  exactly or lossily but not both.
* `PageView.Sound`: what is stored about a page bounds the tuples that may be in the
  set from above and, without `recheck`, those that are in it from below.
* `tbmMarkPageLossy_sound`, `tbmLossify_spec`, `tbmGetPageentry_spec`,
  `modifyEntry_sound`: what the steps of the operations do to these bounds.
-/

namespace AthenaPG
open List KeyedTable

/-! ## Page table entries -/

def maxTuplesPerPage : Nat := (8192 - 24) / (24 + 4)

def pagesPerChunk : Nat := 8192 / 32

def wordsPerPage : Nat := (maxTuplesPerPage - 1) / 64 + 1

def wordsPerChunk : Nat := (pagesPerChunk - 1) / 64 + 1

def invalidBlockNumber : Nat := 0xFFFFFFFF

structure PagetableEntry where
  blockno : Nat
  ischunk : Bool
  recheck : Bool
  words : List Bitmapword
  hwords : words.length = max wordsPerPage wordsPerChunk
  deriving DecidableEq

open PagetableEntry

namespace PagetableEntry

/-- An entry after `MemSet`, with its key and kind. -/
def zero (blockno : Nat) (ischunk : Bool) : PagetableEntry where
  blockno := blockno
  ischunk := ischunk
  recheck := false
  words := List.replicate (max wordsPerPage wordsPerChunk) 0
  hwords := length_replicate

variable (page : PagetableEntry)

variable (k : Nat)

/-- `words[WORDNUM(k)] & (1 << BITNUM(k))`. -/
def bit : Bool := (page.words.getD (k / 64) 0 &&& (1#64 <<< (k % 64))) != 0

/-- `words[WORDNUM(k)] |= (1 << BITNUM(k))`. -/
def setBit : PagetableEntry :=
  { page with
    words := orWordAt page.words (k / 64) (1#64 <<< (k % 64))
    hwords := by simp [orWordAt, page.hwords] }

@[simp] theorem setBit_ischunk : (page.setBit k).ischunk = page.ischunk := rfl

@[simp] theorem setBit_blockno : (page.setBit k).blockno = page.blockno := rfl

@[simp] theorem setBit_recheck : (page.setBit k).recheck = page.recheck := rfl

end PagetableEntry

/-- The loop `while (w != 0) { if (w & 1) ..; pg++; w >>= 1; }`: the values of `pg` for
which the test succeeds.  The number of steps left bounds the position of the last one. -/
def scanWord : Nat → Bitmapword → Nat → List Nat
  | 0, _, _ => []
  | steps + 1, w, pg =>
    if w = 0 then []
    else if w &&& 1 ≠ 0 then pg :: scanWord steps (w >>> 1) (pg + 1)
    else scanWord steps (w >>> 1) (pg + 1)

/-- The loop over the first `nwords` words, `base` standing for the first bit. -/
def scanWords (nwords : Nat) (words : List Bitmapword) (base : Nat) : List Nat :=
  (List.range nwords).flatMap fun wordnum =>
    scanWord 64 (words.getD wordnum 0) (base + wordnum * 64)

/-! ## Bitmaps -/

abbrev Pagetable := KeyedTable blockno

/-- `TBMStatus`, with the storage that is valid in each. -/
inductive TBMStatus where
  | empty
  | onePage (entry1 : PagetableEntry)
  | hash (pagetable : Pagetable)
  deriving DecidableEq

structure TIDBitmap where
  status : TBMStatus
  nentries : Nat
  maxentries : Nat
  npages : Nat
  nchunks : Nat
  deriving DecidableEq

open TIDBitmap

def intMax : Nat := 2 ^ 31 - 1

/-- `tbm_calculate_entries`; an entry takes 48 bytes and two pointers. -/
def tbmCalculateEntries (maxbytes : Int) : Nat :=
  (max (min (maxbytes.tdiv (48 + 8 + 8)) (intMax - 1)) 16).toNat

def tbmCreate (maxbytes : Int) : TIDBitmap where
  status := .empty
  nentries := 0
  maxentries := tbmCalculateEntries maxbytes
  npages := 0
  nchunks := 0

/-- The hash table, which `tbm_create_pagetable` makes if there is none. -/
def tbmCreatePagetable : TBMStatus → Pagetable
  | .empty => .empty
  | .onePage entry1 => KeyedTable.empty.put entry1
  | .hash pagetable => pagetable

variable (tbm : TIDBitmap)

variable (pageno : Nat)

def tbmFindPageentry : Option PagetableEntry :=
  if tbm.nentries = 0 then none
  else match tbm.status with
    | .empty => none
    | .onePage page => if page.blockno ≠ pageno then none else some page
    | .hash pagetable =>
      match pagetable.lookup pageno with
      | none => none
      | some page => if page.ischunk then none else some page

/-- `tbm_page_is_lossy`; there are chunks only in a hash table. -/
def tbmPageIsLossy : Bool :=
  if tbm.nchunks = 0 then false
  else match tbm.status with
    | .hash pagetable =>
      let bitno := pageno % pagesPerChunk
      let chunkPageno := pageno - bitno
      match pagetable.lookup chunkPageno with
      | some page => page.ischunk && page.bit bitno
      | none => false
    | _ => false

/-- `tbm_get_pageentry`: the bitmap with an entry for the page. -/
def tbmGetPageentry : TIDBitmap := match tbm.status with
  | .empty =>
    { tbm with
      status := .onePage (.zero pageno false)
      nentries := tbm.nentries + 1
      npages := tbm.npages + 1 }
  | .onePage page =>
    if page.blockno = pageno then tbm
    else
      { tbm with
        status := .hash ((tbmCreatePagetable tbm.status).put (.zero pageno false))
        nentries := tbm.nentries + 1
        npages := tbm.npages + 1 }
  | .hash pagetable =>
    match pagetable.lookup pageno with
    | some _ => tbm
    | none =>
      { tbm with
        status := .hash (pagetable.put (.zero pageno false))
        nentries := tbm.nentries + 1
        npages := tbm.npages + 1 }

/-- A write through a pointer to the entry for `pageno`. -/
def TIDBitmap.modifyEntry (f : PagetableEntry → PagetableEntry) : TIDBitmap := match tbm.status with
  | .empty => tbm
  | .onePage page =>
    if page.blockno = pageno then { tbm with status := .onePage (f page) } else tbm
  | .hash pagetable =>
    match pagetable.lookup pageno with
    | some page => { tbm with status := .hash (pagetable.put (f page)) }
    | none => tbm

def tbmMarkPageLossy : TIDBitmap :=
  let pagetable := tbmCreatePagetable tbm.status
  let bitno := pageno % pagesPerChunk
  let chunkPageno := pageno - bitno
  -- remove any extant non-lossy entry, unless the page is its own chunk header
  let deleted := bitno ≠ 0 ∧ (pagetable.lookup pageno).isSome
  let tbm :=
    if deleted then { tbm with nentries := tbm.nentries - 1, npages := tbm.npages - 1 } else tbm
  let pagetable := if deleted then pagetable.delete pageno else pagetable
  match pagetable.lookup chunkPageno with
  | none =>
    { tbm with
      status := .hash (pagetable.put ((zero chunkPageno true).setBit bitno))
      nentries := tbm.nentries + 1
      nchunks := tbm.nchunks + 1 }
  | some page =>
    if !page.ischunk then
      -- the chunk header page was formerly non-lossy: its own bit is set too
      { tbm with
        status := .hash
          (pagetable.put (((zero chunkPageno true).setBit 0).setBit bitno))
        nchunks := tbm.nchunks + 1
        npages := tbm.npages - 1 }
    else { tbm with status := .hash (pagetable.put (page.setBit bitno)) }

/-- The loop of `tbm_lossify`.  The scan may miss entries, or return one that the loop
has inserted; `visits` are the keys of the entries it returns. -/
def lossifyLoop : List Nat → TIDBitmap → TIDBitmap
  | [], tbm => tbm
  | visit :: visits, tbm =>
    match (tbmCreatePagetable tbm.status).lookup visit with
    | none => lossifyLoop visits tbm
    | some page =>
      if page.ischunk then lossifyLoop visits tbm
      else if page.blockno % pagesPerChunk = 0 then lossifyLoop visits tbm
      else
        let tbm := tbmMarkPageLossy tbm page.blockno
        if tbm.nentries ≤ tbm.maxentries / 2 then tbm else lossifyLoop visits tbm

variable (visits : List Nat)

def tbmLossify (tbm : TIDBitmap) : TIDBitmap :=
  let tbm := lossifyLoop visits tbm
  if tbm.nentries > tbm.maxentries / 2 then
    { tbm with maxentries := min tbm.nentries ((intMax - 1) / 2) * 2 }
  else tbm

/-! ## Adding tuples and pages -/

/-- The variables of `tbm_add_tuples`; `page` is `none` for a page known to be lossy, and
otherwise the key of the entry pointed to. -/
structure AddTuplesState where
  tbm : TIDBitmap
  currblk : Nat
  page : Option Nat

/-- What `tbm_add_tuples` writes to the entry. -/
def addTupleBit (off : Nat) (recheck : Bool) (page : PagetableEntry) : PagetableEntry :=
  -- a chunk header gets the bit for itself, an exact page the tuple's
  let page := if page.ischunk then page.setBit 0 else page.setBit (off - 1)
  { page with recheck := page.recheck || recheck }

/-- One round of the loop of `tbm_add_tuples`; `visits` is the order for `tbm_lossify`. -/
def addTuple (recheck : Bool) (visits : List Nat) (s : AddTuplesState) (tid : ItemPointerData) :
    Except String AddTuplesState :=
  let blk := tid.block.toNat
  let off := tid.offset.toNat
  if off < 1 ∨ off > maxTuplesPerPage then .error s!"tuple offset out of range: {off}"
  else
    let s :=
      if blk ≠ s.currblk then
        if tbmPageIsLossy s.tbm blk then { s with page := none, currblk := blk }
        else { tbm := tbmGetPageentry s.tbm blk, page := some blk, currblk := blk }
      else s
    match s.page with
    | none => .ok s
    | some page =>
      let tbm := s.tbm.modifyEntry page (addTupleBit off recheck)
      if tbm.nentries > tbm.maxentries then
        .ok { s with tbm := tbmLossify visits tbm, currblk := invalidBlockNumber }
      else .ok { s with tbm := tbm }

/-- The loop of `tbm_add_tuples`; `scans i` is the order of the scan in round `i`. -/
def addTuplesLoop (recheck : Bool) :
    (Nat → List Nat) → List ItemPointerData → AddTuplesState → Except String AddTuplesState
  | _, [], s => .ok s
  | scans, tid :: tids, s => do
    let s ← addTuple recheck (scans 0) s tid
    addTuplesLoop recheck (fun i => scans (i + 1)) tids s

def tbmAddTuples (scans : Nat → List Nat) (tbm : TIDBitmap) (tids : List ItemPointerData)
    (recheck : Bool) : Except String TIDBitmap := do
  let s ← addTuplesLoop recheck scans tids
    { tbm := tbm, currblk := invalidBlockNumber, page := none }
  return s.tbm

/-- The test at the end of each round: `tbm_lossify` above the limit. -/
def lossifyIfOver (tbm : TIDBitmap) : TIDBitmap :=
  if tbm.nentries > tbm.maxentries then tbmLossify visits tbm else tbm

def tbmAddPage (tbm : TIDBitmap) (pageno : Nat) : TIDBitmap :=
  lossifyIfOver visits (tbmMarkPageLossy tbm pageno)

/-! ## Union and intersection -/

def PagetableEntry.merge (apage bpage : PagetableEntry) : PagetableEntry :=
  { apage with
    words := orWords apage.words bpage.words
    hwords := by rw [length_orWords, apage.hwords, bpage.hwords, max_self]
    recheck := apage.recheck || bpage.recheck }

def tbmUnionPage (a : TIDBitmap) (bpage : PagetableEntry) : TIDBitmap :=
  if bpage.ischunk then
    -- mark each indicated page lossy in `a`
    lossifyIfOver visits
      ((scanWords wordsPerChunk bpage.words bpage.blockno).foldl tbmMarkPageLossy a)
  else if tbmPageIsLossy a bpage.blockno then a
  else
    lossifyIfOver visits
      ((tbmGetPageentry a bpage.blockno).modifyEntry bpage.blockno fun apage =>
        if apage.ischunk then apage.setBit 0 else apage.merge bpage)

/-- The scan of `b`'s hash table in `tbm_union`. -/
def unionLoop : (Nat → List Nat) → List PagetableEntry → TIDBitmap → TIDBitmap
  | _, [], a => a
  | scans, bpage :: bpages, a =>
    unionLoop (fun i => scans (i + 1)) bpages (tbmUnionPage (scans 0) a bpage)

/-- `tbm_union`; `order` is the order in which the scan of `b` returns its entries. -/
def tbmUnion (scans : Nat → List Nat) (order : List PagetableEntry) (a b : TIDBitmap) :
    TIDBitmap :=
  if b.nentries = 0 then a
  else match b.status with
    | .empty => a
    | .onePage entry1 => tbmUnionPage (scans 0) a entry1
    | .hash _ => unionLoop scans order a

/-- A word of a chunk, of which block `pg` is the first, without the pages that are not
in `b` at all. -/
def intersectChunkWord (b : TIDBitmap) (pg : Nat) (w : Bitmapword) : Bitmapword :=
  (scanWord 64 w 0).foldl
    (fun neww bitnum =>
      if !tbmPageIsLossy b (pg + bitnum) && (tbmFindPageentry b (pg + bitnum)).isNone then
        neww &&& ~~~(1#64 <<< bitnum)
      else neww) w

/-- The words of a chunk from number `wordnum` on. -/
def intersectChunkWords (b : TIDBitmap) (blockno : Nat) : Nat → List Bitmapword → List Bitmapword
  | _, [] => []
  | wordnum, w :: ws =>
    (if wordnum < wordsPerChunk then intersectChunkWord b (blockno + wordnum * 64) w else w) ::
      intersectChunkWords b blockno (wordnum + 1) ws

theorem length_intersectChunkWords (b : TIDBitmap) (blockno wn : Nat) (ws : List Bitmapword) :
    (intersectChunkWords b blockno wn ws).length = ws.length := by
  induction ws generalizing wn with
  | nil => rfl
  | cons w ws ih => simp [intersectChunkWords, ih]

/-- `tbm_intersect_page`: the page afterwards, `none` if it can be deleted. -/
def tbmIntersectPage (b : TIDBitmap) (apage : PagetableEntry) : Option PagetableEntry :=
  if apage.ischunk then
    let words := intersectChunkWords b apage.blockno 0 apage.words
    if (words.take wordsPerChunk).all (· == 0) then none
    else some
      { apage with
        words := words
        hwords := (length_intersectChunkWords ..).trans apage.hwords }
  else if tbmPageIsLossy b apage.blockno then some { apage with recheck := true }
  else match tbmFindPageentry b apage.blockno with
    | none => none
    | some bpage =>
      let words := intWords apage.words bpage.words
      if (words.take wordsPerPage).all (· == 0) then none
      else some
        { apage with
          words := words
          hwords := (length_intWords ..).trans apage.hwords
          recheck := apage.recheck || bpage.recheck }

/-- One round of the scan in `tbm_intersect`, which returns the entry with key `visit`. -/
def intersectEntry (b a : TIDBitmap) (visit : Nat) : TIDBitmap := match a.status with
  | .hash pagetable =>
    match pagetable.lookup visit with
    | none => a
    | some apage =>
      match tbmIntersectPage b apage with
      | some apage => { a with status := .hash (pagetable.put apage) }
      | none =>
        { a with
          status := .hash (pagetable.delete visit)
          nchunks := if apage.ischunk then a.nchunks - 1 else a.nchunks
          npages := if apage.ischunk then a.npages else a.npages - 1
          nentries := a.nentries - 1 }
  | _ => a

/-- `tbm_intersect`; the scan deletes only the entry it has just returned, so that
`order` lists the keys of the entries that `a` has at the start. -/
def tbmIntersect (order : List Nat) (a b : TIDBitmap) : TIDBitmap :=
  if a.nentries = 0 then a
  else match a.status with
    | .empty => a
    | .onePage entry1 =>
      match tbmIntersectPage b entry1 with
      | some entry1 => { a with status := .onePage entry1 }
      | none =>
        { a with status := .empty, npages := a.npages - 1, nentries := a.nentries - 1 }
    | .hash _ => order.foldl (intersectEntry b) a

/-! ## Bits -/

theorem pagesPerChunk_eq : pagesPerChunk = 256 := rfl

theorem and_one_ne_zero (w : Bitmapword) : w &&& 1 ≠ 0 ↔ w.getLsbD 0 = true := by
  have h := and_shift_ne_zero w (i := 0) (by decide)
  rw [← h, bne_iff_ne]
  rfl

theorem mem_scanWord (steps : Nat) (w : Bitmapword) (pg x : Nat) :
    x ∈ scanWord steps w pg ↔ ∃ i < steps, w.getLsbD i = true ∧ x = pg + i := by
  induction steps generalizing w pg with
  | zero => simp [scanWord]
  | succ steps ih =>
    -- bit `i` of the shifted word is bit `i + 1` of the word
    have hs : (∃ i < steps + 1, w.getLsbD i = true ∧ x = pg + i) ↔
        (w.getLsbD 0 = true ∧ x = pg) ∨
          ∃ i < steps, (w >>> 1).getLsbD i = true ∧ x = pg + 1 + i := by
      rw [← Nat.or_exists_add_one]
      simp [add_assoc, add_comm 1]
    rw [hs]
    simp only [scanWord, and_one_ne_zero]
    split
    next hw =>
      subst hw
      simp
    · split <;> rename_i hb
      · simp only [mem_cons, ih, hb, true_and]
      · simp only [ih, hb, Bool.false_eq_true, false_and, false_or]

theorem mem_scanWords (nwords : Nat) (words : List Bitmapword) (base x : Nat) :
    x ∈ scanWords nwords words base ↔ ∃ k < nwords * 64, wordBit words k = true ∧ x = base + k := by
  simp only [scanWords, mem_flatMap, mem_range, mem_scanWord]
  constructor
  · rintro ⟨wordnum, hw, i, hi, hb, rfl⟩
    have hd : (wordnum * 64 + i) / 64 = wordnum := by omega
    have hm : (wordnum * 64 + i) % 64 = i := by omega
    exact ⟨wordnum * 64 + i, by omega, by rw [wordBit, hd, hm]; exact hb, by omega⟩
  · rintro ⟨k, hk, hb, rfl⟩
    exact ⟨k / 64, by omega, k % 64, by omega, hb, by omega⟩

namespace PagetableEntry

theorem bit_eq (page : PagetableEntry) (k : Nat) : page.bit k = wordBit page.words k :=
  and_shift_ne_zero _ (Nat.mod_lt k (by decide))

theorem bit_setBit (page : PagetableEntry) {k : Nat} (hk : k < wordsPerPage * 64) (j : Nat) :
    (page.setBit k).bit j = (page.bit j || decide (j = k)) := by
  have hl : k / 64 < page.words.length := by
    rw [page.hwords]
    omega
  rw [bit_eq, bit_eq, setBit, wordBit_orWordAt _ _ _ hl,
    getLsbD_one_shift _ _ (Nat.mod_lt k (by decide))]
  congr 1
  rw [← Bool.decide_and]
  congr 1
  apply propext
  constructor
  · rintro ⟨hd, hm⟩
    omega
  · rintro rfl
    exact ⟨rfl, rfl⟩

@[simp] theorem bit_zero (blockno : Nat) (ischunk : Bool) (k : Nat) :
    (zero blockno ischunk).bit k = false := by
  rw [bit_eq]
  refine (words_zero_iff _).mp ?_ k
  intro w hw
  exact eq_of_mem_replicate hw

end PagetableEntry

/-! ## The chunk of a page -/

def chunkOf : Nat := pageno - pageno % pagesPerChunk

theorem chunkOf_mod : chunkOf pageno % pagesPerChunk = 0 := by
  simp only [chunkOf, pagesPerChunk_eq]
  omega

theorem chunkOf_add_mod : chunkOf pageno + pageno % pagesPerChunk = pageno := by
  simp only [chunkOf, pagesPerChunk_eq]
  omega

variable {pno : Nat} {may may' must : TidSet}

theorem chunkOf_eq_self : chunkOf pno = pno ↔ pno % pagesPerChunk = 0 := by
  simp only [chunkOf, pagesPerChunk_eq]
  omega

theorem page_eq_iff {p q : Nat} :
    p = q ↔ chunkOf p = chunkOf q ∧ p % pagesPerChunk = q % pagesPerChunk := by
  constructor
  · rintro rfl
    exact ⟨rfl, rfl⟩
  · rintro ⟨hchu, hb⟩
    rw [← chunkOf_add_mod p, ← chunkOf_add_mod q, hchu, hb]

theorem chunkOf_add {ck bit : Nat} (hchu : ck % pagesPerChunk = 0) (hb : bit < pagesPerChunk) :
    (ck + bit) % pagesPerChunk = bit ∧ chunkOf (ck + bit) = ck := by
  have hm : (ck + bit) % pagesPerChunk = bit := by
    rw [Nat.add_mod, hchu, zero_add, Nat.mod_mod, Nat.mod_eq_of_lt hb]
  exact ⟨hm, by rw [chunkOf, hm, Nat.add_sub_cancel]⟩

theorem mod_lt_bits (pno : Nat) : pno % pagesPerChunk < wordsPerPage * 64 :=
  (Nat.mod_lt pno (by decide)).trans (by decide)

/-! ## What a bitmap stores -/

def TIDBitmap.entries (tbm : TIDBitmap) : List PagetableEntry :=
  (tbmCreatePagetable tbm.status).entries

def TIDBitmap.entry (blockno : Nat) : Option PagetableEntry :=
  (tbmCreatePagetable tbm.status).lookup blockno

/-- The page is marked in the chunk it belongs to. -/
def lossyIn (entry : Nat → Option PagetableEntry) (pageno : Nat) : Bool :=
  (entry (chunkOf pageno)).any fun page => page.ischunk && page.bit (pageno % pagesPerChunk)

def exactIn (entry : Nat → Option PagetableEntry) (pageno : Nat) : Option PagetableEntry :=
  (entry pageno).filter fun page => !page.ischunk

variable {page : PagetableEntry} {entry : Nat → Option PagetableEntry}

theorem exactIn_eq_some :
    exactIn entry pno = some page ↔ entry pno = some page ∧ page.ischunk = false := by
  simp [exactIn, Option.filter_eq_some_iff]

theorem exactIn_eq_none :
    exactIn entry pno = none ↔ ∀ page, entry pno = some page → page.ischunk = true := by
  simp [exactIn, Option.filter_eq_none_iff]

structure Counted (pagetable : Pagetable) (nentries npages nchunks : Nat) : Prop where
  nentries : nentries = pagetable.entries.length
  npages : npages = pagetable.entries.countP fun page => !page.ischunk
  nchunks : nchunks = pagetable.entries.countP fun page => page.ischunk

/-- The invariant of a bitmap: the counts match the stored entries, a chunk starts at a
multiple of `pagesPerChunk`, and a page with an entry of its own is not marked in a chunk. -/
structure TIDBitmap.Valid (tbm : TIDBitmap) : Prop where
  counted : Counted (tbmCreatePagetable tbm.status) tbm.nentries tbm.npages tbm.nchunks
  onePage : ∀ page, tbm.status = .onePage page → page.ischunk = false
  aligned : ∀ blockno page, tbm.entry blockno = some page → page.ischunk = true →
    blockno % pagesPerChunk = 0
  apart : ∀ blockno page, tbm.entry blockno = some page → page.ischunk = false →
    lossyIn tbm.entry blockno = false
  roomy : 1 ≤ tbm.maxentries

/-- A scan of the hash table, if there is one, returns every entry once. -/
def TIDBitmap.ScanOrder (order : List PagetableEntry) : Prop :=
  ∀ pagetable, tbm.status = .hash pagetable → order.Perm pagetable.entries

variable {tbm}

theorem TIDBitmap.mem_entries : page ∈ tbm.entries ↔ tbm.entry page.blockno = some page :=
  mem_entries_iff

theorem TIDBitmap.blockno_of_entry {blockno : Nat}
    (h : tbm.entry blockno = some page) : page.blockno = blockno :=
  key_of_lookup h

theorem entry_onePage (h : tbm.status = .onePage page) (blockno : Nat) :
    tbm.entry blockno = if blockno = page.blockno then some page else none := by
  rw [entry, h, tbmCreatePagetable, lookup_put, lookup_empty]

theorem entry_hash {pt : Pagetable} (h : tbm.status = .hash pt)
    (blockno : Nat) : tbm.entry blockno = pt.lookup blockno := by
  rw [entry, h, tbmCreatePagetable]

theorem entry_empty (h : tbm.status = .empty) (blockno : Nat) : tbm.entry blockno = none := by
  rw [entry, h, tbmCreatePagetable, lookup_empty]

namespace TIDBitmap.Valid

theorem lossyIn_of_nchunks (h : tbm.Valid) (hn : tbm.nchunks = 0) (pno : Nat) :
    lossyIn tbm.entry pno = false := by
  have hnn : ∀ page ∈ tbm.entries, page.ischunk = false := by
    have hc := h.counted.nchunks.symm.trans hn
    rw [countP_eq_zero] at hc
    intro page hpg
    simpa using hc page hpg
  rw [lossyIn, Option.any_eq_false_iff_get]
  intro hs
  obtain ⟨page, hpg⟩ := Option.isSome_iff_exists.mp hs
  have hm : page ∈ tbm.entries := by rw [mem_entries, blockno_of_entry hpg, hpg]
  simp [hpg, hnn page hm]

theorem pageIsLossy (h : tbm.Valid) (pno : Nat) :
    tbmPageIsLossy tbm pno = lossyIn tbm.entry pno := by
  unfold tbmPageIsLossy
  split <;> rename_i hn
  · exact (h.lossyIn_of_nchunks hn pno).symm
  · split
    next pt hst =>
      simp only [lossyIn, entry_hash hst, chunkOf]
      cases pt.lookup (pno - pno % pagesPerChunk) <;> rfl
    rename_i hst
    -- an exact page or nothing at all: there are no chunks
    exfalso
    apply hn
    rw [h.counted.nchunks, countP_eq_zero]
    intro page hpg
    change page ∈ tbm.entries at hpg
    cases hs : tbm.status with
    | empty => simp [entries, hs, tbmCreatePagetable, KeyedTable.empty] at hpg
    | onePage entry1 =>
      rw [mem_entries, entry_onePage hs] at hpg
      split at hpg
      · cases hpg
        simp [h.onePage page hs]
      · cases hpg
    | hash pt => exact absurd hs (hst pt)

theorem findPageentry (h : tbm.Valid) (pno : Nat) :
    tbmFindPageentry tbm pno = exactIn tbm.entry pno := by
  unfold tbmFindPageentry exactIn
  split
  next hn =>
    have hnl : tbm.entries = [] := length_eq_zero_iff.mp (h.counted.nentries.symm.trans hn)
    have hnn : tbm.entry pno = none := by
      rw [entry, lookup_eq_none]
      intro page hpg
      rw [entries] at hnl
      rw [hnl] at hpg
      cases hpg
    rw [hnn]
    rfl
  split
  next hs =>
    rw [entry_empty hs]
    rfl
  next page hs =>
    rw [entry_onePage hs]
    by_cases hp : page.blockno = pno
    · simp [hp, Option.filter, h.onePage page hs]
    rw [if_pos hp, if_neg (Ne.symm hp)]
    rfl
  next pt hs =>
    rw [entry_hash hs]
    cases pt.lookup pno with
    | none => rfl
    | some page => cases hc : page.ischunk <;> simp [hc, Option.filter]

end TIDBitmap.Valid

/-! ## Counting entries -/

namespace Counted

variable {pt : Pagetable} {nentries npages nchunks : Nat}

section

variable (h : Counted pt nentries npages nchunks)
include h

theorem putNew (hn : pt.lookup page.blockno = none) :
    Counted (pt.put page) (nentries + 1)
      (if page.ischunk then npages else npages + 1)
      (if page.ischunk then nchunks + 1 else nchunks) := by
  have ha := pt.countP_put page fun _ => true
  have he := pt.countP_put page fun page => !page.ischunk
  have hchu := pt.countP_put page fun page => page.ischunk
  obtain ⟨hen, hp, hch⟩ := h
  simp only [hn, weight_none, weight_some, countP_true, if_true]
    at ha he hchu
  constructor
  · omega
  · cases hc : page.ischunk <;> simp [hc] at he ⊢ <;> omega
  · cases hc : page.ischunk <;> simp [hc] at hchu ⊢ <;> omega

theorem putOver {old : PagetableEntry} (ho : pt.lookup page.blockno = some old)
    (hkn : page.ischunk = old.ischunk) : Counted (pt.put page) nentries npages nchunks := by
  have ha := pt.countP_put page fun _ => true
  have he := pt.countP_put page fun page => !page.ischunk
  have hchu := pt.countP_put page fun page => page.ischunk
  obtain ⟨hen, hp, hc⟩ := h
  simp only [ho, weight_some, countP_true, if_true, hkn]
    at ha he hchu
  constructor <;> omega

theorem putChunk {old : PagetableEntry} (ho : pt.lookup page.blockno = some old)
    (he : old.ischunk = false) (hchu : page.ischunk = true) :
    Counted (pt.put page) nentries (npages - 1) (nchunks + 1) := by
  have ha := pt.countP_put page fun _ => true
  have hp := pt.countP_put page fun page => !page.ischunk
  have hc := pt.countP_put page fun page => page.ischunk
  obtain ⟨hen', hp', hc'⟩ := h
  simp only [ho, weight_some, countP_true, if_true, he, hchu, Bool.not_true,
    Bool.not_false, Bool.false_eq_true, if_false] at ha hp hc
  constructor <;> omega

theorem delete {blockno : Nat} {old : PagetableEntry} (ho : pt.lookup blockno = some old) :
    Counted (pt.delete blockno) (nentries - 1)
      (if old.ischunk then npages else npages - 1)
      (if old.ischunk then nchunks - 1 else nchunks) := by
  have ha := pt.countP_delete blockno fun _ => true
  have he := pt.countP_delete blockno fun page => !page.ischunk
  have hchu := pt.countP_delete blockno fun page => page.ischunk
  obtain ⟨hen, hp, hch⟩ := h
  simp only [ho, weight_some, countP_true, if_true] at ha he hchu
  constructor
  · omega
  · cases hc : old.ischunk <;> simp [hc] at he ⊢ <;> omega
  · cases hc : old.ischunk <;> simp [hc] at hchu ⊢ <;> omega

end

end Counted

/-! ## Views of a page -/

/-- What a bitmap says about a page. -/
inductive PageView where
  | absent
  | lossy
  | exact (recheck : Bool) (words : List Bitmapword)

def PageView.ofExact : Option PagetableEntry → PageView
  | some page => .exact page.recheck page.words
  | none => .absent

def viewIn (entry : Nat → Option PagetableEntry) (pageno : Nat) : PageView :=
  if lossyIn entry pageno then .lossy else .ofExact (exactIn entry pageno)

/-- The view of a page bounds the offsets that `may` be in the set from above and, unless
they need a recheck, those that `must` be in it from below. -/
def PageView.Sound (may must : Set Nat) : PageView → Prop
  | .absent => ∀ off, off ∉ may
  | .lossy => True
  | .exact recheck words =>
    (∀ off ∈ may, 1 ≤ off ∧ wordBit words (off - 1) = true) ∧
      (recheck = false → ∀ k, wordBit words k = true → k + 1 ∈ must)

theorem PageView.Sound.mono {may may' must must' : Set Nat} {view : PageView}
    (h : view.Sound may must) (hm : may' ⊆ may) (hms : must ⊆ must') : view.Sound may' must' := by
  cases view with
  | absent => exact fun off ho => h off (hm ho)
  | lossy => trivial
  | exact recheck words => exact ⟨fun off ho => h.1 off (hm ho), fun hr k hk => hms (h.2 hr k hk)⟩

/-- Sets of tuples: the offsets on each page. -/
abbrev TidSet := Nat → Set Nat

def TIDBitmap.Sound (tbm : TIDBitmap) (may must : TidSet) : Prop :=
  ∀ pageno, (viewIn tbm.entry pageno).Sound (may pageno) (must pageno)

theorem TIDBitmap.Sound.mono {must' : TidSet} (h : tbm.Sound may must)
    (hmy : ∀ pno, may' pno ⊆ may pno) (hm : ∀ pno, must pno ⊆ must' pno) : tbm.Sound may' must' :=
  fun pno => (h pno).mono (hmy pno) (hm pno)

/-- The first bitmap is the second one, some pages having become lossy. -/
def CoarserThan (tbm tbm' : TIDBitmap) : Prop :=
  ∀ pageno, viewIn tbm.entry pageno = .lossy ∨ viewIn tbm.entry pageno = viewIn tbm'.entry pageno

theorem CoarserThan.refl : CoarserThan tbm tbm := fun _ => .inr rfl

theorem CoarserThan.trans {tbm₁ tbm₂ tbm₃ : TIDBitmap} (h : CoarserThan tbm₁ tbm₂)
    (h' : CoarserThan tbm₂ tbm₃) : CoarserThan tbm₁ tbm₃ := by
  intro pno
  obtain hl | he := h pno
  · exact .inl hl
  rw [he]
  exact h' pno

theorem TIDBitmap.Sound.coarser {tbm' : TIDBitmap} (h : tbm'.Sound may must)
    (hc : CoarserThan tbm tbm') : tbm.Sound may must := by
  intro pno
  obtain hl | he := hc pno
  · rw [hl]
    trivial
  rw [he]
  exact h pno

theorem viewIn_lossy (h : lossyIn entry pno = true) : viewIn entry pno = .lossy := by
  rw [viewIn, if_pos h]

theorem TIDBitmap.Valid.view_exact (h : tbm.Valid)
    (hpg : tbm.entry pno = some page) (he : page.ischunk = false) :
    viewIn tbm.entry pno = .exact page.recheck page.words := by
  rw [viewIn, h.apart pno page hpg he, exactIn_eq_some.mpr ⟨hpg, he⟩]
  rfl

theorem viewIn_congr {entry' : Nat → Option PagetableEntry}
    (hl : lossyIn entry pno = lossyIn entry' pno) (he : exactIn entry pno = exactIn entry' pno) :
    viewIn entry pno = viewIn entry' pno := by
  rw [viewIn, viewIn, hl, he]

/-! ## Marking a page lossy -/

variable (tbm pno)

/-- The table once the entry of the page itself has gone, unless that is the header of
its chunk. -/
def withoutOwnEntry : Pagetable :=
  if pageno % pagesPerChunk ≠ 0 ∧ ((tbmCreatePagetable tbm.status).lookup pageno).isSome then
    (tbmCreatePagetable tbm.status).delete pageno
  else tbmCreatePagetable tbm.status

/-- The chunk header that marks the page, made from the header's entry before. -/
def markedHead : Option PagetableEntry → PagetableEntry
  | none => (zero (chunkOf pageno) true).setBit (pageno % pagesPerChunk)
  | some page =>
    if !page.ischunk then
      ((zero (chunkOf pageno) true).setBit 0).setBit (pageno % pagesPerChunk)
    else page.setBit (pageno % pagesPerChunk)

def withoutOwnCounts : TIDBitmap :=
  if pageno % pagesPerChunk ≠ 0 ∧ ((tbmCreatePagetable tbm.status).lookup pageno).isSome then
    { tbm with nentries := tbm.nentries - 1, npages := tbm.npages - 1 }
  else tbm

theorem tbmMarkPageLossy_eq :
    tbmMarkPageLossy tbm pno = match (withoutOwnEntry tbm pno).lookup (chunkOf pno) with
      | none =>
        { withoutOwnCounts tbm pno with
          status := .hash ((withoutOwnEntry tbm pno).put (markedHead pno none))
          nentries := (withoutOwnCounts tbm pno).nentries + 1
          nchunks := (withoutOwnCounts tbm pno).nchunks + 1 }
      | some page =>
        if !page.ischunk then
          { withoutOwnCounts tbm pno with
            status := .hash ((withoutOwnEntry tbm pno).put (markedHead pno (some page)))
            nchunks := (withoutOwnCounts tbm pno).nchunks + 1
            npages := (withoutOwnCounts tbm pno).npages - 1 }
        else
          { withoutOwnCounts tbm pno with
            status := .hash ((withoutOwnEntry tbm pno).put (markedHead pno (some page))) } := by
  simp only [tbmMarkPageLossy, ← chunkOf.eq_1, ← withoutOwnEntry.eq_1, ← withoutOwnCounts.eq_1]
  cases (withoutOwnEntry tbm pno).lookup (chunkOf pno) with
  | none => rfl
  | some page =>
    simp only [markedHead]
    split <;> rfl

theorem status_tbmMarkPageLossy :
    (tbmMarkPageLossy tbm pno).status = .hash ((withoutOwnEntry tbm pno).put
      (markedHead pno ((withoutOwnEntry tbm pno).lookup (chunkOf pno)))) := by
  rw [tbmMarkPageLossy_eq]
  cases (withoutOwnEntry tbm pno).lookup (chunkOf pno) with
  | none => rfl
  | some page =>
    simp only
    split <;> rfl

theorem maxentries_tbmMarkPageLossy : (tbmMarkPageLossy tbm pno).maxentries = tbm.maxentries := by
  have hc : (withoutOwnCounts tbm pno).maxentries = tbm.maxentries := by
    unfold withoutOwnCounts
    split <;> rfl
  rw [tbmMarkPageLossy_eq]
  cases (withoutOwnEntry tbm pno).lookup (chunkOf pno) with
  | none => exact hc
  | some page =>
    simp only
    split <;> exact hc

variable {pno}

theorem lookup_withoutOwnEntry {k : Nat} (hk : k ≠ chunkOf pno) :
    (withoutOwnEntry tbm pno).lookup k = if k = pno then none else tbm.entry k := by
  unfold withoutOwnEntry
  split
  · exact lookup_delete ..
  rename_i hkp
  by_cases hp : k = pno
  · subst hp
    have hz : k % pagesPerChunk ≠ 0 := fun hz => hk (chunkOf_eq_self.mpr hz).symm
    rw [if_pos rfl]
    simpa [hz] using hkp
  exact (if_neg hp).symm

theorem lookup_withoutOwnEntry_head (pno : Nat) :
    (withoutOwnEntry tbm pno).lookup (chunkOf pno) = tbm.entry (chunkOf pno) := by
  unfold withoutOwnEntry
  split
  next hd =>
    rw [lookup_delete, if_neg (fun e => hd.1 (chunkOf_eq_self.mp e))]
    rfl
  · rfl

theorem markedHead_blockno {old : Option PagetableEntry}
    (ho : ∀ page, old = some page → page.blockno = chunkOf pno) :
    (markedHead pno old).blockno = chunkOf pno := by
  cases old with
  | none => rfl
  | some page =>
    simp only [markedHead]
    split
    · rfl
    · exact ho page rfl

theorem markedHead_ischunk (pno : Nat) (old : Option PagetableEntry) :
    (markedHead pno old).ischunk = true := by
  cases old with
  | none => rfl
  | some page =>
    simp only [markedHead]
    split
    · rfl
    next hc => simpa using hc

/-- The bits of a chunk header before it marks a page: an exact page is marked itself. -/
def headBits : Option PagetableEntry → Nat → Bool
  | none, _ => false
  | some page, j => if page.ischunk then page.bit j else decide (j = 0)

theorem headBits_eq {k : Nat} (h : k = chunkOf k → exactIn entry k = none) :
    headBits (entry (chunkOf k)) (k % pagesPerChunk) = lossyIn entry k := by
  rw [lossyIn]
  cases ho : entry (chunkOf k) with
  | none => rfl
  | some page =>
    cases hc : page.ischunk with
    | true => simp [headBits, hc]
    | false =>
      have hm : k % pagesPerChunk ≠ 0 := by
        intro hz
        have hk := (chunkOf_eq_self.mpr hz).symm
        rw [← hk] at ho
        have hchu := exactIn_eq_none.mp (h hk) page ho
        simp [hc] at hchu
      simp [headBits, hc, hm]

theorem markedHead_bit (pno : Nat) (old : Option PagetableEntry) (j : Nat) :
    (markedHead pno old).bit j = (headBits old j || decide (j = pno % pagesPerChunk)) := by
  have hb := mod_lt_bits pno
  have hz : 0 < wordsPerPage * 64 := by decide
  cases old with
  | none => simp [markedHead, headBits, bit_setBit _ hb]
  | some page =>
    cases hc : page.ischunk with
    | false => simp [markedHead, headBits, hc, bit_setBit _ hb, bit_setBit _ hz]
    | true => simp [markedHead, headBits, hc, bit_setBit _ hb]

theorem entry_tbmMarkPageLossy (pno k : Nat) :
    (tbmMarkPageLossy tbm pno).entry k =
      if k = chunkOf pno then some (markedHead pno (tbm.entry (chunkOf pno)))
      else if k = pno then none else tbm.entry k := by
  have hb : (markedHead pno (tbm.entry (chunkOf pno))).blockno = chunkOf pno :=
    markedHead_blockno fun page hpg => blockno_of_entry hpg
  rw [entry_hash (status_tbmMarkPageLossy tbm pno), lookup_withoutOwnEntry_head, lookup_put, hb]
  split
  · rfl
  next hk => exact lookup_withoutOwnEntry tbm hk

theorem lossyIn_tbmMarkPageLossy (pno k : Nat) :
    lossyIn (tbmMarkPageLossy tbm pno).entry k =
      if chunkOf k = chunkOf pno then
        headBits (tbm.entry (chunkOf pno)) (k % pagesPerChunk) || decide (k = pno)
      else lossyIn tbm.entry k := by
  rw [lossyIn, entry_tbmMarkPageLossy]
  by_cases hk : chunkOf k = chunkOf pno
  · rw [if_pos hk, if_pos hk, Option.any_some, markedHead_ischunk, markedHead_bit, Bool.true_and]
    have hs : k % pagesPerChunk = pno % pagesPerChunk ↔ k = pno := by
      rw [page_eq_iff (p := k), and_iff_right hk]
    simp only [hs]
  -- the deleted entry is not a chunk header
  have hne : chunkOf k ≠ pno := by
    rintro rfl
    exact hk (chunkOf_eq_self.mpr (chunkOf_mod k)).symm
  rw [if_neg hk, if_neg hk, if_neg hne, lossyIn]

theorem view_tbmMarkPageLossy_self (pno : Nat) :
    viewIn (tbmMarkPageLossy tbm pno).entry pno = .lossy := by
  apply viewIn_lossy
  rw [lossyIn_tbmMarkPageLossy, if_pos rfl]
  simp

theorem tbmMarkPageLossy_coarser (pno k : Nat) (hk : k ≠ pno) :
    viewIn (tbmMarkPageLossy tbm pno).entry k = .lossy ∨
      viewIn (tbmMarkPageLossy tbm pno).entry k = viewIn tbm.entry k := by
  have hl := lossyIn_tbmMarkPageLossy tbm pno k
  have he := entry_tbmMarkPageLossy tbm pno k
  simp only [hk, decide_false, Bool.or_false, if_false] at hl he
  by_cases hcn : k = chunkOf k ∧ k = chunkOf pno ∧ exactIn tbm.entry k ≠ none
  · -- a header that was exact becomes lossy with its chunk
    obtain ⟨hs, hh, hex⟩ := hcn
    obtain ⟨page, hpg⟩ := Option.ne_none_iff_exists'.mp hex
    obtain ⟨ho, hc⟩ := exactIn_eq_some.mp hpg
    left
    apply viewIn_lossy
    rw [hl, if_pos (hs.symm.trans hh), ← hh, ho, headBits, hc, chunkOf_eq_self.mp hs.symm]
    rfl
  right
  refine viewIn_congr ?_ ?_
  · rw [hl]
    split
    next hchu =>
      rw [← hchu]
      refine headBits_eq fun hs => ?_
      by_contra hex
      exact hcn ⟨hs, hs.trans hchu, hex⟩
    · rfl
  by_cases hh : k = chunkOf pno
  · rw [if_pos hh] at he
    have hs : k = chunkOf k := by rw [hh, chunkOf_eq_self.mpr (chunkOf_mod pno)]
    have hn : exactIn tbm.entry k = none := by
      by_contra hex
      exact hcn ⟨hs, hh, hex⟩
    rw [hn, exactIn_eq_none]
    intro page hpg
    rw [he] at hpg
    cases hpg
    exact markedHead_ischunk ..
  rw [if_neg hh] at he
  rw [exactIn, exactIn, he]

variable {tbm}

namespace TIDBitmap.Valid

/-- The first part of `tbm_mark_page_lossy` keeps the counts right: the entry that it
deletes is not a chunk. -/
theorem counted_withoutOwnEntry (h : tbm.Valid) (pno : Nat) :
    Counted (withoutOwnEntry tbm pno) (withoutOwnCounts tbm pno).nentries
      (withoutOwnCounts tbm pno).npages (withoutOwnCounts tbm pno).nchunks := by
  unfold withoutOwnEntry withoutOwnCounts
  split
  next hd =>
    obtain ⟨page, hpg⟩ := Option.isSome_iff_exists.mp hd.2
    have he : page.ischunk = false := by
      by_contra hc
      exact hd.1 (h.aligned pno page hpg (by simpa using hc))
    simpa [he] using h.counted.delete hpg
  · exact h.counted

theorem counted_markPageLossy (h : tbm.Valid) (pno : Nat) :
    Counted (tbmCreatePagetable (tbmMarkPageLossy tbm pno).status)
      (tbmMarkPageLossy tbm pno).nentries (tbmMarkPageLossy tbm pno).npages
      (tbmMarkPageLossy tbm pno).nchunks := by
  have hc := h.counted_withoutOwnEntry pno
  rw [tbmMarkPageLossy_eq]
  cases ho : (withoutOwnEntry tbm pno).lookup (chunkOf pno) with
  | none => exact hc.putNew ho
  | some page =>
    have hky : (markedHead pno (some page)).blockno = chunkOf pno :=
      markedHead_blockno fun page' hpg' => by
        cases hpg'
        exact key_of_lookup ho
    simp only
    split
    next he => exact hc.putChunk (hky ▸ ho) (by simpa using he) (markedHead_ischunk ..)
    rename_i hchu
    have hkn : (markedHead pno (some page)).ischunk = page.ischunk := by
      rw [markedHead_ischunk]
      simpa using hchu
    exact hc.putOver (hky ▸ ho) hkn

theorem markPageLossy (h : tbm.Valid) (pno : Nat) : (tbmMarkPageLossy tbm pno).Valid where
  counted := h.counted_markPageLossy pno
  onePage page hpg := by
    rw [status_tbmMarkPageLossy] at hpg
    cases hpg
  aligned blockno page hpg hchu := by
    rw [entry_tbmMarkPageLossy] at hpg
    split at hpg
    next hh =>
      rw [hh]
      exact chunkOf_mod pno
    · split at hpg
      · cases hpg
      · exact h.aligned blockno page hpg hchu
  apart blockno page hpg he := by
    rw [entry_tbmMarkPageLossy] at hpg
    split at hpg
    · cases hpg
      simp [markedHead_ischunk] at he
    split at hpg
    · cases hpg
    rename_i hh hs
    have ho := h.apart blockno page hpg he
    rw [lossyIn_tbmMarkPageLossy]
    split
    next hchu =>
      -- the header's own bit does not matter, since the page is not the header
      rw [← hchu, headBits_eq, ho]
      · simp [hs]
      intro hk
      exact absurd (hk.trans hchu) hh
    · exact ho
  roomy := (maxentries_tbmMarkPageLossy tbm pno).symm ▸ h.roomy

end TIDBitmap.Valid

theorem tbmMarkPageLossy_coarserThan (pno : Nat) : CoarserThan (tbmMarkPageLossy tbm pno) tbm := by
  intro k
  by_cases hk : k = pno
  · subst hk
    exact .inl (view_tbmMarkPageLossy_self tbm k)
  exact tbmMarkPageLossy_coarser tbm pno k hk

/-! ## Lossifying -/

theorem lossifyLoop_spec (h : tbm.Valid) :
    (lossifyLoop visits tbm).Valid ∧ CoarserThan (lossifyLoop visits tbm) tbm := by
  induction visits generalizing tbm with
  | nil => exact ⟨h, .refl⟩
  | cons visit visits ih =>
    unfold lossifyLoop
    split
    · exact ih h
    rename_i page _
    have hm := h.markPageLossy page.blockno
    have hc := @tbmMarkPageLossy_coarserThan tbm page.blockno
    split
    · exact ih h
    split
    · exact ih h
    simp only
    split
    · exact ⟨hm, hc⟩
    obtain ⟨hv, hr⟩ := ih hm
    exact ⟨hv, hr.trans hc⟩

/-- Whatever its scan of the hash table visits, `tbm_lossify` only makes pages lossy. -/
theorem tbmLossify_spec (h : tbm.Valid) :
    (tbmLossify visits tbm).Valid ∧ CoarserThan (tbmLossify visits tbm) tbm := by
  obtain ⟨hv, hc⟩ := lossifyLoop_spec visits h
  unfold tbmLossify
  simp only
  split
  next ho =>
    have hr : 1 ≤ min (lossifyLoop visits tbm).nentries ((intMax - 1) / 2) * 2 := by
      have hint : 1 ≤ (intMax - 1) / 2 := by decide
      omega
    exact ⟨{ hv with roomy := hr }, hc⟩
  · exact ⟨hv, hc⟩

theorem lossifyIfOver_spec (h : tbm.Valid) :
    (lossifyIfOver visits tbm).Valid ∧ CoarserThan (lossifyIfOver visits tbm) tbm := by
  unfold lossifyIfOver
  split
  · exact tbmLossify_spec visits h
  · exact ⟨h, .refl⟩

theorem tbmMarkPageLossy_sound (hs : tbm.Sound may must) (hm : ∀ k, k ≠ pno → may' k ⊆ may k) :
    (tbmMarkPageLossy tbm pno).Sound may' must := by
  intro k
  by_cases hk : k = pno
  · subst hk
    rw [view_tbmMarkPageLossy_self]
    trivial
  obtain hl | hsm := tbmMarkPageLossy_coarser tbm pno k hk
  · rw [hl]
    trivial
  rw [hsm]
  exact (hs k).mono (hm k hk) subset_rfl

theorem tbmAddPage_sound (h : tbm.Valid) (hs : tbm.Sound may must)
    (hm : ∀ k, k ≠ pno → may' k ⊆ may k) :
    (tbmAddPage visits tbm pno).Valid ∧ (tbmAddPage visits tbm pno).Sound may' must := by
  obtain ⟨hv, hc⟩ := lossifyIfOver_spec visits (h.markPageLossy pno)
  exact ⟨hv, (tbmMarkPageLossy_sound hs hm).coarser hc⟩

/-! ## Finding or creating an entry -/

theorem tbmGetPageentry_of_some
    (hpg : tbm.entry pno = some page) : tbmGetPageentry tbm pno = tbm := by
  unfold tbmGetPageentry
  split
  next hs =>
    rw [entry_empty hs] at hpg
    cases hpg
  next entry1 hs =>
    rw [entry_onePage hs] at hpg
    split at hpg
    next hk => rw [if_pos hk.symm]
    · cases hpg
  next pt hs =>
    rw [entry_hash hs] at hpg
    rw [hpg]

theorem tbmGetPageentry_of_none (hn : tbm.entry pno = none) :
    tbmCreatePagetable (tbmGetPageentry tbm pno).status =
        (tbmCreatePagetable tbm.status).put (.zero pno false) ∧
      (tbmGetPageentry tbm pno).nentries = tbm.nentries + 1 ∧
      (tbmGetPageentry tbm pno).npages = tbm.npages + 1 ∧
      (tbmGetPageentry tbm pno).nchunks = tbm.nchunks ∧
      (tbmGetPageentry tbm pno).maxentries = tbm.maxentries ∧
      ∀ page, (tbmGetPageentry tbm pno).status = .onePage page → page.ischunk = false := by
  unfold tbmGetPageentry
  split
  next hs =>
    rw [hs]
    refine ⟨rfl, rfl, rfl, rfl, rfl, ?_⟩
    rintro page ⟨⟩
    rfl
  next entry1 hs =>
    rw [entry_onePage hs] at hn
    have hne : entry1.blockno ≠ pno := by
      rintro rfl
      simp at hn
    rw [if_neg hne, hs]
    refine ⟨rfl, rfl, rfl, rfl, rfl, ?_⟩
    rintro page ⟨⟩
  next pt hs =>
    rw [entry_hash hs] at hn
    rw [hn, hs]
    refine ⟨rfl, rfl, rfl, rfl, rfl, ?_⟩
    rintro page ⟨⟩

/-- `tbm_get_pageentry` for a page that is not lossy adds nothing to what is stored. -/
theorem tbmGetPageentry_spec (h : tbm.Valid) (hs : tbm.Sound may must)
    (hl : lossyIn tbm.entry pno = false) :
    (tbmGetPageentry tbm pno).Valid ∧ (tbmGetPageentry tbm pno).Sound may must ∧
      ∃ page, (tbmGetPageentry tbm pno).entry pno = some page := by
  cases ho : tbm.entry pno with
  | some page =>
    rw [tbmGetPageentry_of_some ho]
    exact ⟨h, hs, page, ho⟩
  | none =>
    obtain ⟨ht, hen, hp, hc, hm, hon⟩ := tbmGetPageentry_of_none ho
    have he : ∀ k, (tbmGetPageentry tbm pno).entry k =
        if k = pno then some (.zero pno false) else tbm.entry k := by
      intro k
      rw [entry, ht, lookup_put]
      rfl
    have hsm : ∀ k, lossyIn (tbmGetPageentry tbm pno).entry k = lossyIn tbm.entry k := by
      intro k
      rw [lossyIn, he, lossyIn]
      split
      next hk =>
        rw [hk, ho]
        rfl
      · rfl
    refine ⟨⟨?_, hon, ?_, ?_, hm ▸ h.roomy⟩, ?_, .zero pno false, by rw [he, if_pos rfl]⟩
    · rw [ht, hen, hp, hc]
      exact h.counted.putNew ho
    · intro k page hpg hchu
      rw [he] at hpg
      split at hpg
      · cases hpg
        cases hchu
      · exact h.aligned k page hpg hchu
    · intro k page hpg hex
      rw [hsm]
      rw [he] at hpg
      split at hpg
      next hk =>
        rw [hk]
        exact hl
      · exact h.apart k page hpg hex
    intro k
    by_cases hk : k = pno
    · -- the page was absent, and now has no tuples
      subst hk
      have ha : viewIn tbm.entry k = .absent := by
        rw [viewIn, hl, exactIn_eq_none.mpr (by simp [ho])]
        rfl
      have hv : viewIn (tbmGetPageentry tbm k).entry k = .exact false (zero k false).words := by
        rw [viewIn, hsm, hl, exactIn_eq_some.mpr ⟨(he k).trans (if_pos rfl), rfl⟩]
        rfl
      have hsn := hs k
      rw [ha] at hsn
      rw [hv]
      refine ⟨fun off hof => absurd hof (hsn off), fun _ j hj => ?_⟩
      rw [← bit_eq, bit_zero] at hj
      cases hj
    have hv : viewIn (tbmGetPageentry tbm pno).entry k = viewIn tbm.entry k := by
      refine viewIn_congr (hsm k) ?_
      rw [exactIn, exactIn, he, if_neg hk]
    rw [hv]
    exact hs k

/-! ## Writing to an entry -/

theorem modifyEntry_of_some (hpg : tbm.entry pno = some page) {f : PagetableEntry → PagetableEntry}
    (hky : (f page).blockno = page.blockno) :
    ∃ status, tbm.modifyEntry pno f = { tbm with status := status } ∧
      tbmCreatePagetable status = (tbmCreatePagetable tbm.status).put (f page) ∧
      ∀ page', status = .onePage page' → page' = f page ∧ tbm.status = .onePage page := by
  unfold modifyEntry
  cases hs : tbm.status with
  | empty =>
    rw [entry_empty hs] at hpg
    cases hpg
  | onePage entry1 =>
    rw [entry_onePage hs] at hpg
    split at hpg
    next hk =>
      cases hpg
      refine ⟨.onePage (f page), if_pos hk.symm, ?_, ?_⟩
      · exact (empty_put_put hky).symm
      rintro page' ⟨⟩
      exact ⟨rfl, rfl⟩
    · cases hpg
  | hash pt =>
    rw [entry_hash hs] at hpg
    refine ⟨.hash (pt.put (f page)), ?_, rfl, ?_⟩
    · simp only [hpg]
    · rintro page' ⟨⟩

section ModifyEntry

variable {page : PagetableEntry} {f : PagetableEntry → PagetableEntry}

theorem entry_modifyEntry (hpg : tbm.entry pno = some page)
    (hky : (f page).blockno = page.blockno) (k : Nat) :
    (tbm.modifyEntry pno f).entry k = if k = pno then some (f page) else tbm.entry k := by
  obtain ⟨status, hm, ht, _⟩ := modifyEntry_of_some hpg hky
  rw [hm, entry, ht, lookup_put, hky, blockno_of_entry hpg]
  rfl

section

variable (h : tbm.Valid) (hpg : tbm.entry pno = some page)
  (hky : (f page).blockno = page.blockno) (hkn : (f page).ischunk = page.ischunk)
  (hchu : page.ischunk = true → ∀ j, (f page).bit j = (page.bit j || decide (j = 0)))
include h hpg hky hkn hchu

theorem lossyIn_modifyEntry (k : Nat) :
    lossyIn (tbm.modifyEntry pno f).entry k =
      (lossyIn tbm.entry k || (page.ischunk && decide (k = pno))) := by
  rw [lossyIn, entry_modifyEntry hpg hky, lossyIn]
  by_cases hk : chunkOf k = pno
  · rw [if_pos hk, hk, hpg, Option.any_some, Option.any_some, hkn]
    cases hc : page.ischunk with
    | false => rfl
    | true =>
      have hs : k % pagesPerChunk = 0 ↔ k = pno := by rw [← chunkOf_eq_self, hk, eq_comm]
      simp only [hchu hc, hs, Bool.true_and]
  rw [if_neg hk]
  cases hc : page.ischunk with
  | false => simp
  | true =>
    have hne : k ≠ pno := by
      rintro rfl
      exact hk (chunkOf_eq_self.mpr (h.aligned k page hpg hc))
    simp [hne]

theorem TIDBitmap.Valid.modifyEntry : (tbm.modifyEntry pno f).Valid where
  counted := by
    obtain ⟨status, hm, ht, _⟩ := modifyEntry_of_some hpg hky
    rw [hm, ht]
    have hol : (tbmCreatePagetable tbm.status).lookup (f page).blockno = some page := by
      rw [hky, blockno_of_entry hpg]
      exact hpg
    exact h.counted.putOver hol hkn
  onePage page' ho := by
    obtain ⟨status, hm, _, hs⟩ := modifyEntry_of_some hpg hky
    rw [hm] at ho
    obtain ⟨rfl, hb⟩ := hs page' ho
    rw [hkn]
    exact h.onePage page hb
  aligned k page' hpg' hchu' := by
    rw [entry_modifyEntry hpg hky] at hpg'
    split at hpg'
    next hk =>
      cases hpg'
      rw [hk]
      exact h.aligned pno page hpg (hkn ▸ hchu')
    · exact h.aligned k page' hpg' hchu'
  apart k page' hpg' he' := by
    rw [entry_modifyEntry hpg hky] at hpg'
    rw [lossyIn_modifyEntry h hpg hky hkn hchu]
    split at hpg'
    next hk =>
      cases hpg'
      rw [hkn] at he'
      simp [h.apart pno page hpg he', he', hk]
    next hk => simp [h.apart k page' hpg' he', hk]
  roomy := by
    obtain ⟨status, hm, _⟩ := modifyEntry_of_some hpg hky
    rw [hm]
    exact h.roomy

end

/-- Writing to an entry: a chunk header may get the bit of its own page, and what an exact
page says may change. -/
theorem modifyEntry_sound {may must may' must' : TidSet} (h : tbm.Valid)
    (hs : tbm.Sound may must) (hpg : tbm.entry pno = some page)
    (hky : (f page).blockno = page.blockno) (hkn : (f page).ischunk = page.ischunk)
    (hchu : page.ischunk = true → ∀ j, (f page).bit j = (page.bit j || decide (j = 0)))
    (hex : page.ischunk = false →
      (PageView.exact (f page).recheck (f page).words).Sound (may' pno) (must' pno))
    (hmy : ∀ k, k ≠ pno → may' k ⊆ may k) (hm : ∀ k, k ≠ pno → must k ⊆ must' k) :
    (tbm.modifyEntry pno f).Sound may' must' := by
  have hls := lossyIn_modifyEntry h hpg hky hkn hchu
  have he := entry_modifyEntry hpg hky
  have hv := h.modifyEntry hpg hky hkn hchu
  intro k
  by_cases hk : k = pno
  · subst hk
    cases hc : page.ischunk with
    | true =>
      have hl : lossyIn (tbm.modifyEntry k f).entry k = true := by simp [hls, hc]
      rw [viewIn_lossy hl]
      trivial
    | false =>
      rw [hv.view_exact ((he k).trans (if_pos rfl)) (hkn.trans hc)]
      exact hex hc
  have hvw : viewIn (tbm.modifyEntry pno f).entry k = viewIn tbm.entry k := by
    refine viewIn_congr (by simp [hls, hk]) ?_
    rw [exactIn, exactIn, he, if_neg hk]
  rw [hvw]
  exact (hs k).mono (hmy k hk) (hm k hk)

end ModifyEntry

end AthenaPG
