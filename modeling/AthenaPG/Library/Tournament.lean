import Mathlib.Tactic

/-!
Lists kept by a pairwise tournament.

A newcomer is compared with the members of a list from the front.  Each
comparison keeps both, removes the old member, or rejects the newcomer, which
ends the round; a newcomer that is never rejected is inserted after the last
surviving member it belongs behind.

Proved here, for every judge:

* `offer_cases`: everything a round can do to the list;
* `offer_sorted`: a round keeps the list sorted by a key;
* `length_offerAll_eq_iff`: nobody is discarded exactly when every contestant
  keeps all those before it;
* `offerAll_covered`: if whoever is discarded is covered by whoever discards it,
  for a transitive relation, then every contestant ever offered is covered by a
  member of the final list;
* `offerAll_cost`: if a discarder costs at most `c` times as much as the one it
  discards, the loss is at most `c ^ d` for `d` discarded contestants.
-/

namespace AthenaPG.Tournament
open List
open Or (inl inr)

/-- The outcome of comparing a newcomer with an old member. -/
inductive Verdict
  | keepBoth
  | removeOld
  | rejectNew
  deriving DecidableEq, Repr

section Round

variable {α : Type} (judge : α → α → Verdict) (after : α → α → Bool) (new : α) (L : List α)

/-- The members of `L` the newcomer does not remove. -/
def survivors : List α := L.filter (fun old => judge new old ≠ .removeOld)

/-- One round: `kept` has been passed, `insertAt` is the place found so far for
the newcomer.  The place is `none` once the newcomer is rejected. -/
def offerLoop (kept : List α) (insertAt : Nat) : List α → List α × Option Nat
  | [] => (kept, some insertAt)
  | old :: rest =>
    match judge new old with
    | .removeOld => offerLoop kept insertAt rest
    | .rejectNew => (kept ++ old :: rest, none)
    | .keepBoth =>
      offerLoop (kept ++ [old]) (if after new old then kept.length + 1 else insertAt) rest

/-- Offer `new` to the list. -/
def offer : List α := match offerLoop judge after new [] 0 L with
  | (kept, some insertAt) => kept.insertIdx insertAt new
  | (kept, none) => kept

/-- `i` is the place right after the last member of `kept` that the newcomer
belongs behind. -/
def IsPlace (kept : List α) (i : Nat) : Prop :=
  ∃ lo hi, kept = lo ++ hi ∧ i = lo.length ∧ (∀ h ∈ hi, after new h = false) ∧
    ∀ l ∈ lo.getLast?, after new l = true

theorem isPlace_nil : IsPlace after new [] 0 := ⟨[], [], by simp⟩

theorem isPlace_snoc {kept : List α} {i : Nat} (h : IsPlace after new kept i) (old : α) :
    IsPlace after new (kept ++ [old]) (if after new old then kept.length + 1 else i) := by
  by_cases ho : after new old = true
  · rw [if_pos ho]
    exact ⟨kept ++ [old], [], by simp, by simp, by simp, by simp [ho]⟩
  rw [if_neg ho]
  obtain ⟨lo, hi, rfl, rfl, hhi, hlo⟩ := h
  exact ⟨lo, hi ++ [old], by simp, rfl, forall_mem_append.mpr ⟨hhi, by simpa using ho⟩, hlo⟩

theorem survivors_cons (old : α) (L : List α) :
    survivors judge new (old :: L) =
      if judge new old = .removeOld then survivors judge new L
      else old :: survivors judge new L := by
  by_cases h : judge new old = .removeOld <;> simp [survivors, h]

theorem offerLoop_accept :
    ∀ kept i, IsPlace after new kept i → (∀ old ∈ L, judge new old ≠ .rejectNew) →
      ∃ j, offerLoop judge after new kept i L = (kept ++ survivors judge new L, some j) ∧
        IsPlace after new (kept ++ survivors judge new L) j := by
  induction L with
  | nil =>
    intro kept i hp _
    exact ⟨i, by simp [offerLoop, survivors], by simpa [survivors] using hp⟩
  | cons old L ih =>
    intro kept i hp hno
    have hr : ∀ o ∈ L, judge new o ≠ .rejectNew := fun o ho => hno o (mem_cons_of_mem _ ho)
    cases hj : judge new old with
    | removeOld =>
      simp only [offerLoop, hj, survivors_cons, if_true]
      exact ih kept i hp hr
    | rejectNew => exact absurd hj (hno old (mem_cons_self ..))
    | keepBoth =>
      simp only [offerLoop, hj, survivors_cons, reduceCtorEq, if_false]
      obtain ⟨j, he, hpl⟩ := ih (kept ++ [old]) _ (isPlace_snoc after new hp old) hr
      exact ⟨j, by simpa using he, by simpa using hpl⟩

/-- A round ends at the first member that rejects the newcomer; what comes
after it has not been looked at. -/
theorem offerLoop_reject (pre : List α) (old : α) (post : List α)
    (hno : ∀ o ∈ pre, judge new o ≠ .rejectNew) (ho : judge new old = .rejectNew) :
    ∀ kept i, offerLoop judge after new kept i (pre ++ old :: post) =
      (kept ++ survivors judge new pre ++ old :: post, none) := by
  induction pre with
  | nil => intro kept i; simp [offerLoop, ho, survivors]
  | cons p pre ih =>
    intro kept i
    have hr : ∀ o ∈ pre, judge new o ≠ .rejectNew := fun o h => hno o (mem_cons_of_mem _ h)
    cases hj : judge new p with
    | removeOld =>
      simp only [cons_append, offerLoop, hj, survivors_cons, if_true]
      exact ih hr kept i
    | rejectNew => exact absurd hj (hno p (mem_cons_self ..))
    | keepBoth =>
      simp only [cons_append, offerLoop, hj, survivors_cons, reduceCtorEq, if_false]
      rw [ih hr]
      simp

theorem first_reject :
    (∀ old ∈ L, judge new old ≠ .rejectNew) ∨
      ∃ pre old post, L = pre ++ old :: post ∧ (∀ o ∈ pre, judge new o ≠ .rejectNew) ∧
        judge new old = .rejectNew := by
  induction L with
  | nil => left; simp
  | cons x L ih =>
    by_cases hx : judge new x = .rejectNew
    · exact inr ⟨[], x, L, rfl, by simp, hx⟩
    obtain h | ⟨pre, old, post, rfl, hp, hol⟩ := ih
    · left
      exact forall_mem_cons.mpr ⟨hx, h⟩
    refine inr ⟨x :: pre, old, post, rfl, ?_, hol⟩
    exact forall_mem_cons.mpr ⟨hx, hp⟩

private theorem insertIdx_length_left (lo hi : List α) :
    (lo ++ hi).insertIdx lo.length new = lo ++ new :: hi := by
  induction lo with
  | nil => rfl
  | cons l lo ih => simpa [insertIdx_succ_cons] using ih

/-- **What a round can do.**  Either nobody rejects the newcomer, and it stands
among the survivors; or the first rejecting member stops the round. -/
theorem offer_cases :
    ((∀ old ∈ L, judge new old ≠ .rejectNew) ∧
      ∃ lo hi, survivors judge new L = lo ++ hi ∧ offer judge after new L = lo ++ new :: hi ∧
        (∀ h ∈ hi, after new h = false) ∧ ∀ l ∈ lo.getLast?, after new l = true) ∨
    ∃ pre old post, L = pre ++ old :: post ∧ judge new old = .rejectNew ∧
      offer judge after new L = survivors judge new pre ++ old :: post := by
  obtain h | ⟨pre, old, post, rfl, hp, ho⟩ := first_reject judge new L
  · obtain ⟨j, he, lo, hi, hs, rfl, hhi, hlo⟩ :=
      offerLoop_accept judge after new L [] 0 (isPlace_nil after new) h
    refine inl ⟨h, lo, hi, by simpa using hs, ?_, hhi, hlo⟩
    rw [offer, he]
    simp only [nil_append] at hs ⊢
    rw [hs, insertIdx_length_left]
  refine inr ⟨pre, old, post, rfl, ho, ?_⟩
  rw [offer, offerLoop_reject judge after new pre old post hp ho]
  rfl

/-- The newcomer is left out exactly when somebody rejects it. -/
theorem offerLoop_eq_none_iff :
    (offerLoop judge after new [] 0 L).2 = none ↔ ∃ old ∈ L, judge new old = .rejectNew := by
  obtain h | ⟨pre, old, post, rfl, hp, ho⟩ := first_reject judge new L
  · obtain ⟨j, he, -⟩ := offerLoop_accept judge after new L [] 0 (isPlace_nil after new) h
    rw [he]
    simpa using h
  rw [offerLoop_reject judge after new pre old post hp ho]
  exact ⟨fun _ => ⟨old, by simp, ho⟩, fun _ => rfl⟩

/-- A rejection changes nothing exactly when whoever the newcomer removes has somebody in front who
rejects it, or nobody behind. -/
theorem offer_atomic_iff :
    ((offerLoop judge after new [] 0 L).2 = none → offer judge after new L = L) ↔
      ∀ pre old post, L = pre ++ old :: post → judge new old = .removeOld →
        (∃ o ∈ post, judge new o = .rejectNew) → ∃ o ∈ pre, judge new o = .rejectNew := by
  rw [offerLoop_eq_none_iff]
  obtain hno | ⟨first, rej, last, rfl, hf, hr⟩ := first_reject judge new L
  · constructor
    · rintro - pre old post rfl - ⟨o, ho, hj⟩
      exact absurd hj (hno o (by simp [ho]))
    · rintro - ⟨o, ho, hj⟩
      exact absurd hj (hno o ho)
  have heq : offer judge after new (first ++ rej :: last) = first ++ rej :: last ↔
      ∀ old ∈ first, judge new old ≠ .removeOld := by
    rw [offer, offerLoop_reject judge after new first rej last hf hr]
    simp only [nil_append, append_left_inj, survivors, filter_eq_self, decide_eq_true_eq]
  have hex : ∃ o ∈ first ++ rej :: last, judge new o = .rejectNew := ⟨rej, by simp, hr⟩
  rw [heq]
  constructor
  · rintro h pre old post hs hj -
    obtain ⟨mid, rfl, hm⟩ | ⟨mid, rfl, hm⟩ := append_eq_append_iff.mp hs
    · cases mid with
      | nil => cases hm; rw [hr] at hj; cases hj
      | cons o mid => cases hm; exact ⟨rej, by simp, hr⟩
    · cases mid with
      | nil => cases hm; rw [hr] at hj; cases hj
      | cons o mid => cases hm; exact absurd hj (h hex old (by simp))
  · intro h _ old ho hj
    obtain ⟨pre, post, rfl⟩ := append_of_mem ho
    obtain ⟨o, ho, hj⟩ := h pre old (post ++ rej :: last) (by simp) hj ⟨rej, by simp, hr⟩
    exact hf o (by simp [ho]) hj

theorem mem_survivors {x : α} {L : List α} :
    x ∈ survivors judge new L ↔ x ∈ L ∧ judge new x ≠ .removeOld := by
  simp [survivors]

theorem survivors_sublist : (survivors judge new L).Sublist L := filter_sublist

theorem mem_of_mem_offer {x : α} {L : List α} (h : x ∈ offer judge after new L) :
    x = new ∨ x ∈ L := by
  obtain ⟨_, lo, hi, hs, ho, _⟩ | ⟨pre, old, post, rfl, _, ho⟩ := offer_cases judge after new L
  · rw [ho] at h
    obtain h | h := mem_append.mp h
    · exact inr ((mem_survivors judge new).mp (hs ▸ mem_append_left _ h)).1
    obtain rfl | h := mem_cons.mp h
    · exact inl rfl
    · exact inr ((mem_survivors judge new).mp (hs ▸ mem_append_right _ h)).1
  rw [ho] at h
  obtain h | h := mem_append.mp h
  · exact inr (mem_append_left _ ((mem_survivors judge new).mp h).1)
  · exact inr (mem_append_right _ h)

theorem offer_congr (judge' : α → α → Verdict) {L : List α}
    (h : ∀ old ∈ L, judge new old = judge' new old) :
    offer judge after new L = offer judge' after new L := by
  have hl : ∀ kept i, offerLoop judge after new kept i L = offerLoop judge' after new kept i L := by
    induction L with
    | nil => intro kept i; rfl
    | cons old L ih =>
      intro kept i
      have hr := ih fun o ho => h o (mem_cons_of_mem _ ho)
      simp only [offerLoop, ← h old (mem_cons_self ..), hr]
  rw [offer, offer, hl]

theorem mem_offer_of_keepBoth {L : List α} (h : ∀ old ∈ L, judge new old = .keepBoth) {x : α} :
    x ∈ offer judge after new L ↔ x = new ∨ x ∈ L := by
  refine ⟨mem_of_mem_offer judge after new, fun hx => ?_⟩
  obtain ⟨_, lo, hi, hs, ho, _⟩ | ⟨pre, old, post, rfl, hr, _⟩ := offer_cases judge after new L
  · rw [ho]
    obtain rfl | hx := hx
    · simp
    have hxs := hs ▸ (mem_survivors judge new).mpr ⟨hx, by simp [h x hx]⟩
    rcases mem_append.mp hxs with hxs | hxs <;> simp [hxs]
  rw [h old (by simp)] at hr
  cases hr

end Round

/-! ## Sortedness -/

section Sorted

variable {α K : Type} [LinearOrder K] (judge : α → α → Verdict) (key : α → K)

/-- Sorted by `key`, equal keys allowed. -/
def SortedBy (L : List α) : Prop := L.Pairwise (fun x y => key x ≤ key y)

instance (L : List α) : Decidable (SortedBy key L) := inferInstanceAs (Decidable (List.Pairwise _ L))

/-- The newcomer belongs behind the members whose key is not larger. -/
def behind (new old : α) : Bool := decide (key old ≤ key new)

/-- **A round keeps the list sorted**, whatever the judge says. -/
theorem offer_sorted (new : α) {L : List α} (hs : SortedBy key L) :
    SortedBy key (offer judge (behind key) new L) := by
  rcases offer_cases judge (behind key) new L with
    ⟨_, lo, hi, hsr, ho, hhi, hlo⟩ | ⟨pre, old, post, rfl, _, ho⟩
  · have hsl := hsr ▸ hs.sublist (survivors_sublist judge new L)
    obtain ⟨hslo, hsh, hc⟩ := pairwise_append.mp hsl
    have hle : ∀ x ∈ lo, key x ≤ key new := by
      intro x hx
      have hne : lo ≠ [] := ne_nil_of_mem hx
      have hl : key (lo.getLast hne) ≤ key new := by
        simpa [behind] using hlo _ (getLast?_eq_getLast_of_ne_nil hne)
      -- in a sorted list nothing exceeds the last member
      have hxl : key x ≤ key (lo.getLast hne) := by
        have hsp := dropLast_append_getLast hne
        rw [← hsp] at hx hslo
        obtain hx | hx := mem_append.mp hx
        · exact (pairwise_append.mp hslo).2.2 x hx _ (by simp)
        · rw [mem_singleton.mp hx]
      exact hxl.trans hl
    have hge : ∀ y ∈ hi, key new ≤ key y := by
      intro y hy
      have := hhi y hy
      simp only [behind, decide_eq_false_iff_not, not_le] at this
      exact this.le
    rw [ho]
    refine pairwise_append.mpr ⟨hslo, pairwise_cons.mpr ⟨hge, hsh⟩, ?_⟩
    intro x hx y hy
    obtain rfl | hy := mem_cons.mp hy
    · exact hle x hx
    · exact hc x hx y hy
  rw [ho]
  exact hs.sublist ((survivors_sublist judge new pre).append_right _)

end Sorted

/-! ## Whole tournaments -/

section Runs

variable {α : Type} (judge : α → α → Verdict) (after : α → α → Bool)

def offerAll (L : List α) (xs : List α) : List α := xs.foldl (fun L x => offer judge after x L) L

@[simp] theorem offerAll_nil (L : List α) : offerAll judge after L [] = L := rfl

@[simp] theorem offerAll_cons (L : List α) (x : α) (xs : List α) :
    offerAll judge after L (x :: xs) = offerAll judge after (offer judge after x L) xs := rfl

theorem length_offer_le (new : α) (L : List α) :
    (offer judge after new L).length ≤ L.length + 1 := by
  rcases offer_cases judge after new L with
    ⟨_, lo, hi, hs, ho, _⟩ | ⟨pre, old, post, rfl, _, ho⟩
  · have hle := (survivors_sublist judge new L).length_le
    rw [hs] at hle
    rw [ho]
    simp only [length_append, length_cons] at hle ⊢
    omega
  have hle := (survivors_sublist judge new pre).length_le
  rw [ho]
  simp only [length_append, length_cons] at hle ⊢
  omega

theorem length_offerAll_le (L xs : List α) :
    (offerAll judge after L xs).length ≤ L.length + xs.length := by
  induction xs generalizing L with
  | nil => simp
  | cons x xs ih =>
    have h1 := ih (offer judge after x L)
    have h2 := length_offer_le judge after x L
    simp only [offerAll_cons, length_cons]
    omega

theorem length_offer_eq_iff (new : α) (L : List α) :
    (offer judge after new L).length = L.length + 1 ↔ ∀ old ∈ L, judge new old = .keepBoth := by
  rcases offer_cases judge after new L with
    ⟨hno, lo, hi, hs, ho, _⟩ | ⟨pre, old, post, rfl, hr, ho⟩
  · have hl : (offer judge after new L).length = (survivors judge new L).length + 1 := by
      rw [ho, hs]; simp; omega
    rw [hl, add_right_cancel_iff, survivors, length_filter_eq_length_iff]
    refine forall₂_congr fun old hol => ?_
    cases hj : judge new old <;> simp_all
  have hle := (survivors_sublist judge new pre).length_le
  constructor
  · intro hl
    rw [ho] at hl
    simp only [length_append, length_cons] at hl
    omega
  · intro ha
    rw [ha old (by simp)] at hr
    cases hr

/-- **Nobody is discarded** in a tournament exactly when every contestant keeps
those before it. -/
theorem length_offerAll_eq_iff (L xs : List α) :
    (offerAll judge after L xs).length = L.length + xs.length ↔
      (∀ x ∈ xs, ∀ old ∈ L, judge x old = .keepBoth) ∧
      xs.Pairwise (fun old new => judge new old = .keepBoth) := by
  induction xs generalizing L with
  | nil => simp
  | cons x xs ih =>
    have h1 := length_offer_le judge after x L
    have h2 := length_offerAll_le judge after (offer judge after x L) xs
    have hs : (offerAll judge after L (x :: xs)).length = L.length + (x :: xs).length ↔
        (offer judge after x L).length = L.length + 1 ∧
        (offerAll judge after (offer judge after x L) xs).length =
          (offer judge after x L).length + xs.length := by
      simp only [offerAll_cons, length_cons]
      omega
    rw [hs, length_offer_eq_iff, ih, pairwise_cons]
    constructor
    · rintro ⟨hx, ha, hpw⟩
      have hm {y : α} := mem_offer_of_keepBoth judge after x hx (x := y)
      refine ⟨?_, fun y hy => ha y hy x (hm.mpr (inl rfl)), hpw⟩
      intro y hy old ho
      obtain rfl | hy := mem_cons.mp hy
      · exact hx old ho
      · exact ha y hy old (hm.mpr (inr ho))
    · rintro ⟨ha, hx, hpw⟩
      refine ⟨ha x (mem_cons_self ..), ?_, hpw⟩
      intro y hy old ho
      obtain rfl | ho := mem_of_mem_offer judge after x ho
      · exact hx y hy
      · exact ha y (mem_cons_of_mem _ hy) old ho

/-- A tournament that discards nobody does not depend on who judges it, as long
as the other judge discards nobody either. -/
theorem offerAll_congr_of_keepBoth {judge judge' : α → α → Verdict} {L xs : List α}
    (hL : ∀ x ∈ xs, ∀ old ∈ L, judge x old = .keepBoth)
    (hxs : xs.Pairwise (fun old new => judge new old = .keepBoth))
    (hk : ∀ new old, judge' new old = .keepBoth) :
    offerAll judge after L xs = offerAll judge' after L xs := by
  induction xs generalizing L with
  | nil => rfl
  | cons x xs ih =>
    obtain ⟨hx, hpw⟩ := pairwise_cons.mp hxs
    have hr := offer_congr judge after x judge' fun old ho => by
        rw [hk, hL x (mem_cons_self ..) old ho]
    rw [offerAll_cons, offerAll_cons, ← hr]
    apply ih _ hpw
    intro y hy old ho
    obtain rfl | ho := mem_of_mem_offer judge after x ho
    · exact hx y hy
    · exact hL y (mem_cons_of_mem _ hy) old ho

/-- `covers y x`: `y` can stand in for `x`.  The judge discards only what the
other side covers. -/
structure Sound (covers : α → α → Prop) : Prop where
  refl : ∀ x, covers x x
  trans : ∀ {x y z}, covers x y → covers y z → covers x z
  remove : ∀ {new old}, judge new old = .removeOld → covers new old
  reject : ∀ {new old}, judge new old = .rejectNew → covers old new

variable {judge} {covers : α → α → Prop}

theorem offer_covered (hsn : Sound judge covers) (new : α) (L : List α) :
    ∀ x, x = new ∨ x ∈ L → ∃ y ∈ offer judge after new L, covers y x := by
  -- a removed member is covered by the newcomer, hence by whoever covers that
  have hol (z : α) (hz : z ∈ offer judge after new L) (hzn : covers z new)
      (hk : ∀ x ∈ survivors judge new L, x ∈ offer judge after new L ∨ covers z x) :
      ∀ x, x = new ∨ x ∈ L → ∃ y ∈ offer judge after new L, covers y x := by
    rintro x (rfl | hx)
    · exact ⟨z, hz, hzn⟩
    by_cases hr : judge new x = .removeOld
    · exact ⟨z, hz, hsn.trans hzn (hsn.remove hr)⟩
    obtain h | h := hk x ((mem_survivors judge new).mpr ⟨hx, hr⟩)
    · exact ⟨x, h, hsn.refl x⟩
    · exact ⟨z, hz, h⟩
  rcases offer_cases judge after new L with
    ⟨_, lo, hi, hs, ho, _⟩ | ⟨pre, old, post, rfl, hrj, ho⟩
  · apply hol new (by simp [ho]) (hsn.refl new)
    intro x hx
    left
    rw [hs] at hx
    rw [ho]
    rcases mem_append.mp hx with hx | hx <;> simp [hx]
  apply hol old (by simp [ho]) (hsn.reject hrj)
  intro x hx
  left
  obtain ⟨hxL, hxr⟩ := (mem_survivors judge new).mp hx
  rw [ho]
  obtain h | h := mem_append.mp hxL
  · exact mem_append_left _ ((mem_survivors judge new).mpr ⟨h, hxr⟩)
  · exact mem_append_right _ h

/-- **Coverage of a whole tournament.** -/
theorem offerAll_covered (hs : Sound judge covers) (L xs : List α) :
    ∀ x, x ∈ L ∨ x ∈ xs → ∃ y ∈ offerAll judge after L xs, covers y x := by
  induction xs generalizing L with
  | nil =>
    rintro x (hx | hx)
    · exact ⟨x, hx, hs.refl x⟩
    · simp at hx
  | cons c xs ih =>
    intro x hx
    have hr : x = c ∨ x ∈ L ∨ x ∈ xs := by
      obtain hx | hx := hx
      · exact inr (inl hx)
      obtain hx | hx := mem_cons.mp hx
      · exact inl hx
      · exact inr (inr hx)
    obtain h | h := or_assoc.mpr hr
    · obtain ⟨y, hy, hyx⟩ := offer_covered after hs c L x h
      obtain ⟨z, hz, hzy⟩ := ih (offer judge after c L) y (inl hy)
      exact ⟨z, hz, hs.trans hzy hyx⟩
    exact ih (offer judge after c L) x (inr h)

end Runs

/-! ## Cost of discarding -/

section Cost

variable {α K : Type} [Field K] [LinearOrder K] [IsStrictOrderedRing K]
variable {judge : α → α → Verdict} (after : α → α → Bool) {cost : α → K} {c : K}

/-- The judge lets a discarder be at most `c` times as costly. -/
structure Lossy (judge : α → α → Verdict) (cost : α → K) (c : K) : Prop where
  one_le : 1 ≤ c
  remove : ∀ {new old}, 0 ≤ cost new → 0 ≤ cost old →
    judge new old = .removeOld → cost new ≤ c * cost old
  reject : ∀ {new old}, 0 ≤ cost new → 0 ≤ cost old →
    judge new old = .rejectNew → cost old ≤ c * cost new

theorem Lossy.weaken (h : Lossy judge cost c) {x y : α} {m n : Nat} (hx : 0 ≤ cost x)
    (hmn : m ≤ n) (hy : cost y ≤ c ^ m * cost x) : cost y ≤ c ^ n * cost x :=
  hy.trans (mul_le_mul_of_nonneg_right (pow_le_pow_right₀ h.one_le hmn) hx)

theorem length_survivors_lt {new x : α} {L : List α} (hx : x ∈ L)
    (hr : judge new x = .removeOld) : (survivors judge new L).length < L.length := by
  induction L with
  | nil => simp at hx
  | cons a L ih =>
    have hle := (survivors_sublist judge new L).length_le
    rw [survivors_cons]
    obtain rfl | hx := mem_cons.mp hx
    · simp only [hr, if_true, length_cons]; omega
    have := ih hx
    split <;> simp only [length_cons] <;> omega

/-- One round: whoever is discarded leaves somebody at most `c ^ d` times as
costly, `d` being the number discarded in the round.  A newcomer may remove a
member and then be rejected by another, so that one offer can cost `c ^ 2`. -/
theorem offer_cost (h : Lossy judge cost c) (new : α) (L : List α)
    (hp : ∀ x, x = new ∨ x ∈ L → 0 ≤ cost x) {d : Nat}
    (hd : L.length + 1 = (offer judge after new L).length + d) :
    ∀ x, x = new ∨ x ∈ L → ∃ y ∈ offer judge after new L, cost y ≤ c ^ d * cost x := by
  have hc0 : 0 ≤ c := zero_le_one.trans h.one_le
  have hn0 := hp new (inl rfl)
  have hse (x : α) (hx : x = new ∨ x ∈ L) : cost x ≤ c ^ 0 * cost x := by simp
  rcases offer_cases judge after new L with
    ⟨_, lo, hi, hs, ho, _⟩ | ⟨pre, old, post, rfl, hrj, ho⟩
  · have hl : (offer judge after new L).length = (survivors judge new L).length + 1 := by
      rw [ho, hs]; simp; omega
    rintro x (rfl | hx)
    · exact ⟨x, by simp [ho], h.weaken (hp x (inl rfl)) (Nat.zero_le d) (hse x (inl rfl))⟩
    have hx0 := hp x (inr hx)
    by_cases hr : judge new x = .removeOld
    · have hlt := length_survivors_lt hx hr
      refine ⟨new, by simp [ho], h.weaken hx0 (m := 1) (by omega) ?_⟩
      simpa using h.remove hn0 hx0 hr
    refine ⟨x, ?_, h.weaken hx0 (Nat.zero_le d) (hse x (inr hx))⟩
    have hxs := (mem_survivors judge new).mpr ⟨hx, hr⟩
    rw [hs] at hxs
    rw [ho]
    rcases mem_append.mp hxs with hxs | hxs <;> simp [hxs]
  have hl : (offer judge after new (pre ++ old :: post)).length =
      (survivors judge new pre).length + (post.length + 1) := by rw [ho]; simp
  have hsl := (survivors_sublist judge new pre).length_le
  simp only [length_append, length_cons] at hd
  have hn := h.reject hn0 (hp old (inr (by simp))) hrj
  have hol : old ∈ offer judge after new (pre ++ old :: post) := by simp [ho]
  rintro x (rfl | hx)
  · refine ⟨old, hol, h.weaken (hp x (inl rfl)) (m := 1) (by omega) ?_⟩
    simpa using hn
  have hx0 := hp x (inr hx)
  have hk (hxo : x ∈ offer judge after new (pre ++ old :: post)) :
      ∃ y ∈ offer judge after new (pre ++ old :: post), cost y ≤ c ^ d * cost x :=
    ⟨x, hxo, h.weaken hx0 (Nat.zero_le d) (hse x (inr hx))⟩
  obtain hx | hx := mem_append.mp hx
  · by_cases hr : judge new x = .removeOld
    · have hlt := length_survivors_lt hx hr
      refine ⟨old, hol, h.weaken hx0 (m := 2) (by omega) ?_⟩
      calc cost old ≤ c * cost new := hn
        _ ≤ c * (c * cost x) := mul_le_mul_of_nonneg_left (h.remove hn0 hx0 hr) hc0
        _ = c ^ 2 * cost x := by ring
    apply hk
    rw [ho]
    exact mem_append_left _ ((mem_survivors judge new).mpr ⟨hx, hr⟩)
  apply hk
  rw [ho]
  exact mem_append_right _ hx

/-- **Loss of a whole tournament**: `d` is the number of contestants discarded. -/
theorem offerAll_cost (h : Lossy judge cost c) (xs : List α) :
    ∀ (L : List α) (d : Nat), (∀ x, x ∈ L ∨ x ∈ xs → 0 ≤ cost x) →
      L.length + xs.length = (offerAll judge after L xs).length + d →
      ∀ x, x ∈ L ∨ x ∈ xs → ∃ y ∈ offerAll judge after L xs, cost y ≤ c ^ d * cost x := by
  induction xs with
  | nil =>
    intro L d hp hd x hx
    have hxL : x ∈ L := by simpa using hx
    exact ⟨x, hxL, h.weaken (hp x hx) (Nat.zero_le d) (by simp)⟩
  | cons a xs ih =>
    intro L d hp hd x hx
    have hm (z : α) (hz : z = a ∨ z ∈ L) : z ∈ L ∨ z ∈ a :: xs := by
      obtain rfl | hz := hz
      · exact inr (mem_cons_self ..)
      · exact inl hz
    have hrn := length_offer_le judge after a L
    have hrs := length_offerAll_le judge after (offer judge after a L) xs
    obtain ⟨r, hr⟩ := Nat.exists_eq_add_of_le hrn
    obtain ⟨e, he⟩ := Nat.exists_eq_add_of_le hrs
    have hp' : ∀ z, z ∈ offer judge after a L ∨ z ∈ xs → 0 ≤ cost z := by
      rintro z (hz | hz)
      · exact hp z (hm z (mem_of_mem_offer judge after a hz))
      · exact hp z (inr (mem_cons_of_mem _ hz))
    have hx3 : (x = a ∨ x ∈ L) ∨ x ∈ xs := by
      obtain hx | hx := hx
      · exact inl (inr hx)
      obtain hx | hx := mem_cons.mp hx
      · exact inl (inl hx)
      · exact inr hx
    have hl : (offerAll judge after L (a :: xs)).length + d =
        (offerAll judge after (offer judge after a L) xs).length + (e + r) := by
      simp only [offerAll_cons, length_cons] at hd ⊢
      omega
    have hde : d = e + r := by simpa using hl
    obtain hx3 | hx3 := hx3
    · obtain ⟨y, hy, hyx⟩ := offer_cost after h a L (fun z hz => hp z (hm z hz)) hr x hx3
      obtain ⟨z, hz, hzy⟩ := ih _ e hp' he y (inl hy)
      refine ⟨z, hz, ?_⟩
      have hc0 : 0 ≤ c ^ e := pow_nonneg (zero_le_one.trans h.one_le) e
      calc cost z ≤ c ^ e * cost y := hzy
        _ ≤ c ^ e * (c ^ r * cost x) := mul_le_mul_of_nonneg_left hyx hc0
        _ = c ^ d * cost x := by rw [hde]; ring
    obtain ⟨z, hz, hzx⟩ := ih _ e hp' he x (inr hx3)
    exact ⟨z, hz, h.weaken (hp x hx) (by omega) hzx⟩

end Cost

end AthenaPG.Tournament
