import AthenaPG.Storage.DeadLockGraph
import Mathlib.Order.WellFoundedSet

/-!
The orders of wait queues that the deadlock detector proposes.

* `representative_marks`: the last member of a group on the queue stands for the group;
* `Tally`, `addConstraint_ok`: the counts of the last members, and the lists of constraints;
* `OutputOk`, `OutputExact`: the invariants of the output loop;
* `OutputExact.exists_next`: without a cycle of constraints there is a process to output;
* **`topoSort_spec`**: the new order of a queue keeps groups together, and who gets ahead is a
  waiter;
* **`topoSort_exact`**: success, and what the new order keeps;
* `expandConstraints_spec`: the same for all orders of a configuration.
-/

namespace AthenaPG.DeadLock
open List Function
open Relation (TransGen)

variable {Proc Lock : Type} [DecidableEq Proc] {tb : LockTable Proc Lock}

/-! ## TopoSort -/

/-- The process at an index is the last one of its group on the queue. -/
def LastOf (table : LockTable Proc Lock) (queue : List Proc) (k : Nat) (p : Proc) : Prop :=
  queue[k]? = some p ∧ ∀ k' p', queue[k']? = some p' → table.leaderOf p' = table.leaderOf p → k' ≤ k

def IsWaiter (table : LockTable Proc Lock) (constraints : List (Constraint Proc Lock)) (p : Proc) :
    Prop :=
  ∃ c ∈ constraints, c.waiter = table.leaderOf p

omit [DecidableEq Proc] in
theorem exists_lastOf {queue : List Proc} {k : Nat} {p : Proc} (h : queue[k]? = some p) :
    ∃ r q, k ≤ r ∧ LastOf tb queue r q ∧ tb.leaderOf q = tb.leaderOf p := by
  classical
  induction hn : queue.length - k using Nat.strong_induction_on generalizing k p with
  | h n ih =>
    by_cases hl : LastOf tb queue k p
    · exact ⟨k, p, le_refl k, hl, rfl⟩
    unfold LastOf at hl
    push Not at hl
    obtain ⟨k', p', hp', hld, hlt⟩ := hl h
    have hk := (List.getElem?_eq_some_iff.mp h).1
    obtain ⟨r, q, hr, hls, hq⟩ := ih (queue.length - k') (by omega) hp' rfl
    exact ⟨r, q, by omega, hls, hq.trans hld⟩

theorem representative_spec (queue : List Proc) (l : Proc) (j : Nat) (before : Nat → Int) :
    (∀ r, (representative tb queue l j (some r) before).1 = some r ∧
      ∀ k, (representative tb queue l j (some r) before).2 k =
        if k < j ∧ (queue[k]?).any (inGroup tb · l) then -1 else before k) ∧
    (((representative tb queue l j none before).1 = none ∧
        (∀ k < j, (queue[k]?).any (inGroup tb · l) = false) ∧
        (representative tb queue l j none before).2 = before) ∨
      ∃ r < j, (queue[r]?).any (inGroup tb · l) = true ∧
        (∀ k < j, r < k → (queue[k]?).any (inGroup tb · l) = false) ∧
        (representative tb queue l j none before).1 = some r ∧
        ∀ k, (representative tb queue l j none before).2 k =
          if k < r ∧ (queue[k]?).any (inGroup tb · l) then -1 else before k) := by
  induction j generalizing before with
  | zero => simp [representative]
  | succ j ih =>
    by_cases hmt : (queue[j]?).any (inGroup tb · l) = true
    · constructor
      · intro r
        have := (ih (update before j (-1))).1 r
        rw [representative, if_pos hmt]
        refine ⟨this.1, fun k => ?_⟩
        rw [this.2 k]
        by_cases hk : k = j
        · subst hk
          simp [hmt]
        rw [update_of_ne hk]
        have : k < j + 1 ↔ k < j := by omega
        simp [this]
      · have := (ih before).1 j
        rw [representative, if_pos hmt]
        refine .inr ⟨j, by omega, hmt, fun k hk hlt => by omega, this.1, this.2⟩
    have hs : ∀ found, representative tb queue l (j + 1) found before =
        representative tb queue l j found before := by
      intro found
      cases found <;> rw [representative, if_neg hmt]
    rw [hs none]
    constructor
    · intro r
      rw [hs (some r)]
      refine ⟨((ih before).1 r).1, fun k => ?_⟩
      rw [((ih before).1 r).2 k]
      by_cases hk : k = j
      · subst hk
        simp [hmt]
      have : k < j + 1 ↔ k < j := by omega
      simp [this]
    · obtain ⟨hf, hn, hb⟩ | ⟨r, hr, hm, hn, hf, hb⟩ := (ih before).2
      · refine .inl ⟨hf, fun k hk => ?_, hb⟩
        obtain hk | rfl := Nat.lt_succ_iff_lt_or_eq.mp hk
        · exact hn k hk
        · simpa using hmt
      refine .inr ⟨r, by omega, hm, fun k hk hlt => ?_, hf, hb⟩
      obtain hk | rfl := Nat.lt_succ_iff_lt_or_eq.mp hk
      · exact hn k hk hlt
      · simpa using hmt

variable {queue : List Proc} {l : Proc} {cs : List (Constraint Proc Lock)}
  {before : Nat → Int} {procs : List Proc}

theorem any_inGroup (hl : tb.leaderOf l = l) {k : Nat} :
    (queue[k]?).any (inGroup tb · l) = true ↔ ∃ p, queue[k]? = some p ∧ tb.leaderOf p = l := by
  cases queue[k]? with
  | none => simp
  | some p => simpa using inGroup_iff tb hl

/-- Counts before and after the members of a group but its last one were marked. -/
structure Marks (table : LockTable Proc Lock) (queue : List Proc) (l : Proc)
    (before before' : Nat → Int) : Prop where
  last : ∀ k p, LastOf table queue k p → before' k = before k
  keep : ∀ k, before k ≠ 0 → before' k ≠ 0
  mark : ∀ k p, queue[k]? = some p → table.leaderOf p = l → ¬ LastOf table queue k p → before' k ≠ 0

/-- The representative of a group is its last member, and the others are marked. -/
theorem representative_marks (queue : List Proc) (hl : tb.leaderOf l = l) (before : Nat → Int) :
    (∀ r, (representative tb queue l queue.length none before).1 = some r →
      ∃ p, LastOf tb queue r p ∧ tb.leaderOf p = l) ∧
    ((representative tb queue l queue.length none before).1 = none →
      ∀ (k : Nat) p, queue[k]? = some p → tb.leaderOf p ≠ l) ∧
    Marks tb queue l before (representative tb queue l queue.length none before).2 := by
  rcases (@representative_spec _ _ _ tb queue l queue.length before).2 with
    ⟨hf, hn, hb⟩ | ⟨r, hr, hm, hn, hf, hb⟩
  · have hno : ∀ (k : Nat) p, queue[k]? = some p → tb.leaderOf p ≠ l := fun k p hp hld => by
      have := hn k (List.getElem?_eq_some_iff.mp hp).1
      rw [(any_inGroup hl).mpr ⟨p, hp, hld⟩] at this
      cases this
    rw [hf, hb]
    exact ⟨nofun, fun _ => hno, fun k p _ => rfl, fun k h => h,
      fun k p hp hld _ => absurd hld (hno k p hp)⟩
  obtain ⟨q, hq, hql⟩ := (any_inGroup hl).mp hm
  have hls : LastOf tb queue r q := by
    refine ⟨hq, fun k' p' hp' hld => ?_⟩
    by_contra hlt
    have := hn k' (List.getElem?_eq_some_iff.mp hp').1 (by omega)
    rw [(any_inGroup hl).mpr ⟨p', hp', hld.trans hql⟩] at this
    cases this
  rw [hf]
  refine ⟨fun r' h => ?_, nofun, fun k p hp => ?_, fun k hk => ?_, fun k p hp hld hnt => ?_⟩
  · cases h
    exact ⟨q, hls, hql⟩
  · rw [hb k, if_neg]
    rintro ⟨hlt, ha⟩
    obtain ⟨p', hp', hld'⟩ := (any_inGroup hl).mp ha
    cases hp.1.symm.trans hp'
    have := hp.2 r q hq (hql.trans hld'.symm)
    omega
  · rw [hb k]
    split
    · decide
    · exact hk
  have hle := hls.2 k p hp (hld.trans hql.symm)
  have hne : k ≠ r := by
    rintro rfl
    cases hp.symm.trans hq
    exact hnt hls
  rw [hb k, if_pos ⟨by omega, (any_inGroup hl).mpr ⟨p, hp, hld⟩⟩]
  decide

/-- The counts of `TopoSort`: the last member of a group only counts if the group is a waiter, and
then the others are marked. -/
structure Counted (table : LockTable Proc Lock) (queue : List Proc)
    (constraints : List (Constraint Proc Lock)) (before : Nat → Int) : Prop where
  last : ∀ r p, LastOf table queue r p → before r ≠ 0 → IsWaiter table constraints p
  marked : ∀ k p, queue[k]? = some p → ¬ LastOf table queue k p →
    IsWaiter table constraints p → before k ≠ 0

omit [DecidableEq Proc] in
theorem IsWaiter.mono {cs' : List (Constraint Proc Lock)}
    (hs : cs ⊆ cs') {p : Proc} (h : IsWaiter tb cs p) : IsWaiter tb cs' p := by
  obtain ⟨c, hc, hw⟩ := h
  exact ⟨c, hs hc, hw⟩

/-! ## Counts -/

/-- The constraints about a queue: both groups have a process on it. -/
def relevant (table : LockTable Proc Lock) (queue : List Proc)
    (constraints : List (Constraint Proc Lock)) : List (Constraint Proc Lock) :=
  constraints.filter fun c => queue.any (fun p => table.leaderOf p = c.waiter) &&
    queue.any (fun p => table.leaderOf p = c.blocker)

/-- How many constraints make the group of a process wait for groups of a kind. -/
def blocks (table : LockTable Proc Lock) (constraints : List (Constraint Proc Lock)) (p : Proc)
    (live : Proc → Bool) : Nat :=
  constraints.countP fun c => c.waiter = table.leaderOf p && live c.blocker

/-- The groups with processes that are not output yet. -/
def isLive (table : LockTable Proc Lock) (remaining : List (Proc × Nat)) (b : Proc) : Bool :=
  remaining.any fun e => table.leaderOf e.1 = b

/-- The last member of a group counts the constraints with live blockers, and the others are marked
if the group is a waiter. -/
structure Tally (table : LockTable Proc Lock) (queue : List Proc)
    (constraints : List (Constraint Proc Lock)) (remaining : List (Proc × Nat))
    (before : Nat → Int) : Prop where
  last : ∀ r p, LastOf table queue r p →
    before r = blocks table constraints p (isLive table remaining)
  marked : ∀ k p, queue[k]? = some p → ¬ LastOf table queue k p →
    IsWaiter table constraints p → before k ≠ 0

/-- The lists of constraints hold the last members of the waiters of a blocker. -/
structure AfterOk (table : LockTable Proc Lock) (queue : List Proc)
    (constraints : List (Constraint Proc Lock)) (after : Nat → List Nat) : Prop where
  last : ∀ k, ∀ r ∈ after k, ∃ p, LastOf table queue r p
  count : ∀ k q r p, LastOf table queue k q → LastOf table queue r p →
    (after k).count r = blocks table constraints p (· = table.leaderOf q)

variable {c : Constraint Proc Lock} {after : Nat → List Nat}

theorem blocks_concat (p : Proc) (live : Proc → Bool) :
    blocks tb (cs ++ [c]) p live =
      blocks tb cs p live + if c.waiter = tb.leaderOf p ∧ live c.blocker then 1 else 0 := by
  rw [blocks, countP_append, countP_singleton]
  simp [blocks]

theorem blocks_split (p : Proc) {live live' : Proc → Bool} {b : Proc} (hb : live b = true)
    (hl : ∀ x, live' x = (live x && x ≠ b)) :
    blocks tb cs p live = blocks tb cs p live' + blocks tb cs p (· = b) := by
  unfold blocks
  induction cs with
  | nil => rfl
  | cons c cs ih =>
    rw [countP_cons, countP_cons, countP_cons, ih, hl]
    by_cases hc : c.blocker = b
    · simp [hc, hb]
      omega
    simp [hc]
    omega

omit [DecidableEq Proc] in
theorem LastOf.index_iff {r r' : Nat} {p p' : Proc} (h : LastOf tb queue r p)
    (h' : LastOf tb queue r' p') : r = r' ↔ tb.leaderOf p' = tb.leaderOf p := by
  refine ⟨?_, fun hl => le_antisymm (h'.2 r p h.1 hl.symm) (h.2 r' p' h'.1 hl)⟩
  rintro rfl
  rw [Option.some.inj (h.1.symm.trans h'.1)]

theorem addConstraint_ok {state : (Nat → Int) × (Nat → List Nat)} (hc : ConstraintOk tb c)
    (h : Tally tb queue cs queue.zipIdx state.1) (ha : AfterOk tb queue cs state.2) :
    Tally tb queue (cs ++ [c]) queue.zipIdx (addConstraint tb queue state c).1 ∧
      AfterOk tb queue (cs ++ [c]) (addConstraint tb queue state c).2 := by
  obtain ⟨hjj, hjn, hw⟩ := representative_marks queue hc.1 state.1
  unfold addConstraint
  generalize representative tb queue c.waiter queue.length none state.1 = result at *
  have hm : ∀ k p, queue[k]? = some p → ¬ LastOf tb queue k p →
      IsWaiter tb (cs ++ [c]) p → result.2 k ≠ 0 := by
    rintro k p hp hn ⟨c', hc', hwt⟩
    obtain hc' | hc' := mem_append.mp hc'
    · exact hw.keep k (h.marked k p hp hn ⟨c', hc', hwt⟩)
    cases mem_singleton.mp hc'
    exact hw.mark k p hp hwt.symm hn
  obtain ⟨_ | jj, before⟩ := result
  · have hno : ∀ r p, LastOf tb queue r p → ∀ live, blocks tb (cs ++ [c]) p live =
        blocks tb cs p live := fun r p hr live => by
      rw [blocks_concat, if_neg fun hb => hjn rfl r p hr.1 hb.1.symm, Nat.add_zero]
    refine ⟨⟨fun r p hr => ?_, hm⟩, ha.last, fun k q r p hk hr => ?_⟩
    · rw [hno r p hr, ← h.last r p hr]
      exact hw.last r p hr
    rw [hno r p hr]
    exact ha.count k q r p hk hr
  obtain ⟨hkk, hkn, hb⟩ := representative_marks queue hc.2 before
  dsimp only at hm ⊢
  generalize representative tb queue c.blocker queue.length none before = result' at *
  have hbr : ∀ r p, LastOf tb queue r p → result'.2 r = blocks tb cs p (isLive tb queue.zipIdx) :=
    fun r p hr => (hb.last r p hr).trans ((hw.last r p hr).trans (h.last r p hr))
  obtain ⟨_ | kk, before'⟩ := result'
  · refine ⟨⟨fun r p hr => ?_, fun k p hp hn hwt => hb.keep k (hm k p hp hn hwt)⟩, ha.last,
      fun k q r p hk hr => ?_⟩
    · rw [blocks_concat, if_neg]
      · exact hbr r p hr
      rintro ⟨-, hl⟩
      obtain ⟨e, he, hel⟩ := any_eq_true.mp hl
      exact hkn rfl e.2 e.1 (mem_zipIdx_iff_getElem?.mp he) (of_decide_eq_true hel)
    rw [blocks_concat, if_neg fun hb => hkn rfl k q hk.1 (of_decide_eq_true hb.2).symm]
    exact ha.count k q r p hk hr
  obtain ⟨w, hlw, hwl⟩ := hjj jj rfl
  obtain ⟨b, hlb, hbl⟩ := hkk kk rfl
  have hji : ∀ r p, LastOf tb queue r p → (r = jj ↔ c.waiter = tb.leaderOf p) :=
    fun r p hr => hwl ▸ hr.index_iff hlw
  have hki : ∀ k q, LastOf tb queue k q → (k = kk ↔ c.blocker = tb.leaderOf q) :=
    fun k q hk => hbl ▸ hk.index_iff hlb
  dsimp only at hbr ⊢
  refine ⟨⟨fun r p hr => ?_, fun k p hp hn hwt => ?_⟩, fun k r hr => ?_, fun k q r p hk hr => ?_⟩
  · rw [blocks_concat]
    by_cases he : r = jj
    · have hl : isLive tb queue.zipIdx c.blocker = true :=
        any_eq_true.mpr ⟨(b, kk), mem_zipIdx_iff_getElem?.mpr hlb.1, decide_eq_true hbl⟩
      rw [he, update_self, ← he, hbr r p hr, if_pos ⟨(hji r p hr).mp he, hl⟩]
      rfl
    rw [update_of_ne he, hbr r p hr, if_neg fun hb => he ((hji r p hr).mpr hb.1)]
    rfl
  · have hk : k ≠ jj := by
      rintro rfl
      cases hp.symm.trans hlw.1
      exact hn hlw
    rw [update_of_ne hk]
    exact hb.keep k (hm k p hp hn hwt)
  · by_cases he : k = kk
    · rw [he, update_self] at hr
      obtain rfl | hr := mem_cons.mp hr
      · exact ⟨w, hlw⟩
      · exact ha.last kk r hr
    rw [update_of_ne he] at hr
    exact ha.last k r hr
  rw [blocks_concat, ← ha.count k q r p hk hr]
  by_cases he : k = kk
  · rw [he, update_self, count_cons, ← he]
    refine congrArg _ (if_congr ?_ rfl rfl)
    rw [beq_iff_eq, eq_comm, hji r p hr]
    simp [(hki k q hk).mp he]
  rw [update_of_ne he, if_neg fun hb => he ((hki k q hk).mpr (of_decide_eq_true hb.2)),
    Nat.add_zero]

theorem foldl_addConstraint_ok (todo : List (Constraint Proc Lock))
    (state : (Nat → Int) × (Nat → List Nat)) {done : List (Constraint Proc Lock)}
    (ht : ∀ c ∈ todo, ConstraintOk tb c) (h : Tally tb queue done queue.zipIdx state.1)
    (ha : AfterOk tb queue done state.2) :
    Tally tb queue (done ++ todo) queue.zipIdx (todo.foldl (addConstraint tb queue) state).1 ∧
      AfterOk tb queue (done ++ todo) (todo.foldl (addConstraint tb queue) state).2 := by
  induction todo generalizing done state with
  | nil => simpa using ⟨h, ha⟩
  | cons c rest ih =>
    obtain ⟨h', ha'⟩ := addConstraint_ok (ht c mem_cons_self) h ha
    rw [append_cons]
    exact ih _ (fun c' hc' => ht c' (mem_cons_of_mem _ hc')) h' ha'

theorem decrement_eq (pre : List Nat) (k : Nat) :
    decrement before pre k = before k - pre.count k := by
  unfold decrement
  induction pre generalizing before with
  | nil => simp
  | cons r pre ih =>
    rw [foldl_cons, ih, count_cons]
    by_cases h : r = k
    · subst h
      simp
      omega
    rw [update_of_ne (Ne.symm h)]
    simp [h]

/-! ## The output loop -/

theorem pair_sublist_of_lt {α : Type} {l : List α} {i j : Nat} {x u : α} (hx : l[i]? = some x)
    (hu : l[j]? = some u) (hlt : i < j) : [x, u] <+ l := by
  have hf := mem_iff_getElem?.mpr ⟨i, by rw [getElem?_take, if_pos hlt, hx]⟩
  have hb := mem_iff_getElem?.mpr ⟨0, by rw [getElem?_drop]; exact hu⟩
  rw [← take_append_drop j l]
  exact (singleton_sublist.mpr hf).append (singleton_sublist.mpr hb)

/-- A process may stand before another one in the new order: it stood before the other's group in
the queue, or is a waiter. -/
def MayPrecede (table : LockTable Proc Lock) (queue : List Proc)
    (constraints : List (Constraint Proc Lock)) (x u : Proc) : Prop :=
  table.leaderOf x ≠ table.leaderOf u →
    (∃ u', table.leaderOf u' = table.leaderOf u ∧ List.Sublist [x, u'] queue) ∨
      IsWaiter table constraints x

/-- What holds of `topoProcs` and `ordering` in the output loop. -/
structure OutputOk (table : LockTable Proc Lock) (queue : List Proc)
    (constraints : List (Constraint Proc Lock)) (remaining : List (Proc × Nat))
    (ordering : List Proc) : Prop where
  sublist : List.Sublist remaining queue.zipIdx
  perm : (remaining.map Prod.fst ++ ordering).Perm queue
  whole : ∀ k p, queue[k]? = some p → (∀ u ∈ ordering, table.leaderOf p ≠ table.leaderOf u) →
    (p, k) ∈ remaining
  apart : ∀ e ∈ remaining, ∀ u ∈ ordering, table.leaderOf e.1 ≠ table.leaderOf u
  grouped : Grouped table ordering
  ahead : ordering.Pairwise (MayPrecede table queue constraints)
  aheadRemaining : ∀ e ∈ remaining, ∀ u ∈ ordering, MayPrecede table queue constraints e.1 u

section Output

variable {queue : List Proc} {cs : List (Constraint Proc Lock)}
  {rem : List (Proc × Nat)} {ordering : List Proc} {before : Nat → Int} {next : Proc × Nat}

omit [DecidableEq Proc]

variable {e : Proc × Nat}

section

variable (h : OutputOk tb queue cs rem ordering)
include h

theorem OutputOk.getElem? (he : e ∈ rem) : queue[e.2]? = some e.1 :=
  mem_zipIdx_iff_getElem?.mp (h.sublist.subset he)

theorem OutputOk.count_behind
    (hnx : rem.reverse.find? (fun entry => decide (before entry.2 = 0)) = some next)
    (he : e ∈ rem) (hlt : next.2 < e.2) : before e.2 ≠ 0 := by
  obtain ⟨-, behind, front, heq, hb⟩ := find?_eq_some_iff_append.mp hnx
  have hsp : rem = front.reverse ++ next :: behind.reverse := by
    rw [← reverse_reverse rem, heq]
    simp
  have hs : rem.Pairwise fun a b => a.2 < b.2 := by
    refine List.Pairwise.sublist h.sublist ?_
    rw [← pairwise_map (f := Prod.snd), zipIdx_map_snd]
    exact pairwise_lt_range'
  rw [hsp] at he hs
  obtain he | he := mem_append.mp he
  · have := (pairwise_append.mp hs).2.2 e he next mem_cons_self
    omega
  obtain rfl | he := mem_cons.mp he
  · omega
  · simpa using hb e (mem_reverse.mp he)

theorem OutputOk.exists_last (he : e ∈ rem) :
    ∃ q r, e.2 ≤ r ∧ LastOf tb queue r q ∧ tb.leaderOf q = tb.leaderOf e.1 ∧ (q, r) ∈ rem := by
  obtain ⟨r, q, hle, hls, hl⟩ := @exists_lastOf _ _ tb _ _ _ (h.getElem? he)
  refine ⟨q, r, hle, hls, hl, h.whole r q hls.1 fun u hu => ?_⟩
  rw [hl]
  exact h.apart e he u hu

section

variable (hco : Counted tb queue cs before)
  (hnx : rem.reverse.find? (fun entry => decide (before entry.2 = 0)) = some next)
  (he : e ∈ rem)
include hco hnx he

theorem OutputOk.isWaiter_behind (hlt : next.2 < e.2) : IsWaiter tb cs e.1 := by
  obtain ⟨q, r, hle, hls, hl, hm⟩ := h.exists_last he
  have hcn := h.count_behind hnx hm (by dsimp only; omega)
  obtain ⟨c, hc, hw⟩ := hco.last r q hls hcn
  exact ⟨c, hc, hw.trans hl⟩

theorem OutputOk.mayPrecede_next {u : Proc} (hu : tb.leaderOf u = tb.leaderOf next.1) :
    MayPrecede tb queue cs e.1 u := by
  intro hne
  have hm := mem_reverse.mp (mem_of_find?_eq_some hnx)
  obtain hlt | heq | hlt := Nat.lt_trichotomy e.2 next.2
  · exact .inl ⟨next.1, hu.symm, pair_sublist_of_lt (h.getElem? he) (h.getElem? hm) hlt⟩
  · have := h.getElem? he
    rw [heq, h.getElem? hm] at this
    rw [← Option.some.inj this] at hne
    exact absurd hu.symm hne
  exact .inr (h.isWaiter_behind hco hnx he hlt)

end

end

end Output

theorem mem_groupEntries {rem : List (Proc × Nat)} {p : Proc} :
    ∀ u ∈ ((groupEntries tb rem (tb.leaderOf p)).map Prod.fst).reverse,
      tb.leaderOf u = tb.leaderOf p ∧ ∃ k, (u, k) ∈ rem := by
  intro u hu
  obtain ⟨e, he, rfl⟩ := mem_map.mp (mem_reverse.mp hu)
  obtain ⟨he, hin⟩ := mem_filter.mp he
  exact ⟨(inGroup_iff tb (leaderOf_leaderOf _)).mp hin, e.2, he⟩

theorem mem_otherEntries {rem : List (Proc × Nat)} {p : Proc} {e : Proc × Nat} :
    e ∈ otherEntries tb rem (tb.leaderOf p) ↔ e ∈ rem ∧ tb.leaderOf e.1 ≠ tb.leaderOf p := by
  unfold otherEntries
  rw [mem_filter, Bool.not_eq_true', ← Bool.not_eq_true, inGroup_iff tb (leaderOf_leaderOf _)]

theorem OutputOk.step {rem : List (Proc × Nat)} {ord : List Proc} {next : Proc × Nat}
    (h : OutputOk tb queue cs rem ord) (hco : Counted tb queue cs before)
    (hnx : rem.reverse.find? (fun entry => decide (before entry.2 = 0)) = some next) :
    OutputOk tb queue cs (otherEntries tb rem (tb.leaderOf next.1))
      (((groupEntries tb rem (tb.leaderOf next.1)).map Prod.fst).reverse ++
        ord) := by
  have hm := mem_reverse.mp (mem_of_find?_eq_some hnx)
  have hg := @mem_groupEntries _ _ _ tb rem next.1
  have hn : next.1 ∈ ((groupEntries tb rem (tb.leaderOf next.1)).map
      Prod.fst).reverse :=
    mem_reverse.mpr (mem_map_of_mem
      (mem_filter.mpr ⟨hm, inGroup_leaderOf tb next.1⟩))
  refine ⟨?_, ?_, ?_, ?_, ?_, ?_, ?_⟩
  · exact filter_sublist.trans h.sublist
  · have hs : (groupEntries tb rem (tb.leaderOf next.1) ++
        otherEntries tb rem (tb.leaderOf next.1)).Perm rem :=
      filter_append_perm _ _
    refine List.Perm.trans ?_ h.perm
    rw [← append_assoc]
    refine List.Perm.append_right _ ?_
    refine List.Perm.trans ?_ (hs.map Prod.fst)
    rw [map_append]
    exact (perm_append_comm.trans ((reverse_perm _).append_right _))
  · intro k p hp hnt
    refine mem_otherEntries.mpr ⟨h.whole k p hp fun u hu => hnt u (mem_append_right _ hu), ?_⟩
    exact hnt next.1 (mem_append_left _ hn)
  · intro e he
    obtain ⟨he, hne⟩ := mem_otherEntries.mp he
    refine forall_mem_append.mpr ⟨fun u hu => ?_, h.apart e he⟩
    rw [(hg u hu).1]
    exact hne
  · intro a
    by_cases ha : tb.leaderOf next.1 = a
    · refine ⟨[], _, ord, rfl, by simp, fun p hp => (hg p hp).1.trans ha, fun p hp => ?_⟩
      rw [← ha]
      exact (h.apart next hm p hp).symm
    obtain ⟨front, block, back, heq, hf, hb, hbc⟩ := h.grouped a
    refine ⟨_ ++ front, block, back, by rw [heq, append_assoc],
      forall_mem_append.mpr ⟨fun p hp => ?_, hf⟩, hb, hbc⟩
    rw [(hg p hp).1]
    exact ha
  · refine pairwise_append.mpr ⟨?_, h.ahead, fun x hx u hu => ?_⟩
    · refine pairwise_of_forall_mem_list fun x hx u hu hne => ?_
      exact absurd ((hg x hx).1.trans (hg u hu).1.symm) hne
    obtain ⟨k, hk⟩ := (hg x hx).2
    exact h.aheadRemaining (x, k) hk u hu
  intro e he
  obtain ⟨he, -⟩ := mem_otherEntries.mp he
  exact forall_mem_append.mpr
    ⟨fun u hu => h.mayPrecede_next hco hnx he (hg u hu).1, h.aheadRemaining e he⟩

/-- A process may stand before another one, or be it: no constraint says otherwise. -/
def Allowed (table : LockTable Proc Lock) (constraints : List (Constraint Proc Lock))
    (x u : Proc) : Prop :=
  ∀ c ∈ constraints, c.waiter = table.leaderOf u → c.blocker ≠ table.leaderOf x

/-- The group of a waiter and the group of its blocker, in the relevant constraints. -/
def MustPrecede (table : LockTable Proc Lock) (queue : List Proc)
    (constraints : List (Constraint Proc Lock)) (a b : Proc) : Prop :=
  ∃ c ∈ relevant table queue constraints, c.waiter = a ∧ c.blocker = b

/-- What holds of the output loop, with the counts. -/
structure OutputExact (table : LockTable Proc Lock) (queue : List Proc)
    (constraints : List (Constraint Proc Lock)) (remaining : List (Proc × Nat))
    (before : Nat → Int) (ordering : List Proc) : Prop where
  tally : Tally table queue constraints remaining before
  output : OutputOk table queue (relevant table queue constraints) remaining ordering
  self : ∀ u ∈ ordering, Allowed table constraints u u
  allowed : ordering.Pairwise (Allowed table constraints)
  rest : ∀ e ∈ remaining, ∀ u ∈ ordering, Allowed table constraints e.1 u

theorem isLive_otherEntries (rem : List (Proc × Nat)) (p b : Proc) :
    isLive tb (otherEntries tb rem (tb.leaderOf p)) b = (isLive tb rem b && b ≠ tb.leaderOf p) := by
  rw [Bool.eq_iff_iff]
  simp only [isLive, any_eq_true, mem_otherEntries, Bool.and_eq_true, decide_eq_true_eq]
  constructor
  · rintro ⟨e, ⟨he, hn⟩, rfl⟩
    exact ⟨⟨e, he, rfl⟩, hn⟩
  · rintro ⟨⟨e, he, rfl⟩, hn⟩
    exact ⟨e, ⟨he, hn⟩, rfl⟩

section Loop

variable {rem : List (Proc × Nat)} {ordering procs : List Proc} {next e : Proc × Nat}
  (h : OutputExact tb queue cs rem before ordering)
include h

/-- A last process with a count has a relevant constraint with a live blocker. -/
theorem OutputExact.exists_blocker {r : Nat} {p : Proc} (hl : LastOf tb queue r p)
    (hb : before r ≠ 0) : ∃ c ∈ relevant tb queue cs, c.waiter = tb.leaderOf p ∧
      ∃ e ∈ rem, tb.leaderOf e.1 = c.blocker := by
  have hp : 0 < blocks tb cs p (isLive tb rem) := by
    have := h.tally.last r p hl
    omega
  obtain ⟨c, hc, hw⟩ := countP_pos_iff.mp hp
  obtain ⟨hw, e, he, hb⟩ : c.waiter = tb.leaderOf p ∧ ∃ e ∈ rem, tb.leaderOf e.1 = c.blocker := by
    simpa [isLive] using hw
  refine ⟨c, mem_filter.mpr ⟨hc, ?_⟩, hw, e, he, hb⟩
  simp only [Bool.and_eq_true, any_eq_true, decide_eq_true_eq]
  exact ⟨⟨p, mem_of_getElem? hl.1, hw.symm⟩, e.1, mem_of_getElem? (h.output.getElem? he), hb⟩

theorem OutputExact.relevant_counted : Counted tb queue (relevant tb queue cs) before where
  last r p hl hb := by
    obtain ⟨c, hc, hw, -⟩ := h.exists_blocker hl hb
    exact ⟨c, hc, hw⟩
  marked k p hp hl hw := h.tally.marked k p hp hl (hw.mono fun _ => mem_of_mem_filter)

section Next

variable (hnx : rem.reverse.find? (fun entry => decide (before entry.2 = 0)) = some next)
include hnx

theorem OutputExact.next_last : LastOf tb queue next.2 next.1 := by
  have hm := mem_reverse.mp (mem_of_find?_eq_some hnx)
  have hz : before next.2 = 0 := by simpa using find?_some hnx
  obtain ⟨q, r, hle, hl, hq, hr⟩ := h.output.exists_last hm
  by_contra hn
  have hlt : next.2 < r := by
    refine lt_of_le_of_ne hle fun heq => hn ?_
    have := h.output.getElem? hm
    rw [heq] at this ⊢
    rwa [← Option.some.inj (hl.1.symm.trans this)]
  obtain ⟨c, hc, hw, -⟩ := h.exists_blocker hl (h.output.count_behind hnx hr hlt)
  exact h.tally.marked _ _ (h.output.getElem? hm) hn ⟨c, mem_of_mem_filter hc, hw.trans hq⟩ hz

theorem OutputExact.allowed_next (he : e ∈ rem) {u : Proc}
    (hu : tb.leaderOf u = tb.leaderOf next.1) : Allowed tb cs e.1 u := by
  intro c hc hw hb
  have hz : before next.2 = 0 := by simpa using find?_some hnx
  have hn := h.tally.last _ _ (h.next_last hnx)
  rw [hz, eq_comm, Nat.cast_eq_zero, blocks, countP_eq_zero] at hn
  refine hn c hc ?_
  simp only [isLive, Bool.and_eq_true, decide_eq_true_eq, any_eq_true]
  exact ⟨hw.trans hu, e, he, hb.symm⟩

theorem OutputExact.step (ha : AfterOk tb queue cs after) :
    OutputExact tb queue cs (otherEntries tb rem (tb.leaderOf next.1))
      (decrement before (after next.2))
      (((groupEntries tb rem (tb.leaderOf next.1)).map Prod.fst).reverse ++ ordering) := by
  have hm := mem_reverse.mp (mem_of_find?_eq_some hnx)
  have hg := @mem_groupEntries _ _ _ tb rem next.1
  have hs : ∀ u ∈ ((groupEntries tb rem (tb.leaderOf next.1)).map Prod.fst).reverse,
      ∀ e ∈ rem, Allowed tb cs e.1 u :=
    fun u hu e he => h.allowed_next hnx he (hg u hu).1
  refine ⟨⟨fun r p hr => ?_, fun k p hp hn hw => ?_⟩, h.output.step h.relevant_counted hnx,
    fun u hu => ?_, pairwise_append.mpr ⟨?_, h.allowed, fun x hx u hu => ?_⟩, fun e he u hu => ?_⟩
  · have hb : isLive tb rem (tb.leaderOf next.1) = true :=
      any_eq_true.mpr ⟨next, hm, decide_eq_true rfl⟩
    rw [decrement_eq, h.tally.last r p hr, ha.count _ _ r p (h.next_last hnx) hr,
      blocks_split p hb (isLive_otherEntries rem next.1)]
    omega
  · have hk : k ∉ after next.2 := fun hk => by
      obtain ⟨q, hq⟩ := ha.last _ k hk
      cases hp.symm.trans hq.1
      exact hn hq
    rw [decrement_eq, count_eq_zero.mpr hk, Nat.cast_zero, sub_zero]
    exact h.tally.marked k p hp hn hw
  · obtain hu | hu := mem_append.mp hu
    · obtain ⟨k, hk⟩ := (hg u hu).2
      exact hs u hu _ hk
    exact h.self u hu
  · refine pairwise_of_forall_mem_list fun x hx u hu => ?_
    obtain ⟨k, hk⟩ := (hg x hx).2
    exact hs u hu _ hk
  · obtain ⟨k, hk⟩ := (hg x hx).2
    exact h.rest _ hk u hu
  have he := mem_of_mem_filter he
  obtain hu | hu := mem_append.mp hu
  · exact hs u hu e he
  · exact h.rest e he u hu

end Next

/-- Without a cycle of constraints there is a process to output. -/
theorem OutputExact.exists_next
    (hac : ∀ l, ¬ TransGen (MustPrecede tb queue cs) l l) (hr : rem ≠ []) :
    rem.reverse.find? (fun entry => decide (before entry.2 = 0)) ≠ none := by
  intro hn
  have hb : ∀ e ∈ rem, before e.2 ≠ 0 := by simpa using find?_eq_none.mp hn
  have hs : ∀ e ∈ rem, ∃ e' ∈ rem,
      MustPrecede tb queue cs (tb.leaderOf e.1) (tb.leaderOf e'.1) := by
    intro e he
    obtain ⟨q, r, -, hl, hq, hm⟩ := h.output.exists_last he
    obtain ⟨c, hc, hw, e', he', hbl⟩ := h.exists_blocker hl (hb _ hm)
    exact ⟨e', he', c, hc, hw.trans hq, hbl.symm⟩
  have : IsStrictOrder Proc (fun a b => TransGen (MustPrecede tb queue cs) b a) :=
    { irrefl := hac, trans := fun _ _ _ h h' => h'.trans h }
  have hwf := (finite_toSet (rem.map fun e => tb.leaderOf e.1)).wellFoundedOn
    (r := fun a b => TransGen (MustPrecede tb queue cs) b a)
  obtain ⟨e, he⟩ := exists_mem_of_ne_nil rem hr
  refine hwf.induction (P := fun _ => False) (mem_map_of_mem he) fun a ha ih => ?_
  obtain ⟨e, he, rfl⟩ := mem_map.mp ha
  obtain ⟨e', he', hp⟩ := hs e he
  exact ih _ (mem_map_of_mem he') (.single hp)

end Loop

/-- The whole output loop. -/
theorem output_exact (ha : AfterOk tb queue cs after) {rem : List (Proc × Nat)} {ord : List Proc}
    (h : OutputExact tb queue cs rem before ord) :
    (∀ procs, output tb after rem before ord = some procs →
      ∃ before', OutputExact tb queue cs [] before' procs) ∧
    ((∀ l, ¬ TransGen (MustPrecede tb queue cs) l l) →
      (output tb after rem before ord).isSome) := by
  induction rem, before, ord using output.induct tb after with
  | case1 rem before ord he =>
    rw [output, if_pos he]
    refine ⟨fun procs heq => ?_, fun _ => rfl⟩
    cases heq
    exact ⟨before, List.isEmpty_iff.mp he ▸ h⟩
  | case2 rem before ord he hnx =>
    have ho : output tb after rem before ord = none := by
      rw [output, if_neg he]
      split
      · rfl
      · simp_all
    rw [ho]
    exact ⟨nofun, fun hac => absurd hnx (h.exists_next hac (mt List.isEmpty_iff.mpr he))⟩
  | case3 rem before ord he next hnx ih =>
    have ho : output tb after rem before ord =
        output tb after (otherEntries tb rem (tb.leaderOf next.1))
          (decrement before (after next.2))
          (((groupEntries tb rem (tb.leaderOf next.1)).map Prod.fst).reverse ++ ord) := by
      rw [output, if_neg he]
      split <;> rename_i hs <;> rw [hnx] at hs <;> cases hs
      rfl
    rw [ho]
    exact ih (h.step hnx ha)

theorem topoSort_output {lock : Lock} (hcn : ∀ c ∈ cs, ConstraintOk tb c) :
    (∀ procs, topoSort tb lock cs = some procs →
      ∃ before', OutputExact tb (tb.waitProcs lock) cs [] before' procs) ∧
    ((∀ l, ¬ TransGen (MustPrecede tb (tb.waitProcs lock) cs) l l) →
      (topoSort tb lock cs).isSome) := by
  obtain ⟨ht, ha⟩ := @foldl_addConstraint_ok _ _ _ tb (tb.waitProcs lock) cs
    (fun _ => 0, fun _ => []) [] hcn ⟨fun _ _ _ => rfl, fun _ _ _ _ ⟨_, hc, _⟩ => nomatch hc⟩
    ⟨nofun, fun _ _ _ _ _ _ => rfl⟩
  refine output_exact ha ⟨ht, ?_, nofun, .nil, nofun⟩
  exact ⟨List.Sublist.refl _, by simp, fun k p hp _ => mem_zipIdx_iff_getElem?.mpr hp,
    by simp, fun a => ⟨[], [], [], by simp⟩, .nil, by simp⟩

structure Reordered (table : LockTable Proc Lock) (queue : List Proc)
    (constraints : List (Constraint Proc Lock)) (procs : List Proc) : Prop where
  perm : procs.Perm queue
  grouped : Grouped table procs
  ahead : procs.Pairwise (MayPrecede table queue constraints)

omit [DecidableEq Proc] in
theorem Reordered.mono {cs' : List (Constraint Proc Lock)}
    (hs : cs ⊆ cs') (h : Reordered tb queue cs procs) :
    Reordered tb queue cs' procs where
  perm := h.perm
  grouped := h.grouped
  ahead := h.ahead.imp fun hp hne => (hp hne).imp_right (IsWaiter.mono hs)

/-- **`TopoSort`** permutes the queue and keeps groups together, and who gets ahead of another group
is the waiter of a constraint. -/
theorem topoSort_spec {lock : Lock} (hcn : ∀ c ∈ cs, ConstraintOk tb c)
    (h : topoSort tb lock cs = some procs) : Reordered tb (tb.waitProcs lock) cs procs := by
  obtain ⟨_, hx⟩ := (topoSort_output hcn).1 procs h
  have hr : Reordered tb (tb.waitProcs lock) _ procs :=
    ⟨by simpa using hx.output.perm, hx.output.grouped, hx.output.ahead⟩
  exact hr.mono fun _ => mem_of_mem_filter

theorem pair_sublist_or {α : Type} {l : List α} {x u : α} (hx : x ∈ l) (hu : u ∈ l) (hne : x ≠ u) :
    [x, u] <+ l ∨ [u, x] <+ l := by
  obtain ⟨i, hi⟩ := mem_iff_getElem?.mp hx
  obtain ⟨j, hj⟩ := mem_iff_getElem?.mp hu
  obtain hlt | rfl | hlt := Nat.lt_trichotomy i j
  · exact .inl (pair_sublist_of_lt hi hj hlt)
  · exact absurd (Option.some.inj (hi.symm.trans hj)) hne
  · exact .inr (pair_sublist_of_lt hj hi hlt)

theorem not_sublist_swap {α : Type} {l : List α} {x u : α} (hn : l.Nodup)
    (h : [x, u] <+ l) (h' : [u, x] <+ l) : False := by
  obtain ⟨front, back, rfl, hx, hu⟩ := cons_sublist_iff.mp h
  have hd := disjoint_of_nodup_append hn
  have hs := sublist_of_not_mem h' fun hf => hd hf (singleton_sublist.mp hu)
  exact hd hx (hs.subset (by simp))

theorem OutputExact.precedes {procs : List Proc} (h : OutputExact tb queue cs [] before procs)
    (hc : c ∈ cs) {x u : Proc} (hx : x ∈ procs) (hu : u ∈ procs) (hxl : tb.leaderOf x = c.waiter)
    (hul : tb.leaderOf u = c.blocker) : [x, u] <+ procs := by
  have hne : x ≠ u := by
    rintro rfl
    exact h.self x hx c hc hxl.symm hul.symm
  refine (pair_sublist_or hx hu hne).resolve_right fun hs => ?_
  exact pairwise_iff_forall_sublist.mp h.allowed hs c hc hxl.symm hul.symm

theorem OutputExact.acyclic {procs : List Proc} (h : OutputExact tb queue cs [] before procs)
    (l : Proc) : ¬ TransGen (MustPrecede tb queue cs) l l := by
  have hpq : procs.Perm queue := by simpa using h.output.perm
  -- the first process of each group in the new order
  let f : Proc → Nat := fun a => procs.findIdx fun p => tb.leaderOf p = a
  have hf : ∀ a b, MustPrecede tb queue cs a b → f a < f b := by
    rintro _ _ ⟨c, hc, rfl, rfl⟩
    obtain ⟨hc, hr⟩ := mem_filter.mp hc
    simp only [Bool.and_eq_true, any_eq_true, decide_eq_true_eq] at hr
    obtain ⟨⟨x, hx, hxl⟩, u, hu, hul⟩ := hr
    have ha : f c.waiter < procs.length :=
      findIdx_lt_length_of_exists ⟨x, hpq.mem_iff.mpr hx, decide_eq_true hxl⟩
    have hb : f c.blocker < procs.length :=
      findIdx_lt_length_of_exists ⟨u, hpq.mem_iff.mpr hu, decide_eq_true hul⟩
    have hal := of_decide_eq_true (findIdx_getElem (w := ha))
    have hbl : tb.leaderOf procs[f c.blocker] = c.blocker :=
      of_decide_eq_true (findIdx_getElem (w := hb))
    by_contra hge
    obtain hlt | heq := (not_lt.mp hge).lt_or_eq
    · exact pairwise_iff_getElem.mp h.allowed _ _ hb ha hlt c hc hal.symm hbl.symm
    simp only [heq] at hbl
    exact h.self _ (getElem_mem ha) c hc hal.symm hbl.symm
  have ht : ∀ a b, TransGen (MustPrecede tb queue cs) a b → f a < f b := by
    intro a b hab
    induction hab with
    | single h => exact hf _ _ h
    | tail _ h ih => exact ih.trans (hf _ _ h)
  exact fun hl => absurd (ht l l hl) (lt_irrefl _)

/-- The process is in no lock group. -/
def Ungrouped (table : LockTable Proc Lock) (p : Proc) : Prop :=
  table.lockGroupLeader p = none ∧ ∀ q, table.lockGroupLeader q ≠ some p

omit [DecidableEq Proc] in
theorem Ungrouped.eq_of_leaderOf {p q : Proc} (h : Ungrouped tb p)
    (hq : tb.leaderOf q = tb.leaderOf p) : q = p := by
  rw [leaderOf_of_none h.1] at hq
  cases hl : tb.lockGroupLeader q with
  | none => rwa [leaderOf_of_none hl] at hq
  | some l =>
    rw [leaderOf_of_leader hl] at hq
    exact absurd (hq ▸ hl) (h.2 q)

/-- **`TopoSort` is exact**: it succeeds if and only if the relevant constraints have no cycle, and
then permutes the queue, keeps groups together, puts waiters before their blockers, and keeps the
order of the processes that are in no group and in no relevant constraint. -/
theorem topoSort_exact (table : LockTable Proc Lock) (lock : Lock)
    (cs : List (Constraint Proc Lock)) (hcn : ∀ c ∈ cs, ConstraintOk table c) :
    ((topoSort table lock cs).isSome ↔
      ∀ l, ¬ TransGen (MustPrecede table (table.waitProcs lock) cs) l l) ∧
    ∀ procs, topoSort table lock cs = some procs →
      procs.Perm (table.waitProcs lock) ∧ Grouped table procs ∧
      (∀ c ∈ relevant table (table.waitProcs lock) cs, ∀ x ∈ procs, ∀ u ∈ procs,
        table.leaderOf x = c.waiter → table.leaderOf u = c.blocker →
        [x, u] <+ procs) ∧
      ∀ x u, Ungrouped table x → Ungrouped table u →
        (∀ c ∈ relevant table (table.waitProcs lock) cs,
          c.waiter ≠ x ∧ c.blocker ≠ x ∧ c.waiter ≠ u ∧ c.blocker ≠ u) →
        [x, u] <+ table.waitProcs lock → [x, u] <+ procs := by
  obtain ⟨ho, hs⟩ := @topoSort_output _ _ _ table cs lock hcn
  refine ⟨⟨fun h => ?_, hs⟩, fun procs hp => ?_⟩
  · obtain ⟨procs, hp⟩ := Option.isSome_iff_exists.mp h
    obtain ⟨_, hx⟩ := ho procs hp
    exact hx.acyclic
  obtain ⟨_, hx⟩ := ho procs hp
  have hpm : procs.Perm (table.waitProcs lock) := by simpa using hx.output.perm
  refine ⟨hpm, hx.output.grouped,
    fun c hc x hxp u hup => hx.precedes (mem_of_mem_filter hc) hxp hup,
    fun x u hgx hgu hr hsq => ?_⟩
  have hne : x ≠ u := by
    rintro rfl
    have := (table.nodup_waitProcs lock).sublist hsq
    simp at this
  have hin : ∀ p ∈ [x, u], p ∈ procs := fun p hp => hpm.mem_iff.mpr (hsq.subset hp)
  refine (pair_sublist_or (hin x (by simp)) (hin u (by simp)) hne).resolve_right fun hb => ?_
  have ha := pairwise_iff_forall_sublist.mp hx.output.ahead hb
  obtain ⟨x', hl, hs⟩ | ⟨c, hc, hw⟩ := ha fun hl => hne (hgu.eq_of_leaderOf hl.symm)
  · cases hgx.eq_of_leaderOf hl
    exact not_sublist_swap (table.nodup_waitProcs lock) hsq hs
  rw [leaderOf_of_none hgu.1] at hw
  exact (hr c hc).2.2.1 hw

variable [DecidableEq Lock]

/-- `ExpandConstraints`: each order is a new order of a true queue. -/
theorem expandConstraints_spec (hcn : ∀ c ∈ cs, ConstraintOk tb c) (i : Nat)
    {ord result : WaitOrders Proc Lock}
    (ho : ∀ order ∈ ord, Reordered tb (tb.waitProcs order.1) cs order.2)
    (h : expandConstraints tb cs i ord = some result) :
    ∀ order ∈ result, Reordered tb (tb.waitProcs order.1) cs order.2 := by
  induction i generalizing ord with
  | zero =>
    cases h
    exact ho
  | succ i ih =>
    unfold expandConstraints at h
    split at h
    · exact ih ho h
    split at h
    · exact ih ho h
    split at h
    · cases h
    rename_i procs hs
    refine ih (forall_mem_append.mpr ⟨ho, forall_mem_singleton.mpr ?_⟩) h
    have hsb : cs.take (i + 1) ⊆ cs := take_subset _ _
    exact (topoSort_spec (fun c hc => hcn c (hsb hc)) hs).mono hsb

end AthenaPG.DeadLock
