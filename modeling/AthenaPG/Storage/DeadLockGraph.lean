import AthenaPG.Storage.DeadLock
import Mathlib.Data.List.TakeWhile

/-!
The waits-for graph of the deadlock detector, with the lock groups as its nodes.

* `WaitsFor`: the graph, for given wait queues;
* **`groupEdges_complete`**: the detector follows every edge;
* `constraintOk_of_labels`: the soft edges of a cycle join leaders;
* **`findLockCycle_exact`**: the search finds a cycle if there is one, and its soft edges.
-/

namespace AthenaPG.DeadLock
open List

variable {Proc Lock : Type} [DecidableEq Proc] [DecidableEq Lock] (table : LockTable Proc Lock)

/-! ## Groups -/

section Groups

variable {table}

omit [DecidableEq Proc] [DecidableEq Lock]

theorem leaderOf_of_leader {p l : Proc} (h : table.lockGroupLeader p = some l) :
    table.leaderOf p = l := by
  rw [LockTable.leaderOf, h]
  rfl

theorem leaderOf_of_none {p : Proc} (h : table.lockGroupLeader p = none) :
    table.leaderOf p = p := by
  rw [LockTable.leaderOf, h]
  rfl

theorem leaderOf_leaderOf (p : Proc) : table.leaderOf (table.leaderOf p) = table.leaderOf p := by
  cases h : table.lockGroupLeader p with
  | none => rw [leaderOf_of_none h, leaderOf_of_none h]
  | some l => rw [leaderOf_of_leader h, leaderOf_of_leader (table.leader_leader p l h)]

theorem leader_of_leaderOf {p l : Proc} (h : table.leaderOf p = l)
    (hl : table.lockGroupLeader l ≠ none) : table.lockGroupLeader p = some l := by
  cases hp : table.lockGroupLeader p with
  | none =>
    rw [leaderOf_of_none hp] at h
    exact absurd (h ▸ hp) hl
  | some l' =>
    rw [leaderOf_of_leader hp] at h
    rw [h]

end Groups

omit [DecidableEq Lock] in
theorem inGroup_iff {p l : Proc} (hl : table.leaderOf l = l) :
    inGroup table p l = true ↔ table.leaderOf p = l := by
  unfold inGroup
  simp only [Bool.or_eq_true, decide_eq_true_eq]
  constructor
  · rintro (rfl | h)
    · exact hl
    · exact leaderOf_of_leader h
  intro h
  cases hp : table.lockGroupLeader p with
  | none => exact .inl ((leaderOf_of_none hp).symm.trans h)
  | some l' =>
    rw [leaderOf_of_leader hp] at h
    exact .inr (congrArg some h)

/-! ## The waits-for graph -/

def queueOf (orders : WaitOrders Proc Lock) (lock : Lock) : List Proc :=
  match orders.find? fun order => order.1 = lock with
  | some order => order.2
  | none => table.waitProcs lock

/-- A group waits for another one: the request of a member conflicts with what a member of the
other group holds, or with a request of it that stands before some member of the group on the
queue: only what stands after the last member is no soft conflict.  Relation extension locks
take no part. -/
def WaitsFor (queues : Lock → List Proc) (a b : Proc) : Prop :=
  a ≠ b ∧ ∃ u lock, table.leaderOf u = a ∧ table.waitLock u = some lock ∧
    table.relationExtend lock = false ∧
    ((∃ holder ∈ table.procLocks lock, table.leaderOf holder.1 = b ∧
        ∃ lm < table.numLockModes lock, holder.2 (lm + 1) = true ∧
          table.conflictTab lock (table.waitLockMode u) (lm + 1) = true) ∨
      ∃ x u', table.leaderOf x = b ∧ table.leaderOf u' = a ∧ List.Sublist [x, u'] (queues lock) ∧
        table.conflictTab lock (table.waitLockMode u) (table.waitLockMode x) = true)

def Grouped (procs : List Proc) : Prop :=
  ∀ a, ∃ front block back, procs = front ++ (block ++ back) ∧
    (∀ p ∈ front, table.leaderOf p ≠ a) ∧ (∀ p ∈ block, table.leaderOf p = a) ∧
    ∀ p ∈ back, table.leaderOf p ≠ a

theorem sublist_of_not_mem {α : Type} {x u : α} {l l' : List α}
    (h : List.Sublist [x, u] (l ++ l')) (hx : x ∉ l) : List.Sublist [x, u] l' := by
  obtain ⟨l1, l2, heq, h1, h2⟩ := sublist_append_iff.mp h
  cases l1 with
  | nil => rwa [heq]
  | cons y rest =>
    rw [cons_append, List.cons.injEq] at heq
    exact absurd (h1.subset (heq.1 ▸ mem_cons_self)) hx

theorem mem_of_getLast?_append_cons {α : Type} {l rest : List α} {a b : α}
    (h : (l ++ a :: rest).getLast? = some b) (hr : rest ≠ []) : b ∈ rest := by
  rw [append_cons, getLast?_append_of_ne_nil _ hr] at h
  exact mem_of_getLast? h

variable {table} {a x u : Proc} {orders : WaitOrders Proc Lock}

omit [DecidableEq Proc] [DecidableEq Lock] in
theorem front_of_grouped {fro block back : List Proc}
    (hs : List.Sublist [x, u] (fro ++ (block ++ back))) (hu : table.leaderOf u = a)
    (hx : table.leaderOf x ≠ a) (hbl : ∀ p ∈ block, table.leaderOf p = a)
    (hbc : ∀ p ∈ back, table.leaderOf p ≠ a) : x ∈ fro := by
  by_contra hn
  have hr := sublist_of_not_mem hs hn
  have hl := sublist_of_not_mem hr fun hb => hx (hbl x hb)
  exact hbc u (hl.subset (by simp)) hu

omit [DecidableEq Lock] in
theorem ahead_of_grouped {procs : List Proc} (hg : Grouped table procs)
    (hs : List.Sublist [x, u] procs) (hu : table.leaderOf u = a) (hx : table.leaderOf x ≠ a) :
    x ∈ procs.takeWhile fun p => table.leaderOf p ≠ a := by
  obtain ⟨front, block, back, rfl, hf, hb, hbc⟩ := hg a
  rw [takeWhile_append_of_pos (by simpa using hf)]
  exact mem_append_left _ (front_of_grouped hs hu hx hb hbc)

omit [DecidableEq Lock] in
theorem ahead_of_last {lock : Lock} {u' : Proc} (hu : table.leaderOf u = a)
    (hu' : table.leaderOf u' = a) (hx : table.leaderOf x ≠ a)
    (hsb : List.Sublist [x, u'] (table.waitProcs lock)) :
    x ∈ (table.waitProcs lock).takeWhile fun p => some p ≠ lastGroupMember table lock u a := by
  by_contra hno
  have hn := table.nodup_waitProcs lock
  have hs := takeWhile_append_dropWhile
    (p := fun p => decide (some p ≠ lastGroupMember table lock u a)) (l := table.waitProcs lock)
  rw [← hs] at hsb
  have hr := sublist_of_not_mem hsb hno
  cases hd : (table.waitProcs lock).dropWhile
      fun p => decide (some p ≠ lastGroupMember table lock u a) with
  | nil =>
    rw [hd] at hr
    cases hr
  | cons last rest =>
    have hls : some last = lastGroupMember table lock u a := by
      have := head?_dropWhile_not (fun p => decide (some p ≠ lastGroupMember table lock u a))
        (table.waitProcs lock)
      rw [hd] at this
      simpa using this
    rw [hd] at hr hs
    -- the last member of the group
    have hg : table.leaderOf last = a := by
      unfold lastGroupMember at hls
      split at hls
      · cases hls
        exact hu
      have := mem_of_getLast? hls.symm
      exact leaderOf_of_leader (by simpa using (mem_filter.mp this).2)
    have ha : u' ∈ rest := by
      have hne : x ≠ last := fun h => hx (h ▸ hg)
      have := @sublist_of_not_mem _ _ _ [last] rest hr (by simpa using hne)
      exact this.subset (by simp)
    rw [← hs] at hn
    have hnt : last ∉ rest := by
      have := (nodup_append.mp hn).2.1
      exact (nodup_cons.mp this).1
    unfold lastGroupMember at hls
    split at hls
    next hnn =>
      cases hls
      have hsl := leaderOf_of_none hnn
      rw [hsl] at hu
      subst hu
      cases hl : table.lockGroupLeader u' with
      | none =>
        rw [leaderOf_of_none hl] at hu'
        exact hnt (hu' ▸ ha)
      | some l =>
        rw [leaderOf_of_leader hl] at hu'
        have := table.leader_leader u' l hl
        rw [hu', hnn] at this
        cases this
    next hsm =>
      have hld : table.lockGroupLeader a ≠ none := by
        obtain ⟨l, hl⟩ := Option.ne_none_iff_exists'.mp hsm
        rw [leaderOf_of_leader hl] at hu
        rw [← hu, table.leader_leader u l hl]
        simp
      have hm := leader_of_leaderOf hu' hld
      rw [← hs, filter_append, filter_cons_of_pos
        (by simpa using leader_of_leaderOf hg hld)] at hls
      have hin : u' ∈ rest.filter fun p => decide (table.lockGroupLeader p = some a) :=
        mem_filter.mpr ⟨ha, by simpa using hm⟩
      have hmm := mem_of_getLast?_append_cons hls.symm (ne_nil_of_mem hin)
      exact hnt (mem_filter.mp hmm).1

/-- A process stands before a group: before all of it in a proposed order, and before the last
member of it in a true wait queue. -/
def Ahead (table : LockTable Proc Lock) (orders : WaitOrders Proc Lock) (lock : Lock)
    (a x : Proc) : Prop :=
  match orders.find? fun order => order.1 = lock with
  | some order => ∃ front back, order.2 = front ++ x :: back ∧ ∀ p ∈ front, table.leaderOf p ≠ a
  | none => ∃ last, table.leaderOf last = a ∧ [x, last].Sublist (table.waitProcs lock)

/-- The blocks of a group, hard and soft, each with the other group and the constraint that a
soft one can be reversed by. -/
inductive Blocked (table : LockTable Proc Lock) (orders : WaitOrders Proc Lock) (u : Proc) :
    Proc × Option (Constraint Proc Lock) → Prop
  | hard (lock : Lock) (hw : table.waitLock u = some lock) (hx : table.relationExtend lock = false)
      (holder : Proc × (Nat → Bool)) (hm : holder ∈ table.procLocks lock)
      (hne : table.leaderOf holder.1 ≠ table.leaderOf u) (lm : Nat)
      (hlm : lm < table.numLockModes lock) (hh : holder.2 (lm + 1) = true)
      (hc : table.conflictTab lock (table.waitLockMode u) (lm + 1) = true) :
      Blocked table orders u (table.leaderOf holder.1, none)
  | soft (lock : Lock) (hw : table.waitLock u = some lock) (hx : table.relationExtend lock = false)
      (x : Proc) (ha : Ahead table orders lock (table.leaderOf u) x)
      (hne : table.leaderOf x ≠ table.leaderOf u)
      (hc : table.conflictTab lock (table.waitLockMode u) (table.waitLockMode x) = true) :
      Blocked table orders u
        (table.leaderOf x, some ⟨table.leaderOf u, table.leaderOf x, lock⟩)

/-- A group is blocked when a member is. -/
def Blocks (table : LockTable Proc Lock) (orders : WaitOrders Proc Lock) (a : Proc)
    (e : Proc × Option (Constraint Proc Lock)) : Prop :=
  ∃ u, table.leaderOf u = a ∧ Blocked table orders u e

theorem mem_takeWhile_iff {α : Type} {p : α → Bool} {l : List α} {x : α} :
    x ∈ l.takeWhile p ↔ ∃ front back, l = front ++ x :: back ∧ (∀ y ∈ front, p y) ∧ p x := by
  constructor
  · intro hx
    obtain ⟨front, back, hl⟩ := append_of_mem hx
    refine ⟨front, back ++ l.dropWhile p, ?_, fun y hy => ?_, ?_⟩
    · rw [← cons_append, ← append_assoc, ← hl, takeWhile_append_dropWhile]
    · exact mem_takeWhile_imp (hl ▸ mem_append_left _ hy)
    · exact mem_takeWhile_imp hx
  · rintro ⟨front, back, rfl, hf, hx⟩
    rw [takeWhile_append_of_pos hf, takeWhile_cons_of_pos hx]
    simp

omit [DecidableEq Lock] in
theorem exists_lastGroupMember (hw : table.waitLock u = some lock) :
    ∃ last, lastGroupMember table lock u (table.leaderOf u) = some last ∧
      table.leaderOf last = table.leaderOf u ∧ last ∈ table.waitProcs lock := by
  have hu := (table.mem_waitProcs u lock).mpr hw
  unfold lastGroupMember
  split
  · exact ⟨u, rfl, rfl, hu⟩
  rename_i hg
  obtain ⟨l, hl⟩ := Option.ne_none_iff_exists'.mp hg
  have hm : u ∈ (table.waitProcs lock).filter fun p =>
      table.lockGroupLeader p = some (table.leaderOf u) := by
    refine mem_filter.mpr ⟨hu, ?_⟩
    rw [leaderOf_of_leader hl]
    simpa using hl
  obtain ⟨last, hlast⟩ := Option.ne_none_iff_exists'.mp
    (mt getLast?_eq_none_iff.mp (ne_nil_of_mem hm))
  obtain ⟨hin, hlead⟩ := mem_filter.mp (mem_of_getLast? hlast)
  exact ⟨last, hlast, leaderOf_of_leader (by simpa using hlead), hin⟩

theorem mem_procsAhead_iff (hw : table.waitLock u = some lock)
    (hne : table.leaderOf x ≠ table.leaderOf u) :
    x ∈ procsAhead table orders lock u (table.leaderOf u) ↔
      Ahead table orders lock (table.leaderOf u) x := by
  unfold procsAhead Ahead
  cases hf : orders.find? fun order => order.1 = lock with
  | some order =>
    dsimp only
    rw [mem_takeWhile_iff]
    simp [hne]
  | none =>
    dsimp only
    rw [mem_filter]
    constructor
    · rintro ⟨hx, -⟩
      obtain ⟨last, hlast, hl, hin⟩ := exists_lastGroupMember hw
      refine ⟨last, hl, ?_⟩
      rw [hlast] at hx
      rw [← takeWhile_append_dropWhile (p := fun p => decide (some p ≠ some last))
        (l := table.waitProcs lock)] at hin ⊢
      refine (singleton_sublist.mpr hx).append (singleton_sublist.mpr ?_)
      refine (mem_append.mp hin).resolve_left fun hm => ?_
      simpa using mem_takeWhile_imp hm
    · rintro ⟨last, hl, hs⟩
      exact ⟨ahead_of_last rfl hl hne hs, by simpa using hne⟩

theorem mem_memberEdges_iff {e : Proc × Option (Constraint Proc Lock)} :
    e ∈ memberEdges table orders u (table.leaderOf u) ↔ Blocked table orders u e := by
  unfold memberEdges
  constructor
  · intro he
    split at he
    · cases he
    rename_i lock hw
    split at he
    · cases he
    rename_i hx
    have hx := Bool.eq_false_of_not_eq_true hx
    obtain he | he := mem_append.mp he
    · obtain ⟨holder, hm, hs⟩ := mem_filterMap.mp he
      split at hs
      next hc =>
        obtain ⟨lm, hlm, hc'⟩ := any_eq_true.mp hc.2
        obtain ⟨hh, hc'⟩ := Bool.and_eq_true_iff.mp hc'
        cases hs
        exact .hard lock hw hx holder hm hc.1 lm (mem_range.mp hlm) hh hc'
      · cases hs
    obtain ⟨x, hm, rfl⟩ := mem_map.mp he
    obtain ⟨hm, hc⟩ := mem_filter.mp hm
    have hne : table.leaderOf x ≠ table.leaderOf u := by
      unfold procsAhead at hm
      split at hm
      · simpa using mem_takeWhile_imp hm
      · simpa using (mem_filter.mp hm).2
    exact .soft lock hw hx x ((mem_procsAhead_iff hw hne).mp hm) hne hc
  · intro h
    cases h with
    | hard lock hw hx holder hm hne lm hlm hh hc =>
      rw [hw]
      dsimp only
      rw [if_neg (by simp [hx])]
      refine mem_append_left _ (mem_filterMap.mpr ⟨holder, hm, if_pos ⟨hne, ?_⟩⟩)
      exact any_eq_true.mpr ⟨lm, mem_range.mpr hlm, by rw [hh, hc]; rfl⟩
    | soft lock hw hx x ha hne hc =>
      rw [hw]
      dsimp only
      rw [if_neg (by simp [hx])]
      refine mem_append_right _ (mem_map.mpr ⟨x, mem_filter.mpr ⟨?_, hc⟩, rfl⟩)
      exact (mem_procsAhead_iff hw hne).mpr ha

/-- **The detector follows exactly the blocks of a group.** -/
theorem mem_groupEdges_iff {e : Proc × Option (Constraint Proc Lock)}
    (hle : table.leaderOf a = a) : e ∈ groupEdges table orders a ↔ Blocks table orders a e := by
  constructor
  · intro he
    obtain he | he := mem_append.mp he
    · exact ⟨a, hle, mem_memberEdges_iff.mp (by rwa [hle])⟩
    obtain ⟨m, hm, he⟩ := mem_flatMap.mp he
    have hg := leaderOf_of_leader ((table.mem_members m a).mp (mem_filter.mp hm).1)
    exact ⟨m, hg, mem_memberEdges_iff.mp (by rwa [hg])⟩
  · rintro ⟨u, rfl, h⟩
    have he := mem_memberEdges_iff.mpr h
    by_cases hself : u = table.leaderOf u
    · exact mem_append_left _ (by rwa [← hself] at he ⊢)
    refine mem_append_right _ (mem_flatMap.mpr ⟨u, mem_filter.mpr ⟨?_, by simpa using hself⟩, he⟩)
    cases hl : table.lockGroupLeader u with
    | none => exact absurd (leaderOf_of_none hl).symm hself
    | some l =>
      rw [leaderOf_of_leader hl]
      exact (table.mem_members u l).mpr hl

omit [DecidableEq Proc] in
theorem Blocks.leader {e : Proc × Option (Constraint Proc Lock)} (h : Blocks table orders a e) :
    table.leaderOf a = a ∧ table.leaderOf e.1 = e.1 := by
  obtain ⟨u, rfl, h⟩ := h
  cases h <;> exact ⟨leaderOf_leaderOf _, leaderOf_leaderOf _⟩

theorem Walk.blocks {b : Proc} {es : List (Proc × Option (Constraint Proc Lock))}
    (h : DepthFirst.Walk (fun x e => e ∈ groupEdges table orders x) a es b)
    (ha : table.leaderOf a = a) : DepthFirst.Walk (Blocks table orders) a es b := by
  induction h with
  | nil a => exact .nil a
  | cons he _ ih =>
    have hb := (mem_groupEdges_iff ha).mp he
    exact .cons hb (ih hb.leader.2)

/-- Orders that `FindLockCycle` can rely on. -/
def OrdersGrouped (orders : WaitOrders Proc Lock) : Prop := ∀ order ∈ orders, Grouped table order.2

/-- **The detector follows every edge of the waits-for graph.** -/
theorem groupEdges_complete (hor : @OrdersGrouped Proc Lock table orders) {b : Proc}
    (h : WaitsFor table (queueOf table orders) a b) :
    DepthFirst.Edge (groupEdges table orders) a b := by
  obtain ⟨hne, u, lock, rfl, hw, hx, hb⟩ := h
  suffices hs : ∃ label, Blocked table orders u (b, label) by
    obtain ⟨label, hs⟩ := hs
    exact ⟨(b, label), (mem_groupEdges_iff (leaderOf_leaderOf u)).mpr ⟨u, rfl, hs⟩, rfl⟩
  obtain ⟨holder, hm, rfl, lm, hlm, hh, hc⟩ | ⟨x, u', rfl, hu, hsub, hc⟩ := hb
  · exact ⟨none, .hard lock hw hx holder hm hne.symm lm hlm hh hc⟩
  refine ⟨_, .soft lock hw hx x ?_ hne.symm hc⟩
  unfold Ahead queueOf at *
  cases hf : orders.find? fun order => decide (order.1 = lock) with
  | some order =>
    simp only [hf] at hsub ⊢
    have hg := hor order (mem_of_find?_eq_some hf)
    obtain ⟨front, back, he, hfr, -⟩ := mem_takeWhile_iff.mp (ahead_of_grouped hg hsub hu hne.symm)
    exact ⟨front, back, he, by simpa using hfr⟩
  | none =>
    simp only [hf] at hsub ⊢
    exact ⟨u', hu, hsub⟩

/-- **The blocks of a group are the edges of the waits-for graph**, under orders in which every
process that waits for the lock stands. -/
theorem blocks_iff_waitsFor (hor : @OrdersGrouped Proc Lock table orders)
    (hin : ∀ order ∈ orders, ∀ u, table.waitLock u = some order.1 → u ∈ order.2) {b : Proc} :
    (∃ label, Blocks table orders a (b, label)) ↔ WaitsFor table (queueOf table orders) a b := by
  constructor
  · rintro ⟨label, u, rfl, hb⟩
    cases hb with
    | hard lock hw hx holder hm hne lm hlm hh hc =>
      exact ⟨hne.symm, u, lock, rfl, hw, hx, .inl ⟨holder, hm, rfl, lm, hlm, hh, hc⟩⟩
    | soft lock hw hx x ha hne hc =>
      refine ⟨hne.symm, u, lock, rfl, hw, hx, .inr ?_⟩
      unfold Ahead at ha
      unfold queueOf
      cases hf : orders.find? fun order => decide (order.1 = lock) with
      | none =>
        simp only [hf] at ha ⊢
        obtain ⟨last, hl, hs⟩ := ha
        exact ⟨x, last, rfl, hl, hs, hc⟩
      | some order =>
        simp only [hf] at ha ⊢
        obtain ⟨front, back, he, hfr⟩ := ha
        obtain rfl : order.1 = lock := by simpa using find?_some hf
        have hu := hin order (mem_of_find?_eq_some hf) u hw
        rw [he, mem_append, mem_cons] at hu
        obtain hu | rfl | hu := hu
        · exact absurd rfl (hfr u hu)
        · exact absurd rfl hne
        refine ⟨x, u, rfl, rfl, ?_, hc⟩
        rw [he]
        exact ((singleton_sublist.mpr hu).cons_cons x).trans (sublist_append_right _ _)
  · intro h
    obtain ⟨⟨b', label⟩, he, rfl⟩ := groupEdges_complete hor h
    obtain ⟨-, u, -, rfl, -⟩ := h
    exact ⟨label, (mem_groupEdges_iff (leaderOf_leaderOf u)).mp he⟩

/-- A constraint joins two leaders. -/
def ConstraintOk (table : LockTable Proc Lock) (c : Constraint Proc Lock) : Prop :=
  table.leaderOf c.waiter = c.waiter ∧ table.leaderOf c.blocker = c.blocker

/-- The cycle of a search, along blocks. -/
theorem blocks_of_found [Fintype Proc] {p : Proc}
    (h : (findLockCycle table orders p).found = true) : ∃ cycle, cycle ≠ [] ∧
      DepthFirst.Walk (Blocks table orders) (table.leaderOf p) cycle (table.leaderOf p) ∧
      (cycle.map Prod.fst).Nodup ∧
      (findLockCycle table orders p).labels = (cycle.filterMap Prod.snd).reverse := by
  obtain ⟨es, hne, hw, hn, hl⟩ := DepthFirst.cycle_of_search h
  exact ⟨es, hne, Walk.blocks hw (leaderOf_leaderOf p), hn, hl⟩

/-- The soft edges of a cycle join leaders. -/
theorem constraintOk_of_labels [Fintype Proc] {p : Proc} {c : Constraint Proc Lock}
    (hf : (findLockCycle table orders p).found = true)
    (h : c ∈ (findLockCycle table orders p).labels) : ConstraintOk table c := by
  obtain ⟨es, -, hw, -, hl⟩ := blocks_of_found hf
  rw [hl, mem_reverse, mem_filterMap] at h
  obtain ⟨e, he, hc⟩ := h
  obtain ⟨x, u, rfl, hb⟩ := hw.exists_edge he
  cases hb with
  | hard => cases hc
  | soft =>
    cases hc
    exact ⟨leaderOf_leaderOf _, leaderOf_leaderOf _⟩

/-- **`FindLockCycle` is exact**: it succeeds if and only if the group of the process is on a cycle
of the waits-for graph, and returns the soft edges of such a cycle, the last one first. -/
theorem findLockCycle_exact [Fintype Proc] (table : LockTable Proc Lock)
    (orders : WaitOrders Proc Lock) (p : Proc) :
    ((findLockCycle table orders p).found = true ↔
      Relation.TransGen (fun a b => ∃ label, Blocks table orders a (b, label))
        (table.leaderOf p) (table.leaderOf p)) ∧
    ((findLockCycle table orders p).found = true →
      ∃ cycle, cycle ≠ [] ∧
        DepthFirst.Walk (Blocks table orders) (table.leaderOf p) cycle (table.leaderOf p) ∧
        (cycle.map Prod.fst).Nodup ∧
        (findLockCycle table orders p).labels = (cycle.filterMap Prod.snd).reverse ∧
        ((findLockCycle table orders p).labels = [] ↔ ∀ e ∈ cycle, e.2 = none)) := by
  refine ⟨⟨fun h => ?_, fun h => ?_⟩, fun h => ?_⟩
  · obtain ⟨es, hne, hw, -⟩ := blocks_of_found h
    exact hw.transGen hne
  · by_contra hf
    refine DepthFirst.no_cycle_of_search (Bool.eq_false_of_not_eq_true hf)
      (Relation.TransGen.mono ?_ _ _ h)
    rintro a b ⟨label, hb⟩
    exact ⟨(b, label), (mem_groupEdges_iff hb.leader.1).mpr hb, rfl⟩
  obtain ⟨es, hne, hw, hn, hl⟩ := blocks_of_found h
  refine ⟨es, hne, hw, hn, hl, ?_⟩
  rw [hl, reverse_eq_nil_iff, filterMap_eq_nil_iff]

end AthenaPG.DeadLock
