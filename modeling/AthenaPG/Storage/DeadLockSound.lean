import AthenaPG.Storage.DeadLockOrder

/-!
A solution of the deadlock detector leaves no deadlock at all.

Only the process under test and the ends of the constraints are searched for cycles.  This is
enough: in a wait queue that was reordered, a group only gets ahead of another one if it is the
waiter of a constraint, so that each edge that is new leads to a group that is searched.

* `deadLockCheckRecurse_solution`: what the search for a solution tested;
* `Solution.waitsFor_old`: an edge that is new leads to a waiter;
* **`deadLockCheckRecurse_sound`**: if every cycle passes through the process, then a solution has
  none;
* **`deadLockCheckState_exact`**: the answers of `DeadLockCheck`.
-/

namespace AthenaPG

open Relation.TransGen (mono)
namespace DeadLock
open List

variable {Proc Lock : Type} [DecidableEq Proc] [DecidableEq Lock] {table : LockTable Proc Lock}

/-! ## The search for a solution -/

section Search

variable [Fintype Proc] {maxBackends : Nat} {orders : WaitOrders Proc Lock}

/-- The soft edges that `TestConfiguration` returns join leaders; if there are none, no process that
was tested is on a cycle. -/
theorem testProcs_spec (procs : List Proc) {sf result : List (Constraint Proc Lock)}
    (hs : ∀ c ∈ sf, ConstraintOk table c) (h : testProcs table orders procs sf = some result) :
    (∀ c ∈ result, ConstraintOk table c) ∧
      (result = [] →
        sf = [] ∧ ∀ p ∈ procs, (findLockCycle table orders p).found = false) := by
  induction procs generalizing sf with
  | nil =>
    cases h
    exact ⟨hs, fun hnl => ⟨hnl, by simp⟩⟩
  | cons p rest ih =>
    rw [testProcs] at h
    split at h <;> rename_i hf
    · split at h
      · cases h
      next hl =>
        obtain ⟨hok, hn⟩ := ih (fun c hc => constraintOk_of_labels hf hc) h
        refine ⟨hok, fun hnl => absurd (hn hnl).1 (by simpa using hl)⟩
    · obtain ⟨hok, hn⟩ := ih hs h
      refine ⟨hok, fun hnl => ⟨(hn hnl).1, fun q hq => ?_⟩⟩
      obtain rfl | hq := mem_cons.mp hq
      · simpa using hf
      · exact (hn hnl).2 q hq

/-- A configuration that was found good: the orders come from some constraints, and neither their
ends nor the process are on a cycle. -/
structure Solution (table : LockTable Proc Lock) (proc : Proc)
    (constraints : List (Constraint Proc Lock)) (orders : WaitOrders Proc Lock) : Prop where
  constraintOk : ∀ c ∈ constraints, ConstraintOk table c
  reordered : ∀ order ∈ orders, Reordered table (table.waitProcs order.1) constraints order.2
  waiter : ∀ c ∈ constraints, (findLockCycle table orders c.waiter).found = false
  proc : (findLockCycle table orders proc).found = false

theorem testConfiguration_spec {proc : Proc} {cur es : List (Constraint Proc Lock)}
    {np : Nat} (hcr : ∀ c ∈ cur, ConstraintOk table c)
    (h : testConfiguration table maxBackends proc cur np = some (orders, es)) :
    (∀ c ∈ es, ConstraintOk table c) ∧ (es = [] → Solution table proc cur orders) := by
  unfold testConfiguration at h
  split at h
  · cases h
  split at h
  · cases h
  rename_i orders' he
  obtain ⟨softFound, ht, heq⟩ := Option.map_eq_some_iff.mp h
  cases heq
  obtain ⟨hok, hn⟩ := testProcs_spec _ (by simp) ht
  refine ⟨hok, fun hnl => ⟨hcr, expandConstraints_spec hcr _ (by simp) he, fun c hc => ?_, ?_⟩⟩
  · exact (hn hnl).2 _ (mem_append_left _ (mem_flatMap.mpr ⟨c, hc, by simp⟩))
  · exact (hn hnl).2 _ (by simp)

/-- What `DeadLockCheckRecurse` returns is a solution. -/
theorem deadLockCheckRecurse_solution {proc : Proc} (room : Nat) {cur : List (Constraint Proc Lock)}
    {np : Nat} (hcr : ∀ c ∈ cur, ConstraintOk table c)
    (h : deadLockCheckRecurse table maxBackends proc room cur np = some orders) :
    ∃ cs, Solution table proc cs orders := by
  induction room generalizing cur np with
  | zero =>
    rw [deadLockCheckRecurse] at h
    split at h
    · cases h
    rename_i orders' edges ht
    split at h
    next hn =>
      cases h
      exact ⟨cur, (testConfiguration_spec hcr ht).2 (List.isEmpty_iff.mp hn)⟩
    · cases h
  | succ room ih =>
    rw [deadLockCheckRecurse] at h
    split at h
    · cases h
    rename_i orders' edges ht
    obtain ⟨he, hs⟩ := testConfiguration_spec hcr ht
    split at h
    next hn =>
      cases h
      exact ⟨cur, hs (List.isEmpty_iff.mp hn)⟩
    obtain ⟨edge, hed, hr⟩ := exists_of_findSome?_eq_some h
    exact ih (forall_mem_append.mpr ⟨hcr, forall_mem_singleton.mpr (he _ hed)⟩) hr

/-- In a solution, an edge that is new leads to the waiter of a constraint. -/
theorem Solution.waitsFor_old {proc : Proc} {cs : List (Constraint Proc Lock)}
    (h : Solution table proc cs orders) {a b : Proc}
    (hed : WaitsFor table (queueOf table orders) a b) :
    WaitsFor table table.waitProcs a b ∨ ∃ c ∈ cs, c.waiter = b := by
  obtain ⟨hne, u, lock, hu, hw, he, hh | ⟨x, u', hx, hu', hs, hcn⟩⟩ := hed
  · exact .inl ⟨hne, u, lock, hu, hw, he, .inl hh⟩
  unfold queueOf at hs
  split at hs
  next order hf =>
    have hl : order.1 = lock := by simpa using find?_some hf
    have hr := h.reordered order (mem_of_find?_eq_some hf)
    rw [hl] at hr
    have hp := pairwise_iff_forall_sublist.mp hr.ahead hs
    obtain ⟨u'', hu'', hs'⟩ | ⟨c, hc, hwt⟩ := hp (by rw [hx, hu']; exact hne.symm)
    · exact .inl ⟨hne, u, lock, hu, hw, he, .inr ⟨x, u'', hx, hu''.trans hu', hs', hcn⟩⟩
    · exact .inr ⟨c, hc, hwt.trans hx⟩
  · exact .inl ⟨hne, u, lock, hu, hw, he, .inr ⟨x, u', hx, hu', hs, hcn⟩⟩

/-- Every cycle of the waits-for graph passes through a process: none avoids its group. -/
def EveryCycleThrough (table : LockTable Proc Lock) (proc : Proc) : Prop :=
  ∀ a, ¬ Relation.TransGen (fun x y => WaitsFor table table.waitProcs x y ∧
    x ≠ table.leaderOf proc ∧ y ≠ table.leaderOf proc) a a

theorem Solution.no_cycle_at {proc p : Proc} {cs : List (Constraint Proc Lock)}
    (h : Solution table proc cs orders) (hf : (findLockCycle table orders p).found = false) :
    ¬ Relation.TransGen (WaitsFor table (queueOf table orders)) (table.leaderOf p)
      (table.leaderOf p) := by
  intro hc
  refine DepthFirst.no_cycle_of_search hf
    (mono (fun a b hab => ?_) _ _ hc)
  exact groupEdges_complete (fun order ho => (h.reordered order ho).grouped) hab

/-- **A solution leaves no deadlock**: each order permutes the true wait queue of its lock, and
under the new orders the waits-for graph has no cycle at all. -/
theorem deadLockCheckRecurse_sound {proc : Proc} {room nPossible : Nat}
    {cur : List (Constraint Proc Lock)} {orders : WaitOrders Proc Lock}
    (hthrough : EveryCycleThrough table proc) (hcur : ∀ c ∈ cur, ConstraintOk table c)
    (h : deadLockCheckRecurse table maxBackends proc room cur nPossible = some orders) :
    (∀ order ∈ orders, order.2.Perm (table.waitProcs order.1)) ∧
      ∀ a, ¬ Relation.TransGen (WaitsFor table (queueOf table orders)) a a := by
  obtain ⟨constraints, hs⟩ := deadLockCheckRecurse_solution room hcur h
  refine ⟨fun order ho => (hs.reordered order ho).perm, fun a hcy => ?_⟩
  -- the cycle meets a node that was searched, or it was there before and avoids the process
  rcases DepthFirst.cycle_avoids_or_meets
      (fun x => x = table.leaderOf proc ∨ ∃ c ∈ constraints, c.waiter = x) hcy with
    ha | ⟨x, rfl | ⟨c, hc, rfl⟩, hx⟩
  · refine hthrough a (mono (fun x y ⟨he, hx, hy⟩ => ?_) _ _ ha)
    push Not at hx hy
    obtain hol | ⟨c, hc, hw⟩ := hs.waitsFor_old he
    · exact ⟨hol, hx.1, hy.1⟩
    · exact absurd hw (hy.2 c hc)
  · exact hs.no_cycle_at hs.proc hx
  rw [← (hs.constraintOk c hc).1] at hx
  exact hs.no_cycle_at (hs.waiter c hc) hx

/-! ## `DeadLockCheck` -/

/-- `DeadLockState`.  `DS_BLOCKED_BY_AUTOVACUUM` is left out: it stands for `noDeadlock` where a
worker of autovacuum blocks the process directly. -/
inductive DeadLockState
  | noDeadlock
  | softDeadlock
  | hardDeadlock

/-- `DeadLockCheck`: the answer and the wait queues as it rearranges them, or nothing if the deadlock
"seems to have disappeared".  No two orders are for one lock.  `ProcLockWakeup`, which then wakes
waiters of a queue that was rearranged and takes them off, is left out. -/
def deadLockCheckState (table : LockTable Proc Lock) (maxBackends : Nat) (proc : Proc) :
    Option (DeadLockState × (Lock → List Proc)) :=
  match deadLockCheck table maxBackends proc with
  | none =>
    if (findLockCycle table [] proc).found then some (.hardDeadlock, table.waitProcs) else none
  | some orders =>
    some (if orders.isEmpty then .noDeadlock else .softDeadlock, queueOf table orders)

/-- Unless nothing is to be reordered, the first search found a cycle. -/
theorem found_of_deadLockCheck {proc : Proc} {result : Option (WaitOrders Proc Lock)}
    (hd : deadLockCheck table maxBackends proc = result) (h : result ≠ some []) :
    (findLockCycle table [] proc).found = true := by
  by_contra hf
  have ht : testConfiguration table maxBackends proc [] 0 = some ([], []) := by
    simp only [testConfiguration, expandConstraints, length_nil, flatMap_nil, nil_append, testProcs,
      hf, if_false, Option.map_some]
    exact if_neg (by omega)
  apply h
  rw [← hd, deadLockCheck, deadLockCheckRecurse, ht]
  rfl

/-- A cycle found without proposed orders is one of the true wait queues. -/
theorem cycle_of_found {proc : Proc} (h : (findLockCycle table [] proc).found = true) :
    Relation.TransGen (WaitsFor table table.waitProcs) (table.leaderOf proc)
      (table.leaderOf proc) := by
  obtain ⟨es, hne, hw, -⟩ := blocks_of_found h
  refine mono (fun a b hb => ?_) _ _ (hw.transGen hne)
  exact (blocks_iff_waitsFor (by simp [OrdersGrouped]) (by simp)).mp hb

/-- **What `DeadLockCheck` answers** is right, and no deadlock seems to have disappeared: if one is
reported, there was a cycle through the process, and unless it is a hard one, none is left in the
wait queues as rearranged, before waiters are woken, which are permuted for a soft one only. -/
theorem deadLockCheckState_exact (table : LockTable Proc Lock) (maxBackends : Nat) (proc : Proc) :
    ∃ state queues, deadLockCheckState table maxBackends proc = some (state, queues) ∧
      (state ≠ .noDeadlock → Relation.TransGen (WaitsFor table table.waitProcs)
        (table.leaderOf proc) (table.leaderOf proc)) ∧
      (state ≠ .hardDeadlock → ¬ Relation.TransGen (WaitsFor table queues)
        (table.leaderOf proc) (table.leaderOf proc)) ∧
      (state ≠ .softDeadlock → queues = table.waitProcs) ∧
      ∀ lock, (queues lock).Perm (table.waitProcs lock) := by
  unfold deadLockCheckState
  cases hd : deadLockCheck table maxBackends proc with
  | none =>
    have hf := found_of_deadLockCheck hd nofun
    exact ⟨.hardDeadlock, _, if_pos hf, fun _ => cycle_of_found hf, fun h => absurd rfl h,
      fun _ => rfl, fun _ => .rfl⟩
  | some orders =>
    obtain ⟨cs, hs⟩ := deadLockCheckRecurse_solution _ (by simp) hd
    refine ⟨_, _, rfl, fun h => cycle_of_found (found_of_deadLockCheck hd fun he => h ?_),
      fun _ => hs.no_cycle_at hs.proc, fun h => ?_, fun lock => ?_⟩
    · cases he
      rfl
    · cases orders with
      | nil => rfl
      | cons order rest => exact absurd rfl h
    unfold queueOf
    split
    next order hf =>
      have hl : order.1 = lock := by simpa using find?_some hf
      rw [← hl]
      exact (hs.reordered order (mem_of_find?_eq_some hf)).perm
    · exact .rfl

end Search

/-- Process 0 wants a shared lock and stands behind process 1, which wants the lock exclusively and
is blocked by process 2; process 2 waits for what process 0 holds. -/
def softDeadlock : LockTable (Fin 3) (Fin 2) where
  lockGroupLeader _ := none
  lockGroupMembers _ := []
  waitLock p := if p = 2 then some 1 else some 0
  waitLockMode p := if p = 1 then 2 else 1
  procLocks lock := if lock = 0 then [(2, fun lm => lm = 1)] else [(0, fun lm => lm = 2)]
  waitProcs lock := if lock = 0 then [1, 0] else [2]
  relationExtend _ := false
  numLockModes _ := 2
  conflictTab _ a b := a = 2 || b = 2
  leader_leader := by simp
  mem_members := by simp
  mem_waitProcs := by decide
  nodup_waitProcs := by decide

instance (queues : Fin 2 → List (Fin 3)) (a b : Fin 3) :
    Decidable (WaitsFor softDeadlock queues a b) := by
  unfold WaitsFor
  infer_instance

theorem softDeadlock_everyCycleThrough : EveryCycleThrough softDeadlock 0 := by
  -- what is left without process 0 goes upwards
  have hup : ∀ x y, WaitsFor softDeadlock softDeadlock.waitProcs x y ∧ x ≠ 0 ∧ y ≠ 0 → x < y := by
    decide +kernel
  intro a hc
  have hlt := mono hup _ _ hc
  rw [Relation.transGen_eq_self] at hlt
  exact lt_irrefl a hlt

/-- The detector lets process 0 pass process 1. -/
theorem deadLockCheckRecurse_sound_softDeadlock :
    deadLockCheckRecurse softDeadlock 3 0 3 [] 0 = some [(0, [0, 1])] ∧
      ∀ a, ¬ Relation.TransGen
        (WaitsFor softDeadlock (queueOf softDeadlock [(0, [0, 1])])) a a := by
  have hs : deadLockCheckRecurse softDeadlock 3 0 3 [] 0 = some [(0, [0, 1])] := by decide +kernel
  exact ⟨hs, (deadLockCheckRecurse_sound softDeadlock_everyCycleThrough (by simp) hs).2⟩

/-- The same order is what `TopoSort` makes of the constraint. -/
theorem topoSort_exact_softDeadlock : topoSort softDeadlock 0 [⟨0, 1, 0⟩] = some [0, 1] ∧
    [0, 1].Perm (softDeadlock.waitProcs 0) := by
  have hs : topoSort softDeadlock 0 [⟨0, 1, 0⟩] = some [0, 1] := by decide +kernel
  have hc : ∀ c ∈ [(⟨0, 1, 0⟩ : Constraint (Fin 3) (Fin 2))], ConstraintOk softDeadlock c := by
    simp [ConstraintOk, LockTable.leaderOf, softDeadlock]
  exact ⟨hs, ((topoSort_exact softDeadlock 0 _ hc).2 _ hs).1⟩

end DeadLock
end AthenaPG
