import AthenaPG.Library.DepthFirst

/-!
The deadlock detector (`src/backend/storage/lmgr/deadlock.c`).

The nodes of the waits-for graph are lock groups, each by its leader.  The detector searches
for a cycle through a process, reverses one of the soft edges of the cycle by a constraint on
the order of a wait queue, and tries again with one constraint more.  The details for the
error message and the worker of autovacuum that blocks are left out: the search does not
depend on them.

* `groupEdges`: `FindLockCycleRecurse` and `FindLockCycleRecurseMember`, the edges of a group
  in the order in which they are followed;
* `findLockCycle`: `FindLockCycle`, as a depth-first search;
* `topoSort`, `expandConstraints`: the reordering of wait queues;
* `testConfiguration`, `deadLockCheckRecurse`: the search for a solution.
-/

namespace AthenaPG.DeadLock

/-! ## The lock table -/

/-- The state of the lock table that the detector looks at, under the locks of all partitions.
A process that has a `waitLock` is on the wait queue of that lock. -/
structure LockTable (Proc Lock : Type) where
  lockGroupLeader : Proc → Option Proc
  lockGroupMembers : Proc → List Proc
  waitLock : Proc → Option Lock
  waitLockMode : Proc → Nat
  /-- The holders of a lock, each with its `holdMask`. -/
  procLocks : Lock → List (Proc × (Nat → Bool))
  waitProcs : Lock → List Proc
  relationExtend : Lock → Bool
  numLockModes : Lock → Nat
  /-- The conflict table of the lock's method. -/
  conflictTab : Lock → Nat → Nat → Bool
  leader_leader : ∀ p l, lockGroupLeader p = some l → lockGroupLeader l = some l
  mem_members : ∀ p l, p ∈ lockGroupMembers l ↔ lockGroupLeader p = some l
  mem_waitProcs : ∀ p lock, p ∈ waitProcs lock ↔ waitLock p = some lock
  nodup_waitProcs : ∀ lock, (waitProcs lock).Nodup

/-- `EDGE`: both ends are group leaders. -/
structure Constraint (Proc Lock : Type) where
  waiter : Proc
  blocker : Proc
  lock : Lock

abbrev WaitOrders (Proc Lock : Type) := List (Lock × List Proc)

variable {Proc Lock : Type} [DecidableEq Proc] [DecidableEq Lock] (table : LockTable Proc Lock)

/-- The leader of a process's lock group, or the process itself. -/
def LockTable.leaderOf {Proc Lock : Type} (table : LockTable Proc Lock) (p : Proc) : Proc :=
  (table.lockGroupLeader p).getD p

/-! ## The waits-for graph -/

/-- The holders of the lock that conflict with a process's request, each by its leader. -/
def hardEdges (lock : Lock) (checkProc checkProcLeader : Proc) :
    List (Proc × Option (Constraint Proc Lock)) :=
  (table.procLocks lock).filterMap fun holder =>
    if table.leaderOf holder.1 ≠ checkProcLeader ∧
        ((List.range (table.numLockModes lock)).any fun lm => holder.2 (lm + 1) &&
          table.conflictTab lock (table.waitLockMode checkProc) (lm + 1)) then
      some (table.leaderOf holder.1, none)
    else none

/-- The requests of some processes that conflict with a process's own. -/
def conflicting (lock : Lock) (checkProc checkProcLeader : Proc) (procs : List Proc) :
    List (Proc × Option (Constraint Proc Lock)) :=
  (procs.filter fun p =>
    table.conflictTab lock (table.waitLockMode checkProc) (table.waitLockMode p)).map fun p =>
      (table.leaderOf p, some ⟨checkProcLeader, table.leaderOf p, lock⟩)

def lastGroupMember (lock : Lock) (checkProc checkProcLeader : Proc) : Option Proc :=
  if table.lockGroupLeader checkProc = none then some checkProc
  else ((table.waitProcs lock).filter fun p =>
    table.lockGroupLeader p = some checkProcLeader).getLast?

variable (orders : WaitOrders Proc Lock)

/-- The processes ahead in the wait queue that may block: in a proposed order, those before the
group; in the true order, those of other groups before the last member of the group. -/
def procsAhead (lock : Lock) (checkProc checkProcLeader : Proc) :
    List Proc :=
  match orders.find? fun order => order.1 = lock with
  | some order => order.2.takeWhile fun p => table.leaderOf p ≠ checkProcLeader
  | none => ((table.waitProcs lock).takeWhile fun p =>
      some p ≠ lastGroupMember table lock checkProc checkProcLeader).filter fun p =>
        table.leaderOf p ≠ checkProcLeader

/-- `FindLockCycleRecurseMember`: the edges of one member of a group. -/
def memberEdges (checkProc checkProcLeader : Proc) :
    List (Proc × Option (Constraint Proc Lock)) :=
  match table.waitLock checkProc with
  | none => []
  | some lock =>
    if table.relationExtend lock then []
    else hardEdges table lock checkProc checkProcLeader ++
      conflicting table lock checkProc checkProcLeader
        (procsAhead table orders lock checkProc checkProcLeader)

/-- `FindLockCycleRecurse`: the edges of a group, those of the leader first. -/
def groupEdges (checkProc : Proc) :
    List (Proc × Option (Constraint Proc Lock)) :=
  memberEdges table orders checkProc checkProc ++
    ((table.lockGroupMembers checkProc).filter fun m => m ≠ checkProc).flatMap fun m =>
      memberEdges table orders m checkProc

/-- `FindLockCycle`: whether there is a cycle through a process, and its soft edges. -/
def findLockCycle [Fintype Proc] (orders : WaitOrders Proc Lock) (checkProc : Proc) :
    DepthFirst.Outcome Proc (Constraint Proc Lock) :=
  DepthFirst.search (groupEdges table orders) (Fintype.card Proc + 1) (table.leaderOf checkProc) []

/-! ## TopoSort -/

def inGroup (p leader : Proc) : Bool := p = leader || table.lockGroupLeader p = some leader

/-- The search for the representative of a group on the queue, from the end of the queue on: the
last member is it, and the others are marked. -/
def representative (queue : List Proc) (leader : Proc) :
    Nat → Option Nat → (Nat → Int) → Option Nat × (Nat → Int)
  | 0, found, before => (found, before)
  | j + 1, found, before =>
    if (queue[j]?).any (inGroup table · leader) then
      match found with
      | none => representative queue leader j (some j) before
      | some r => representative queue leader j (some r) (Function.update before j (-1))
    else representative queue leader j found before

/-- One constraint is entered into `beforeConstraints` and `afterConstraints`; of the latter, each
list holds the `pred` of its constraints. -/
def addConstraint (queue : List Proc) (state : (Nat → Int) × (Nat → List Nat))
    (c : Constraint Proc Lock) : (Nat → Int) × (Nat → List Nat) :=
  match representative table queue c.waiter queue.length none state.1 with
  | (none, before) => (before, state.2)
  | (some jj, before) =>
    match representative table queue c.blocker queue.length none before with
    | (none, before) => (before, state.2)
    | (some kk, before) =>
      (Function.update before jj (before jj + 1), Function.update state.2 kk (jj :: state.2 kk))

/-- The counts of the processes constrained against a process that was output. -/
def decrement (before : Nat → Int) (preds : List Nat) : Nat → Int :=
  preds.foldl (fun before k => Function.update before k (before k - 1)) before

omit [DecidableEq Lock] in
theorem inGroup_leaderOf (p : Proc) : inGroup table p (table.leaderOf p) = true := by
  unfold inGroup LockTable.leaderOf
  cases h : table.lockGroupLeader p <;> simp

def groupEntries (remaining : List (Proc × Nat)) (leader : Proc) : List (Proc × Nat) :=
  remaining.filter fun entry => inGroup table entry.1 leader

def otherEntries (remaining : List (Proc × Nat)) (leader : Proc) : List (Proc × Nat) :=
  remaining.filter fun entry => !inGroup table entry.1 leader

/-- The output loop, from the end of the queue on.  `remaining` holds the entries of `topoProcs`
that are not null, with their indexes; `ordering` is what has been output so far. -/
def output (after : Nat → List Nat) (remaining : List (Proc × Nat)) (before : Nat → Int)
    (ordering : List Proc) : Option (List Proc) :=
  if remaining.isEmpty then some ordering
  else
    match _hnext : remaining.reverse.find? fun entry => before entry.2 = 0 with
    | none => none
    | some next =>
      output after (otherEntries table remaining (table.leaderOf next.1))
        (decrement before (after next.2))
        (((groupEntries table remaining (table.leaderOf next.1)).map Prod.fst).reverse ++ ordering)
termination_by remaining.length
decreasing_by
  have hmem := List.mem_reverse.mp (List.mem_of_find?_eq_some (by assumption))
  refine List.length_filter_lt_length_iff_exists.mpr ⟨next, hmem, ?_⟩
  simp [inGroup_leaderOf]

def topoSort (lock : Lock) (constraints : List (Constraint Proc Lock)) : Option (List Proc) :=
  let state := constraints.foldl (addConstraint table (table.waitProcs lock))
    (fun _ => 0, fun _ => [])
  output table state.2 (table.waitProcs lock).zipIdx state.1 []

/-- `ExpandConstraints`, from the last constraint on. -/
def expandConstraints (constraints : List (Constraint Proc Lock)) :
    Nat → WaitOrders Proc Lock → Option (WaitOrders Proc Lock)
  | 0, orders => some orders
  | i + 1, orders =>
    match constraints[i]? with
    | none => expandConstraints constraints i orders
    | some c =>
      if orders.any fun order => order.1 = c.lock then expandConstraints constraints i orders
      else
        match topoSort table c.lock (constraints.take (i + 1)) with
        | none => none
        | some procs => expandConstraints constraints i (orders ++ [(c.lock, procs)])

/-! ## The search for a solution -/

section Search

variable [Fintype Proc] (maxBackends : Nat)

/-- The calls of `FindLockCycle` in `TestConfiguration`: the soft edges of the cycle found last, or
nothing if a cycle has no soft edge. -/
def testProcs (orders : WaitOrders Proc Lock) :
    List Proc → List (Constraint Proc Lock) → Option (List (Constraint Proc Lock))
  | [], softFound => some softFound
  | p :: rest, softFound =>
    if (findLockCycle table orders p).found then
      if (findLockCycle table orders p).labels.isEmpty then none
      else testProcs orders rest (findLockCycle table orders p).labels
    else testProcs orders rest softFound

/-- `TestConfiguration`: nothing if the configuration fails, else its orders and the soft edges of a
cycle that remains. -/
def testConfiguration (startProc : Proc) (curConstraints : List (Constraint Proc Lock))
    (nPossibleConstraints : Nat) :
    Option (WaitOrders Proc Lock × List (Constraint Proc Lock)) :=
  if nPossibleConstraints + maxBackends > maxBackends * 4 then none
  else
    match expandConstraints table curConstraints curConstraints.length [] with
    | none => none
    | some orders =>
      (testProcs table orders
        ((curConstraints.flatMap fun c => [c.waiter, c.blocker]) ++ [startProc]) []).map
          fun softFound => (orders, softFound)

/-- `DeadLockCheckRecurse`, with room for some more constraints: the orders of a solution, or
nothing if there is none.  Where the edges do not fit into `possibleConstraints`, they are
computed again, with the same result. -/
def deadLockCheckRecurse (proc : Proc) :
    Nat → List (Constraint Proc Lock) → Nat → Option (WaitOrders Proc Lock)
  | room, curConstraints, nPossibleConstraints =>
    match testConfiguration table maxBackends proc curConstraints nPossibleConstraints with
    | none => none
    | some (orders, edges) =>
      if edges.isEmpty then some orders
      else
        match room with
        | 0 => none
        | room + 1 =>
          edges.findSome? fun edge => deadLockCheckRecurse proc room (curConstraints ++ [edge])
            (if nPossibleConstraints + edges.length + maxBackends ≤ maxBackends * 4 then
              nPossibleConstraints + edges.length
            else nPossibleConstraints)

/-- The search of `DeadLockCheck`. -/
def deadLockCheck (proc : Proc) : Option (WaitOrders Proc Lock) :=
  deadLockCheckRecurse table maxBackends proc maxBackends [] 0

end Search

end AthenaPG.DeadLock
