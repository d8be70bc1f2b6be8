import AthenaPG.Optimizer.PathTree
import Mathlib.Tactic

/-!
Lero's record and replay of join cardinalities (`src/backend/lero/lero_extension.c`).

`lero_pgsysml_hook_planner` plans a query twice.  The first pass records the
estimate of every join relation; the second gets the recorded estimates back in
the same order, scaled for joins of a chosen number of tables.  Everything is
kept in process globals, which an inner call of the planner shares.

* `recording_observes_iff`: the recording pass leaves every estimate alone exactly
  as long as the estimates beyond the capacity of the record repeat the last one
  stored.
* `replay_scales`: a call replays its own record if no inner call intervenes
  before its last estimate.
-/

namespace AthenaPG
open List

/-! ## State -/

def cardMaxNum : Nat := 25000

theorem cardMaxNum_pos : 0 < cardMaxNum := by norm_num [cardMaxNum]

/-- The globals of `lero_extension.c`, and the static variable of
`lero_pgsysml_set_joinrel_size_estimates`.  Arrays of `CARD_MAX_NUM` cells are
functions; every index used lies below `joinCardNum` or is checked against the
capacity. -/
structure LeroState where
  recordOriginalCardPhase : Bool
  joinCardNum : Nat
  curCardIdx : Nat
  originalCardList : Nat → ℚ
  leroCardList : Nat → ℚ
  joinInputTableNums : Nat → Nat
  rows : ℚ
  withinCapacity : joinCardNum ≤ cardMaxNum

/-- The settings `lero_swing_factor` and `lero_subquery_table_num`. -/
structure LeroSettings where
  leroSwingFactor : ℚ
  leroSubqueryTableNum : Nat

/-- A call of `set_joinrel_size_estimates`: the standard estimate, and the cheapest
paths of the two inputs. -/
structure EstimateCall where
  rows : ℚ
  outerPath : PathTree
  innerPath : PathTree

open EstimateCall

/-! ## Counting tables -/

/-- `add_join_input_tables`: `num` is the count so far.  The error carries
`path->pathtype`, which the message prints. -/
def addJoinInputTables : PathTree → Nat → Except PlanTag Nat
  | .scan .seqScan _, num => .ok (num + 1)
  | .scan .indexScan _, num => .ok (num + 1)
  | .scan .indexOnlyScan _, num => .ok (num + 1)
  | .scan .bitmapHeapScan _, num => .ok (num + 1)
  | .join _ outer inner, num => do
    let num ← addJoinInputTables inner num
    addJoinInputTables outer num
  | .unary .material subpath, num => addJoinInputTables subpath num
  | .unary .sort subpath, num => addJoinInputTables subpath num
  | .unary .agg subpath, num => addJoinInputTables subpath num
  | .unary .groupingSets subpath, num => addJoinInputTables subpath num
  | .unary .memoize subpath, num => addJoinInputTables subpath num
  | .unary .gather subpath, num => addJoinInputTables subpath num
  | .unary .gatherMerge subpath, num => addJoinInputTables subpath num
  | path, _ => .error path.pathtype

/-- The tables under both inputs of a join, the outer input counted first. -/
def joinInputTables (call : EstimateCall) : Except PlanTag Nat := do
  let num ← addJoinInputTables call.outerPath 0
  addJoinInputTables call.innerPath num

/-! ## One estimate -/

/-- `rows = rel->rows; original_card_list[join_card_num] = rows`. -/
def storeRows (s : LeroState) (rows : ℚ) : LeroState :=
  { s with
    rows := rows
    originalCardList := Function.update s.originalCardList s.joinCardNum rows }

/-- `join_input_table_nums[join_card_num] = num_tables; join_card_num += 1`. -/
def storeTables (s : LeroState) (numTables : Nat) (h : s.joinCardNum < cardMaxNum) : LeroState :=
  { s with
    joinInputTableNums := Function.update s.joinInputTableNums s.joinCardNum numTables
    joinCardNum := s.joinCardNum + 1
    withinCapacity := h }

/-- The state after a call, `rel->rows` after it, and the `ERROR` it raised. -/
structure EstimateResult where
  state : LeroState
  rows : ℚ
  error : Option PlanTag

/-- `lero_pgsysml_set_joinrel_size_estimates`, called with `rel->rows` set to the
standard estimate. -/
def leroSetJoinrelSizeEstimates (s : LeroState) (call : EstimateCall) : EstimateResult :=
  if s.recordOriginalCardPhase then
    if h : s.joinCardNum < cardMaxNum then
      let stored := storeRows s call.rows
      match joinInputTables call with
      | .error tag => ⟨stored, call.rows, some tag⟩
      | .ok numTables => ⟨storeTables stored numTables h, stored.rows, none⟩
    else ⟨s, s.rows, none⟩
  else if s.curCardIdx < s.joinCardNum then
    let rows := s.leroCardList s.curCardIdx
    ⟨{ s with rows := rows, curCardIdx := s.curCardIdx + 1 }, rows, none⟩
  else ⟨{ s with rows := call.rows }, call.rows, none⟩

/-! ## Two passes -/

/-- What a planning pass does: it estimates join relations, and a whole planner
call may run in between. -/
inductive PassEvent
  | estimate (call : EstimateCall)
  | planner (first second : List PassEvent)

/-- A planner call that has ended: what its two passes did, and `rel->rows` of the
join relations of its second pass in order. -/
structure PlannedCall where
  first : List PassEvent
  second : List PassEvent
  rows : List ℚ

/-- The state after a pass, `rel->rows` of the pass's own join relations in order,
the planner calls that ended within it, and the `ERROR` that ended it. -/
structure PassResult where
  state : LeroState
  rows : List ℚ
  planned : List PlannedCall
  error : Option PlanTag

/-- What `lero_pgsysml_hook_planner` sets before the first pass. -/
def startRecording (s : LeroState) : LeroState :=
  { s with
    recordOriginalCardPhase := true
    joinCardNum := 0
    curCardIdx := 0
    withinCapacity := Nat.zero_le _ }

variable (settings : LeroSettings)

def startReplay (s : LeroState) : LeroState :=
  { s with
    recordOriginalCardPhase := false
    leroCardList := fun i =>
      if i < s.joinCardNum then
        if s.joinInputTableNums i = settings.leroSubqueryTableNum then
          s.originalCardList i * settings.leroSwingFactor
        else s.originalCardList i
      else s.leroCardList i }

mutual

def runEvent (settings : LeroSettings) (s : LeroState) : PassEvent → PassResult
  | .estimate call =>
    let r := leroSetJoinrelSizeEstimates s call
    ⟨r.state, [r.rows], [], r.error⟩
  | .planner first second =>
    let r := runPass settings (startRecording s) first
    match r.error with
    | some tag => ⟨r.state, [], r.planned, some tag⟩
    | none =>
      let r' := runPass settings (startReplay settings r.state) second
      match r'.error with
      | some tag => ⟨r'.state, [], r.planned ++ r'.planned, some tag⟩
      | none => ⟨r'.state, [], r.planned ++ r'.planned ++ [⟨first, second, r'.rows⟩], none⟩

/-- A `standard_planner` pass; an `ERROR` ends it. -/
def runPass (settings : LeroSettings) (s : LeroState) : List PassEvent → PassResult
  | [] => ⟨s, [], [], none⟩
  | event :: events =>
    let r := runEvent settings s event
    match r.error with
    | some tag => ⟨r.state, r.rows, r.planned, some tag⟩
    | none =>
      let r' := runPass settings r.state events
      ⟨r'.state, r.rows ++ r'.rows, r.planned ++ r'.planned, r'.error⟩

end

/-- `lero_pgsysml_hook_planner`, with the rows of its second pass. -/
def leroHookPlanner (s : LeroState) (first second : List PassEvent) :
    PassResult :=
  let r := runPass settings (startRecording s) first
  match r.error with
  | some tag => ⟨r.state, [], r.planned, some tag⟩
  | none =>
    let r' := runPass settings (startReplay settings r.state) second
    ⟨r'.state, r'.rows, r.planned ++ r'.planned, r'.error⟩

variable (settings : LeroSettings)

theorem runEvent_planner (s : LeroState) (first second : List PassEvent) :
    runEvent settings s (.planner first second) =
      ⟨(leroHookPlanner settings s first second).state, [],
        (leroHookPlanner settings s first second).planned ++
          match (leroHookPlanner settings s first second).error with
          | some _ => []
          | none => [⟨first, second, (leroHookPlanner settings s first second).rows⟩],
        (leroHookPlanner settings s first second).error⟩ := by
  simp only [runEvent, leroHookPlanner]
  cases (runPass settings (startRecording s) first).error with
  | some tag => simp
  | none =>
    cases (runPass settings (startReplay settings
      (runPass settings (startRecording s) first).state) second).error <;> simp

/-- A call that ended without `ERROR` from some state. -/
def Completed (call : PlannedCall) : Prop :=
  ∃ s, (leroHookPlanner settings s call.first call.second).error = none ∧
    (leroHookPlanner settings s call.first call.second).rows = call.rows

mutual

theorem runEvent_planned (cfg : LeroSettings) :
    ∀ (eve : PassEvent) (s : LeroState), ∀ call ∈ (runEvent cfg s eve).planned, Completed cfg call
  | .estimate _, _ => by simp [runEvent]
  | .planner first second, s => by
    intro call hc
    rw [runEvent_planner, mem_append] at hc
    obtain hi | hs := hc
    · -- the calls inside either pass
      rw [leroHookPlanner] at hi
      cases hr : (runPass cfg (startRecording s) first).error with
      | some tag =>
        rw [hr] at hi
        exact runPass_planned cfg first _ call hi
      | none =>
        rw [hr] at hi
        obtain h | h := mem_append.mp hi
        · exact runPass_planned cfg first _ call h
        · exact runPass_planned cfg second _ call h
    cases he : (leroHookPlanner cfg s first second).error with
    | some tag =>
      rw [he] at hs
      simp at hs
    | none =>
      rw [he] at hs
      rw [mem_singleton.mp hs]
      exact ⟨s, he, rfl⟩

theorem runPass_planned (cfg : LeroSettings) :
    ∀ (events : List PassEvent) (s : LeroState), ∀ call ∈ (runPass cfg s events).planned,
      Completed cfg call
  | [], _ => by simp [runPass]
  | event :: events, s => by
    intro call hc
    rw [runPass] at hc
    cases he : (runEvent cfg s event).error with
    | some tag =>
      rw [he] at hc
      exact runEvent_planned cfg event s call hc
    | none =>
      rw [he] at hc
      obtain h | h := mem_append.mp hc
      · exact runEvent_planned cfg event s call h
      · exact runPass_planned cfg events _ call h

end

/-! ## Recording -/

def EstimateCall.countable (call : EstimateCall) : Bool := match joinInputTables call with
  | .ok _ => true
  | .error _ => false

variable {call : EstimateCall} {s : LeroState}

theorem EstimateCall.exists_of_countable (h : call.countable = true) :
    ∃ num, joinInputTables call = .ok num := by
  unfold countable at h
  cases hj : joinInputTables call with
  | ok num => exact ⟨num, rfl⟩
  | error tag => simp [hj] at h

/-- A sequence of estimates: the final state and `rel->rows` after each call.  An
`ERROR` ends only the call that raised it. -/
def estimateCalls (s : LeroState) : List EstimateCall → LeroState × List ℚ
  | [] => (s, [])
  | call :: calls =>
    let r := leroSetJoinrelSizeEstimates s call
    let (s', rows) := estimateCalls r.state calls
    (s', r.rows :: rows)

theorem leroSet_room (hr : s.recordOriginalCardPhase = true) (hrm : s.joinCardNum < cardMaxNum)
    (call : EstimateCall) :
    (leroSetJoinrelSizeEstimates s call).rows = call.rows ∧
    (leroSetJoinrelSizeEstimates s call).state.recordOriginalCardPhase = true ∧
    (leroSetJoinrelSizeEstimates s call).state.rows = call.rows ∧
    (leroSetJoinrelSizeEstimates s call).state.joinCardNum =
      if call.countable then s.joinCardNum + 1 else s.joinCardNum := by
  unfold leroSetJoinrelSizeEstimates EstimateCall.countable
  rw [if_pos hr, dif_pos hrm]
  cases joinInputTables call <;> simp [hr, storeRows, storeTables]

theorem leroSet_full (hr : s.recordOriginalCardPhase = true) (hf : cardMaxNum ≤ s.joinCardNum)
    (call : EstimateCall) : leroSetJoinrelSizeEstimates s call = ⟨s, s.rows, none⟩ := by
  unfold leroSetJoinrelSizeEstimates
  rw [if_pos hr, dif_neg (not_lt.mpr hf)]

/-- The calls made when `room` more estimates have been recorded. -/
def beyondCapacity : Nat → List EstimateCall → List EstimateCall
  | 0, calls => calls
  | _ + 1, [] => []
  | room + 1, call :: calls => beyondCapacity (if call.countable then room else room + 1) calls

/-- The estimate stored last before the arrays are full. -/
def lastStored (rows : ℚ) : Nat → List EstimateCall → ℚ
  | 0, _ => rows
  | _ + 1, [] => rows
  | room + 1, call :: calls => lastStored call.rows (if call.countable then room else room + 1) calls

theorem room_after {room n : Nat} (hr : cardMaxNum - s.joinCardNum = room + 1)
    (hn : n = if call.countable then s.joinCardNum + 1 else s.joinCardNum) :
    cardMaxNum - n = if call.countable then room else room + 1 := by
  subst hn
  split <;> omega

/-- **When recording only observes.**  Each call of the recording pass leaves its
estimate alone exactly if the estimates that no longer fit repeat the one stored
last. -/
theorem recording_observes_iff (s : LeroState) (hrec : s.recordOriginalCardPhase = true)
    (calls : List EstimateCall) :
    (estimateCalls s calls).2 = calls.map EstimateCall.rows ↔
      ∀ call ∈ beyondCapacity (cardMaxNum - s.joinCardNum) calls,
        call.rows = lastStored s.rows (cardMaxNum - s.joinCardNum) calls := by
  induction calls generalizing s with
  | nil => cases cardMaxNum - s.joinCardNum <;> simp [estimateCalls, beyondCapacity]
  | cons call calls ih =>
    simp only [estimateCalls, map_cons, List.cons.injEq]
    cases hr : cardMaxNum - s.joinCardNum with
    | zero =>
      -- nothing is stored any more, and every call gets the static value
      have hf := leroSet_full hrec (by omega) call
      have hrs := ih s hrec
      rw [hr] at hrs
      rw [hf, hrs]
      simp only [beyondCapacity, lastStored, forall_mem_cons, eq_comm]
    | succ room =>
      obtain ⟨hrw, hrec', hs, hn⟩ := leroSet_room hrec (by omega) call
      have hrs := ih _ hrec'
      rw [room_after hr hn, hs] at hrs
      rw [hrw, hrs]
      simp [beyondCapacity, lastStored]

theorem estimateCalls_record {cs : List EstimateCall} :
    ∀ {s : LeroState}, s.recordOriginalCardPhase = true →
      s.joinCardNum + cs.length ≤ cardMaxNum → (∀ call ∈ cs, call.countable = true) →
      (estimateCalls s cs).1.recordOriginalCardPhase = true ∧
      (estimateCalls s cs).1.joinCardNum = s.joinCardNum + cs.length ∧
      (estimateCalls s cs).1.curCardIdx = s.curCardIdx ∧
      (∀ i < s.joinCardNum,
        (estimateCalls s cs).1.originalCardList i = s.originalCardList i ∧
        (estimateCalls s cs).1.joinInputTableNums i = s.joinInputTableNums i) ∧
      ∀ i call, cs[i]? = some call →
        (estimateCalls s cs).1.originalCardList (s.joinCardNum + i) = call.rows ∧
        joinInputTables call =
          .ok ((estimateCalls s cs).1.joinInputTableNums (s.joinCardNum + i)) := by
  induction cs with
  | nil =>
    intro s hr _ _
    exact ⟨hr, rfl, rfl, fun i _ => ⟨rfl, rfl⟩, by simp⟩
  | cons call cs ih =>
    intro s hr hrm hcn
    obtain ⟨num, hnm⟩ := exists_of_countable (hcn call (mem_cons_self ..))
    rw [length_cons] at hrm
    have hlt : s.joinCardNum < cardMaxNum := by omega
    have hs : leroSetJoinrelSizeEstimates s call =
        ⟨storeTables (storeRows s call.rows) num hlt, call.rows, none⟩ := by
      unfold leroSetJoinrelSizeEstimates
      rw [if_pos hr, dif_pos hlt, hnm]
      rfl
    have hnx : (storeTables (storeRows s call.rows) num hlt).joinCardNum = s.joinCardNum + 1 := rfl
    obtain ⟨hp, hn, hcr, hol, hnw⟩ := ih (s := storeTables (storeRows s call.rows) num hlt)
      hr (by rw [hnx]; omega) (fun c hc => hcn c (mem_cons_of_mem _ hc))
    simp only [estimateCalls, hs]
    refine ⟨hp, by rw [hn, length_cons]; omega, hcr, ?_, ?_⟩
    · intro i hi
      obtain ⟨ho, ht⟩ := hol i (by omega)
      rw [ho, ht]
      exact ⟨Function.update_of_ne (by omega) _ _,
        Function.update_of_ne (by show i ≠ s.joinCardNum; omega) _ _⟩
    intro i c hc
    cases i with
    | zero =>
      have hcl : call = c := by simpa using hc
      subst hcl
      obtain ⟨ho, ht⟩ := hol s.joinCardNum (by omega)
      refine ⟨ho.trans (Function.update_self ..), ?_⟩
      rw [add_zero, ht, hnm]
      show Except.ok num = Except.ok (Function.update s.joinInputTableNums s.joinCardNum num _)
      rw [Function.update_self]
    | succ i =>
      have hid : s.joinCardNum + 1 + i = s.joinCardNum + (i + 1) := by omega
      rw [← hid]
      exact hnw i c (by simpa using hc)

def twoTableCall (rows : ℚ) : EstimateCall := ⟨rows, .scan .seqScan 1, .scan .seqScan 2⟩

def leroStart : LeroState := ⟨false, 0, 0, fun _ => 0, fun _ => 0, fun _ => 0, 0, Nat.zero_le _⟩

theorem estimateCalls_append (s : LeroState) (cs cs' : List EstimateCall) :
    estimateCalls s (cs ++ cs') =
      ((estimateCalls (estimateCalls s cs).1 cs').1,
        (estimateCalls s cs).2 ++ (estimateCalls (estimateCalls s cs).1 cs').2) := by
  induction cs generalizing s with
  | nil => rfl
  | cons call cs ih => simp only [cons_append, estimateCalls, ih]

theorem estimateCalls_overflow (hr : s.recordOriginalCardPhase = true) {cs : List EstimateCall}
    (hln : s.joinCardNum + cs.length + 1 = cardMaxNum)
    (hc : ∀ call ∈ cs, call.countable = true) {last : EstimateCall}
    (hl : last.countable = true) (call : EstimateCall) :
    (estimateCalls s (cs ++ [last, call])).2 =
      (estimateCalls s cs).2 ++ [last.rows, last.rows] := by
  obtain ⟨hr1, hn1, -⟩ := estimateCalls_record hr (by omega) hc
  obtain ⟨hrw2, hr2, hs2, hn2⟩ := leroSet_room hr1 (by omega) last
  rw [if_pos hl] at hn2
  have hf := leroSet_full hr2 (by omega) call
  rw [estimateCalls_append]
  simp only [estimateCalls, hf, hrw2, hs2]

/-- The join estimated after `CARD_MAX_NUM` others is given the estimate of the one
before it. -/
theorem recording_overwrites_beyond_capacity :
    (estimateCalls (startRecording leroStart)
        (List.replicate (cardMaxNum - 1) (twoTableCall 1) ++ [twoTableCall 1, twoTableCall 7])).2 ≠
      (List.replicate (cardMaxNum - 1) (twoTableCall 1) ++ [twoTableCall 1, twoTableCall 7]).map
        EstimateCall.rows := by
  have hln : (startRecording leroStart).joinCardNum +
      (List.replicate (cardMaxNum - 1) (twoTableCall 1)).length + 1 = cardMaxNum := by
    have hp := cardMaxNum_pos
    have hz : (startRecording leroStart).joinCardNum = 0 := rfl
    rw [length_replicate, hz]
    omega
  have hc : ∀ call ∈ List.replicate (cardMaxNum - 1) (twoTableCall 1), call.countable = true := by
    intro call hcl
    rw [eq_of_mem_replicate hcl]
    rfl
  intro heq
  rw [estimateCalls_overflow rfl hln hc rfl, map_append] at heq
  have hl := congrArg List.getLast? heq
  exact absurd hl (by norm_num [twoTableCall])

/-- Two joins fit. -/
theorem recording_observes_two_joins :
    (startRecording leroStart).recordOriginalCardPhase = true ∧
    (estimateCalls (startRecording leroStart) [twoTableCall 3, twoTableCall 5]).2 = [3, 5] := by
  refine ⟨rfl, (recording_observes_iff _ rfl [twoTableCall 3, twoTableCall 5]).mpr ?_⟩
  have hn : beyondCapacity (cardMaxNum - (startRecording leroStart).joinCardNum)
      [twoTableCall 3, twoTableCall 5] = [] := rfl
  rw [hn]
  simp

/-! ## Replay -/

/-- A pass of estimates that all succeed is the sequence of these estimates.  Success
may depend on an invariant of the states passed. -/
theorem runPass_estimates (I : LeroState → Prop) (cs : List EstimateCall) (rest : List PassEvent)
    (hok : ∀ s call, I s → call ∈ cs → (leroSetJoinrelSizeEstimates s call).error = none ∧
      I (leroSetJoinrelSizeEstimates s call).state) :
    ∀ s : LeroState, I s → runPass settings s (cs.map .estimate ++ rest) =
      ⟨(runPass settings (estimateCalls s cs).1 rest).state,
        (estimateCalls s cs).2 ++ (runPass settings (estimateCalls s cs).1 rest).rows,
        (runPass settings (estimateCalls s cs).1 rest).planned,
        (runPass settings (estimateCalls s cs).1 rest).error⟩ := by
  induction cs with
  | nil => intro s _; rfl
  | cons call cs ih =>
    intro s hs
    obtain ⟨hcl, hn⟩ := hok s call hs (mem_cons_self ..)
    have hr := ih (fun s' c hs' hc => hok s' c hs' (mem_cons_of_mem _ hc))
      (leroSetJoinrelSizeEstimates s call).state hn
    simp only [map_cons, cons_append, runPass, runEvent, hcl, hr, estimateCalls, nil_append]

theorem leroSet_error_of_countable (s : LeroState) (h : call.countable = true) :
    (leroSetJoinrelSizeEstimates s call).error = none := by
  obtain ⟨num, hn⟩ := exists_of_countable h
  unfold leroSetJoinrelSizeEstimates
  by_cases hrc : s.recordOriginalCardPhase = true
  · rw [if_pos hrc]
    by_cases hr : s.joinCardNum < cardMaxNum
    · rw [dif_pos hr, hn]
    · rw [dif_neg hr]
  rw [if_neg hrc]
  split <;> rfl

theorem leroSet_replay (h : s.recordOriginalCardPhase = false) (call : EstimateCall) :
    (leroSetJoinrelSizeEstimates s call).error = none ∧
    (leroSetJoinrelSizeEstimates s call).state.recordOriginalCardPhase = false := by
  unfold leroSetJoinrelSizeEstimates
  rw [if_neg (by simp [h])]
  split <;> exact ⟨rfl, h⟩

variable (cs : List EstimateCall)

theorem estimateCalls_replay :
    ∀ {s : LeroState}, s.recordOriginalCardPhase = false →
      s.curCardIdx + cs.length ≤ s.joinCardNum →
      (estimateCalls s cs).2 = (List.range' s.curCardIdx cs.length).map s.leroCardList := by
  induction cs with
  | nil => intro s _ _; rfl
  | cons call cs ih =>
    intro s hp hl
    rw [length_cons] at hl
    have hs : leroSetJoinrelSizeEstimates s call =
        ⟨{ s with rows := s.leroCardList s.curCardIdx, curCardIdx := s.curCardIdx + 1 },
          s.leroCardList s.curCardIdx, none⟩ := by
      unfold leroSetJoinrelSizeEstimates
      rw [if_neg (by simp [hp]), if_pos (by omega)]
    have hr := ih (s := (leroSetJoinrelSizeEstimates s call).state)
      (by rw [hs]; exact hp) (by rw [hs]; show s.curCardIdx + 1 + _ ≤ s.joinCardNum; omega)
    simp only [estimateCalls, hr]
    rw [hs, length_cons, range'_succ, map_cons]

theorem runPass_planners_rows {events : List PassEvent}
    (h : ∀ event ∈ events, ∃ first second, event = .planner first second) :
    ∀ s : LeroState, (runPass settings s events).rows = [] := by
  induction events with
  | nil => intro s; rfl
  | cons event events ih =>
    intro s
    obtain ⟨first, second, rfl⟩ := h event (mem_cons_self ..)
    have hr := ih fun e he => h e (mem_cons_of_mem _ he)
    rw [runPass, runEvent_planner]
    cases (leroHookPlanner settings s first second).error with
    | some tag => rfl
    | none => simp [hr]

/-- What the second pass is to see of a join estimated in the first. -/
def scaledRows (call : EstimateCall) : ℚ :=
  if joinInputTables call = .ok settings.leroSubqueryTableNum then
    call.rows * settings.leroSwingFactor
  else call.rows

theorem startReplay_leroCardList {i : Nat} (hi : i < s.joinCardNum)
    (hr : s.originalCardList i = call.rows)
    (ht : joinInputTables call = .ok (s.joinInputTableNums i)) :
    (startReplay settings s).leroCardList i = scaledRows settings call := by
  simp only [startReplay, if_pos hi, hr, scaledRows, ht, Except.ok.injEq]

/-- From any state, a call whose first pass estimates joins and does nothing else,
and whose second pass makes as many estimates before any inner call, gives every
join of the second pass the rows recorded for it, scaled if it has the chosen
number of tables. -/
theorem leroHookPlanner_replays (s : LeroState) (first second : List EstimateCall)
    (after : List PassEvent) (hcn : ∀ call ∈ first, call.countable = true)
    (hm : first.length ≤ cardMaxNum) (hsm : second.length = first.length)
    (ha : ∀ event ∈ after, ∃ inner inner', event = .planner inner inner') :
    (leroHookPlanner settings s (first.map .estimate) (second.map .estimate ++ after)).rows =
      first.map (scaledRows settings) := by
  obtain ⟨-, hn, hcr, -, hnw⟩ := estimateCalls_record (s := startRecording s) rfl
    (by show 0 + _ ≤ _; omega) hcn
  have hf := runPass_estimates settings (fun _ => True) first []
    (fun s' c _ hc => ⟨leroSet_error_of_countable s' (hcn c hc), trivial⟩)
    (startRecording s) trivial
  rw [append_nil] at hf
  have hsc := runPass_estimates settings (fun s' => s'.recordOriginalCardPhase = false) second
    after (fun s' c hs' _ => leroSet_replay hs' c)
    (startReplay settings (estimateCalls (startRecording s) first).1) rfl
  have hn' : (estimateCalls (startRecording s) first).1.joinCardNum = first.length := by
    rw [hn]
    exact zero_add _
  have hr := estimateCalls_replay second
    (s := startReplay settings (estimateCalls (startRecording s) first).1) rfl (by
      show (estimateCalls (startRecording s) first).1.curCardIdx + _ ≤
        (estimateCalls (startRecording s) first).1.joinCardNum
      rw [hcr, hn', hsm]
      exact (zero_add _).le)
  have hst : (startReplay settings (estimateCalls (startRecording s) first).1).curCardIdx = 0 := hcr
  have hrw : (leroHookPlanner settings s (first.map .estimate)
      (second.map .estimate ++ after)).rows =
      (List.range' 0 first.length).map
        (startReplay settings (estimateCalls (startRecording s) first).1).leroCardList := by
    rw [leroHookPlanner, hf]
    simp only [runPass]
    rw [hsc]
    simp only [runPass_planners_rows settings ha, append_nil]
    rw [hr, hst, hsm]
  rw [hrw]
  -- both lists have one entry for each recorded join
  apply ext_getElem (by simp)
  intro i hi _
  have hi' : i < first.length := by simpa using hi
  obtain ⟨ho, ht⟩ := hnw i first[i] (getElem?_eq_getElem hi')
  have hz : (startRecording s).joinCardNum + i = i := zero_add i
  rw [hz] at ho ht
  simp only [getElem_map, getElem_range', one_mul, zero_add]
  exact startReplay_leroCardList settings (by rw [hn']; exact hi') ho ht

theorem countable_of_recorded :
    ∀ s : LeroState, s.recordOriginalCardPhase = true →
      s.joinCardNum + cs.length ≤ cardMaxNum →
      (runPass settings s (cs.map .estimate)).error = none →
      ∀ call ∈ cs, call.countable = true := by
  induction cs with
  | nil => simp
  | cons call cs ih =>
    intro s hr hrm he
    rw [length_cons] at hrm
    obtain ⟨-, hr', -, hn⟩ := leroSet_room hr (show s.joinCardNum < cardMaxNum by omega) call
    have hcl : call.countable = true := by
      by_contra hno
      have hf : ∃ tag, (leroSetJoinrelSizeEstimates s call).error = some tag := by
        unfold EstimateCall.countable at hno
        unfold leroSetJoinrelSizeEstimates
        rw [if_pos hr, dif_pos (by omega)]
        cases hj : joinInputTables call with
        | ok num => simp [hj] at hno
        | error tag => exact ⟨tag, rfl⟩
      obtain ⟨tag, ht⟩ := hf
      simp [runPass, runEvent, ht] at he
    rw [if_pos hcl] at hn
    have hok := leroSet_error_of_countable s hcl
    simp only [map_cons, runPass, runEvent, hok] at he
    have hrs := ih _ hr' (by omega) he
    exact forall_mem_cons.mpr ⟨hcl, hrs⟩

/-- The estimates a pass makes itself, in order. -/
def ownEstimates (events : List PassEvent) : List EstimateCall :=
  events.filterMap fun event =>
    match event with
    | .estimate call => some call
    | .planner _ _ => none

theorem ownEstimates_map : ownEstimates (cs.map .estimate) = cs := by
  induction cs with
  | nil => rfl
  | cons call cs ih =>
    rw [map_cons]
    exact congrArg (call :: ·) ih

theorem ownEstimates_planners {events : List PassEvent}
    (h : ∀ event ∈ events, ∃ first second, event = .planner first second) :
    ownEstimates events = [] := by
  refine filterMap_eq_nil_iff.mpr fun event he => ?_
  obtain ⟨first, second, rfl⟩ := h event he
  rfl

/-- No planner call starts inside the first pass, and none inside the second before
its last estimate. -/
def Undisturbed (call : PlannedCall) : Prop :=
  ∃ first second : List EstimateCall, ∃ after : List PassEvent,
    call.first = first.map .estimate ∧ call.second = second.map .estimate ++ after ∧
    ∀ event ∈ after, ∃ inner inner', event = .planner inner inner'

/-- **Replay.**  In every run of planner calls, nested in any way, each undisturbed
call that makes the same number of estimates in both passes gives every join of
its second pass the rows recorded in its own first pass, scaled if the join has
the chosen number of tables. -/
theorem replay_scales (settings : LeroSettings) (s : LeroState) (run : List PassEvent)
    (call : PlannedCall) (hcall : call ∈ (runPass settings s run).planned)
    (hcalm : Undisturbed call) (hmax : (ownEstimates call.first).length ≤ cardMaxNum)
    (hsame : (ownEstimates call.second).length = (ownEstimates call.first).length) :
    call.rows = (ownEstimates call.first).map (scaledRows settings) := by
  obtain ⟨s', he, hr⟩ := runPass_planned settings run s call hcall
  obtain ⟨first, second, after, hf, hs, ha⟩ := hcalm
  have hs' : ownEstimates call.second = second := by
    have ho := ownEstimates_map second
    rw [hs]
    unfold ownEstimates at ho ⊢
    rw [filterMap_append, ho]
    exact (congrArg (second ++ ·) (ownEstimates_planners ha)).trans (append_nil second)
  rw [hs', hf, ownEstimates_map] at hsame
  rw [hf, ownEstimates_map] at hmax ⊢
  rw [hf, hs] at he hr
  have hp : (runPass settings (startRecording s') (first.map .estimate)).error = none := by
    by_contra hne
    obtain ⟨tag, ht⟩ := Option.ne_none_iff_exists'.mp hne
    simp [leroHookPlanner, ht] at he
  have hc := countable_of_recorded settings first (startRecording s') rfl
    (by show 0 + _ ≤ _; omega) hp
  rw [← hr]
  exact leroHookPlanner_replays settings s' first second after hc hmax hsame ha

def tenthOfTwo : LeroSettings := ⟨1 / 10, 2⟩

/-- A call with one join; an inner call comes after it. -/
theorem replay_scales_one_join :
    ∃ call ∈ (runPass tenthOfTwo leroStart
        [.planner [.estimate (twoTableCall 100)]
          [.estimate (twoTableCall 100), .planner [] []]]).planned,
      call.first = [.estimate (twoTableCall 100)] ∧ call.rows = [10] := by
  have he : (leroHookPlanner tenthOfTwo leroStart [.estimate (twoTableCall 100)]
      [.estimate (twoTableCall 100), .planner [] []]).error = none := by decide +kernel
  have hm : (⟨[.estimate (twoTableCall 100)], [.estimate (twoTableCall 100), .planner [] []],
      (leroHookPlanner tenthOfTwo leroStart [.estimate (twoTableCall 100)]
        [.estimate (twoTableCall 100), .planner [] []]).rows⟩ : PlannedCall) ∈
      (runPass tenthOfTwo leroStart [.planner [.estimate (twoTableCall 100)]
        [.estimate (twoTableCall 100), .planner [] []]]).planned := by
    simp [runPass, runEvent_planner, he]
  refine ⟨_, hm, rfl, ?_⟩
  have hs : [twoTableCall 100].map (scaledRows tenthOfTwo) = [10] := by decide +kernel
  rw [← hs]
  exact replay_scales tenthOfTwo leroStart _ _ hm
    ⟨[twoTableCall 100], [twoTableCall 100], [.planner [] []], rfl, rfl, by
      intro event hev
      exact ⟨[], [], mem_singleton.mp hev⟩⟩
    cardMaxNum_pos rfl

/-- An inner call during the first pass, or before an estimate of the second, and
the join keeps its 100 rows where 10 were due. -/
theorem inner_call_spoils_replay :
    (runPass tenthOfTwo leroStart
        [.planner [.planner [] [], .estimate (twoTableCall 100)]
          [.estimate (twoTableCall 100)]]).planned.map PlannedCall.rows = [[], [100]] ∧
    (runPass tenthOfTwo leroStart
        [.planner [.estimate (twoTableCall 100)]
          [.planner [] [], .estimate (twoTableCall 100)]]).planned.map PlannedCall.rows =
      [[], [100]] ∧
    scaledRows tenthOfTwo (twoTableCall 100) ≠ 100 := by
  refine ⟨?_, ?_, ?_⟩ <;> decide +kernel

end AthenaPG
