/-!
Counters of the oracle evaluation (`scripts/evaluate_bound_candidate_oracle.py`).

`main` counts as it appends the rows; a resumed run first counts the rows of its report again.
Times, which are only compared, are of any type.

* `processQuery_summary`: the counters of `main` are those of its report, row after row.
* `resumed_run_eq`: a resumed run ends like one that was not interrupted.
-/

namespace AthenaPG

/-- What is measured for a query; a runtime is its `execution_time_ms`. -/
structure MeasuredQuery (T : Type) where
  defaultRuntime : Option T
  returncode : Int
  candidateCount : Nat
  plannerMinRuntime : Option T
  runtimeResults : List (Option T)

structure QueryRow (T : Type) where
  defaultRuntime : Option T
  defaultRuntimeSuccess : Bool
  boundCollectionSuccess : Bool
  oracleEligible : Bool
  plannerMinRuntime : Option T
  oracleRuntime : Option T

structure ReportSummary where
  queryCount : Nat
  defaultRuntimeSuccessCount : Nat
  boundCollectionSuccessCount : Nat
  oracleEligibleCount : Nat
  oracleBetter : Nat
  defaultBetter : Nat
  plannerMinMatchesOracle : Nat

/-- 1 for two times that are there and compare so. -/
def countBoth {T : Type} (test : T → T → Bool) : Option T → Option T → Nat
  | some a, some b => (test a b).toNat
  | _, _ => 0

variable {T : Type} [LT T] [DecidableLT T] [BEq T]

/-- The loop body of `recompute_report_counters`. -/
def countRow (s : ReportSummary) (row : QueryRow T) : ReportSummary where
  queryCount := s.queryCount
  defaultRuntimeSuccessCount := s.defaultRuntimeSuccessCount + row.defaultRuntimeSuccess.toNat
  boundCollectionSuccessCount := s.boundCollectionSuccessCount +
    (row.defaultRuntimeSuccess && row.boundCollectionSuccess).toNat
  oracleEligibleCount :=
    s.oracleEligibleCount + (row.defaultRuntimeSuccess && row.oracleEligible).toNat
  oracleBetter := s.oracleBetter + countBoth (· > ·) row.defaultRuntime row.oracleRuntime
  defaultBetter := s.defaultBetter + countBoth (¬ · > ·) row.defaultRuntime row.oracleRuntime
  plannerMinMatchesOracle :=
    s.plannerMinMatchesOracle + countBoth (· == ·) row.plannerMinRuntime row.oracleRuntime

def recomputeReportCounters (queries : List (QueryRow T)) : ReportSummary :=
  { queries.foldl countRow ⟨0, 0, 0, 0, 0, 0, 0⟩ with queryCount := queries.length }

/-- `min` by time: the first of the shortest. -/
def oracleBest : List T → Option T
  | [] => none
  | ms :: rest => some (rest.foldl (fun best ms => if ms < best then ms else best) ms)

/-- The loop body of `main`, over `report["queries"]` and the counters. -/
def processQuery (report : List (QueryRow T) × ReportSummary) (query : MeasuredQuery T) :
    List (QueryRow T) × ReportSummary :=
  let (queries, s) := report
  let success := query.defaultRuntime.isSome
  let collected := query.returncode = 0 ∧ query.candidateCount ≠ 0
  let row := ⟨query.defaultRuntime, success, collected, false, none, none⟩
  let s := { s with
    queryCount := queries.length + 1
    defaultRuntimeSuccessCount := s.defaultRuntimeSuccessCount + success.toNat }
  if ¬ collected then (queries ++ [row], s)
  else if ¬ success then (queries ++ [row], s)
  else
    let best := oracleBest (query.runtimeResults.filterMap id)
    let row := { row with
      plannerMinRuntime := query.plannerMinRuntime
      oracleRuntime := best
      oracleEligible := best.isSome }
    (queries ++ [row], { s with
      boundCollectionSuccessCount := s.boundCollectionSuccessCount + 1
      oracleEligibleCount := s.oracleEligibleCount + best.isSome.toNat
      oracleBetter := s.oracleBetter + countBoth (· > ·) row.defaultRuntime best
      defaultBetter := s.defaultBetter + countBoth (¬ · > ·) row.defaultRuntime best
      plannerMinMatchesOracle :=
        s.plannerMinMatchesOracle + countBoth (· == ·) row.plannerMinRuntime best })

/-- The loop of `main`, from the rows of the report that it resumes. -/
def evaluateQueries (queries : List (QueryRow T)) (files : List (MeasuredQuery T)) :
    List (QueryRow T) × ReportSummary :=
  files.foldl processQuery (queries, recomputeReportCounters queries)

variable (queries : List (QueryRow T))

theorem recompute_concat (row : QueryRow T) : recomputeReportCounters (queries ++ [row]) =
    { countRow (recomputeReportCounters queries) row with queryCount := queries.length + 1 } := by
  simp [recomputeReportCounters, countRow]

theorem processQuery_summary {rep : List (QueryRow T) × ReportSummary}
    (h : rep.2 = recomputeReportCounters rep.1) (que : MeasuredQuery T) :
    (processQuery rep que).2 = recomputeReportCounters (processQuery rep que).1 := by
  obtain ⟨queries, s⟩ := rep
  obtain rfl : s = recomputeReportCounters queries := h
  by_cases hc : que.returncode = 0 ∧ que.candidateCount ≠ 0
  · cases hd : que.defaultRuntime with
    | none => simp [processQuery, hd, hc, recompute_concat, countRow, countBoth]
    | some ms => simp [processQuery, hd, hc, recompute_concat, countRow]
  simp [processQuery, hc, recompute_concat, countRow, countBoth]

theorem evaluateQueries_summary (fil : List (MeasuredQuery T)) :
    (evaluateQueries queries fil).2 = recomputeReportCounters (evaluateQueries queries fil).1 :=
  fil.foldlRecOn processQuery (b := (queries, recomputeReportCounters queries))
    (motive := fun report => report.2 = recomputeReportCounters report.1) rfl
    fun _ h query _ => processQuery_summary h query

/-- **Resuming**: a run that is interrupted after any number of queries and resumed on its
report ends with the rows and the summary of a run that is not interrupted. -/
theorem resumed_run_eq (done rest : List (MeasuredQuery T)) :
    evaluateQueries (evaluateQueries queries done).1 rest =
      evaluateQueries queries (done ++ rest) := by
  have hr := evaluateQueries_summary queries done
  unfold evaluateQueries at hr ⊢
  rw [List.foldl_append, ← hr]

end AthenaPG
