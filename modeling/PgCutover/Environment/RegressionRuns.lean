import Mathlib.Order.Interval.Finset.Nat

/-!
# The two runs of the regression tests

The pipeline runs every script of the regression tests as it is; the test `regression-tests-pass`
runs them with `ON_ERROR_STOP`, until one fails.
-/

namespace PgCutover.Environment

open List

/-- The exit status of `psql` for a script, of whose statements `false` are those that fail. -/
def psql (onErrorStop : Bool) : List Bool → ℕ
  | [] => 0
  | succeeds :: script => if !succeeds && onErrorStop then 3 else psql onErrorStop script

/-- One turn of the loop of the pipeline: the passed and the failed scripts. -/
def countScript (counts : ℕ × ℕ) (script : List Bool) : ℕ × ℕ :=
  if psql false script = 0 then (counts.1 + 1, counts.2) else (counts.1, counts.2 + 1)

/-- The verdict of the step "Run regression tests" of the pipeline. -/
def runRegressionTests (scripts : List (List Bool)) : Bool :=
  (scripts.foldl countScript (0, 0)).2 = 0

/-- The verdict of the test `regression-tests-pass`, which stops at the first script that fails. -/
def regressionTestsPass (scripts : List (List Bool)) : Bool :=
  scripts ≠ [] && scripts.all fun script => psql true script = 0

theorem psql_stop_eq_zero_iff (script : List Bool) : psql true script = 0 ↔ false ∉ script := by
  induction script with
  | nil => simp [psql]
  | cons succeeds _ ih => cases succeeds <;> simp [psql, ih]

/-- Without `ON_ERROR_STOP` a script is run to its end, whatever fails. -/
theorem psql_continue (script : List Bool) : psql false script = 0 := by
  induction script with
  | nil => rfl
  | cons _ _ ih => simpa [psql] using ih

theorem runRegressionTests_eq (scripts : List (List Bool)) : runRegressionTests scripts = true := by
  have hnone (counts : ℕ × ℕ) : (scripts.foldl countScript counts).2 = counts.2 := by
    induction scripts generalizing counts with
    | nil => rfl
    | cons script _ ih => rw [foldl_cons, ih, countScript, if_pos (psql_continue script)]
  rw [runRegressionTests, hnone]
  rfl

end PgCutover.Environment
