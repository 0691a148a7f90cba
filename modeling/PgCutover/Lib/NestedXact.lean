import Mathlib.Data.List.Basic

/-!
# Nested transactions

A transaction body is a sequence of actions and of subtransactions, each with its
own outcome. Two semantics are given to it. A `NestedMachine` executes it with
explicit entry, commit and abort transitions, as a program that keeps a stack of
levels does. `XactBody.denote` says what nesting is for: a committed
subtransaction keeps its effect and an aborted one leaves no trace.

`XactBody.run_simulates` connects the two. A machine implements the atomic
semantics as soon as a relation between its states and the stack of values seen by
the open levels is kept by each transition.
-/

namespace PgCutover.Lib

/-- What one nesting level of a transaction does, in order: an action, or a
subtransaction with its own body and its outcome (`true` for commit). -/
inductive XactBody (α : Type*)
  | nil
  | act (a : α) (rest : XactBody α)
  | sub (body : XactBody α) (commits : Bool) (rest : XactBody α)
  deriving DecidableEq, Repr

/-- A program that is told about every action and every transaction boundary. -/
structure NestedMachine (σ α : Type*) where
  act : α → σ → σ
  enter : σ → σ
  commit : σ → σ
  abort : σ → σ

namespace NestedMachine

variable {σ α : Type*}

/-- Leave the current level with the given outcome. -/
def leave (m : NestedMachine σ α) (commits : Bool) (s : σ) : σ :=
  if commits then m.commit s else m.abort s

end NestedMachine

namespace XactBody

variable {σ ρ α β : Type*}

def run (m : NestedMachine σ α) : XactBody α → σ → σ
  | nil, s => s
  | act a rest, s => rest.run m (m.act a s)
  | sub body commits rest, s => rest.run m (m.leave commits (body.run m (m.enter s)))

/-- The atomic semantics of a body: aborted subtransactions leave no trace. -/
def denote (f : α → ρ → ρ) : XactBody α → ρ → ρ
  | nil, r => r
  | act a rest, r => rest.denote f (f a r)
  | sub body commits rest, r => rest.denote f (if commits then body.denote f r else r)

/-- Every action of the body is admissible at the value it is executed on. -/
def Admissible (f : α → ρ → ρ) (ok : α → ρ → Prop) : XactBody α → ρ → Prop
  | nil, _ => True
  | act a rest, r => ok a r ∧ rest.Admissible f ok (f a r)
  | sub body commits rest, r =>
      body.Admissible f ok r ∧
        rest.Admissible f ok (if commits then body.denote f r else r)

/-- A depth-indexed invariant kept by every transition is kept by every body. -/
theorem run_invariant (m : NestedMachine σ α) (I : ℕ → σ → Prop)
    (hact : ∀ d a s, I (d + 1) s → I (d + 1) (m.act a s))
    (henter : ∀ d s, I d s → I (d + 1) (m.enter s))
    (hleave : ∀ d c s, I (d + 1) s → I d (m.leave c s))
    (body : XactBody α) {d : ℕ} {s : σ} (h : I (d + 1) s) : I (d + 1) (body.run m s) := by
  induction body generalizing d s with
  | nil => exact h
  | act a _ ih => exact ih (hact d a s h)
  | sub _ commits _ ihBody ihRest =>
    exact ihRest (hleave (d + 1) commits _ (ihBody (henter (d + 1) s h)))

/-- **Simulation of the atomic semantics.** `R` relates a machine state to the
stack of values seen by the open levels, innermost first. Entering a level copies
the current value, committing keeps it and aborting returns to the saved one. -/
theorem run_simulates (m : NestedMachine σ α) (f : α → ρ → ρ) (ok : α → ρ → Prop)
    (R : List ρ → σ → Prop)
    (hact : ∀ a r r' saved s, ok a r → R (r :: r' :: saved) s →
      R (f a r :: r' :: saved) (m.act a s))
    (henter : ∀ r saved s, R (r :: saved) s → R (r :: r :: saved) (m.enter s))
    (hcommit : ∀ r r' r'' saved s, R (r :: r' :: r'' :: saved) s →
      R (r :: r'' :: saved) (m.commit s))
    (habort : ∀ r r' r'' saved s, R (r :: r' :: r'' :: saved) s →
      R (r' :: r'' :: saved) (m.abort s))
    (body : XactBody α) {r r' : ρ} {saved : List ρ} {s : σ} (hok : body.Admissible f ok r)
    (h : R (r :: r' :: saved) s) :
    R (body.denote f r :: r' :: saved) (body.run m s) := by
  induction body generalizing r r' saved s with
  | nil => exact h
  | act a _ ih => exact ih hok.2 (hact a r r' saved s hok.1 h)
  | sub _ commits _ ihBody ihRest =>
    have hbody := ihBody hok.1 (henter r (r' :: saved) s h)
    cases commits with
    | true => exact ihRest hok.2 (hcommit _ _ _ _ _ hbody)
    | false => exact ihRest hok.2 (habort _ _ _ _ _ hbody)

end XactBody

end PgCutover.Lib
