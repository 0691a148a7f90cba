import Mathlib.Algebra.Order.BigOperators.Group.Finset
import Mathlib.Data.Fintype.BigOperators

/-!
# Runs of total and of partial state machines

What one step does, and what a run does.
-/

namespace PgCutover.Lib

/-!
## Runs of a state machine

A run is a list of actions. `EveryStep step P s l` says that `P` holds at each step of the run
`l` from `s`, of the state before the step and the action. The rules below turn what one step
does into what a run does.
-/

section Run

variable {σ α : Type*} (step : σ → α → σ)

/-- The state after the actions. -/
def run (s : σ) (l : List α) : σ := l.foldl step s

/-- The condition holds at every step of a run. -/
def EveryStep (P : σ → α → Prop) : σ → List α → Prop
  | _, [] => True
  | s, a :: l => P s a ∧ EveryStep P (step s a) l

variable {step} {P Q : σ → α → Prop} {Inv : σ → Prop} {s : σ} {l : List α}

@[simp] theorem run_nil : run step s [] = s := rfl

@[simp] theorem run_cons (a : α) : run step s (a :: l) = run step (step s a) l := rfl

/-- A property of the actions of the run. -/
theorem everyStep_of_forall {A : α → Prop} (hA : ∀ a ∈ l, A a) :
    EveryStep step (fun _ a => A a) s l := by
  induction l generalizing s with
  | nil => trivial
  | cons a l ih =>
    rw [List.forall_mem_cons] at hA
    exact ⟨hA.1, ih hA.2⟩

theorem EveryStep.and_forall {A : α → Prop} (hP : EveryStep step P s l) (hA : ∀ a ∈ l, A a) :
    EveryStep step (fun s a => P s a ∧ A a) s l := by
  induction l generalizing s with
  | nil => trivial
  | cons a l ih =>
    rw [List.forall_mem_cons] at hA
    exact ⟨⟨hP.1, hA.1⟩, ih hP.2 hA.2⟩

theorem run_invariant (hstep : ∀ s a, Inv s → P s a → Inv (step s a)) (hs : Inv s)
    (hl : EveryStep step P s l) : Inv (run step s l) := by
  induction l generalizing s with
  | nil => exact hs
  | cons a l ih => exact ih (hstep s a hs hl.1) hl.2

/-- Under an invariant, a property of every step is replaced by another. -/
theorem everyStep_congr (hstep : ∀ s a, Inv s → Inv (step s a))
    (h : ∀ s a, Inv s → (P s a ↔ Q s a)) (hs : Inv s) :
    EveryStep step P s l ↔ EveryStep step Q s l := by
  induction l generalizing s with
  | nil => rfl
  | cons a l ih => exact and_congr (h s a hs) (ih (hstep s a hs))

end Run

/-!
## Traces of a partial state machine

A step takes a state and an event and is undefined where the event cannot happen.
-/

variable {σ α : Type*} (step : σ → α → Option σ)

/-- The state after the events. -/
def trace (s : σ) : List α → Option σ
  | [] => some s
  | a :: l => (step s a).bind fun t => trace t l

variable {step} {s t : σ} {a : α} {l l' : List α}

@[simp] theorem trace_nil : trace step s [] = some s := rfl

theorem trace_cons : trace step s (a :: l) = (step s a).bind fun t => trace step t l := rfl

theorem trace_cons_eq_some :
    trace step s (a :: l) = some t ↔ ∃ u, step s a = some u ∧ trace step u l = some t := by
  rw [trace_cons, Option.bind_eq_some_iff]

theorem trace_append :
    trace step s (l ++ l') = (trace step s l).bind fun t => trace step t l' := by
  induction l generalizing s with
  | nil => rfl
  | cons a l ih =>
    rw [List.cons_append, trace_cons, trace_cons, Option.bind_assoc]
    exact congrArg _ (funext fun t => ih)

theorem trace_append_eq_some :
    trace step s (l ++ l') = some t ↔
      ∃ u, trace step s l = some u ∧ trace step u l' = some t := by
  rw [trace_append, Option.bind_eq_some_iff]

/-- A relation between the events so far and the state reached, kept by every event. -/
theorem trace_history {Inv : List α → σ → Prop}
    (hstep : ∀ l s a t, Inv l s → step s a = some t → Inv (l ++ [a]) t) (hinit : Inv [] s)
    (h : trace step s l = some t) : Inv l t := by
  -- the events seen so far are kept apart from those still to come
  have hfrom : ∀ l' l s t, Inv l' s → trace step s l = some t → Inv (l' ++ l) t := by
    intro l' l
    induction l generalizing l' with intro s t hs h
    | nil =>
      cases h
      rwa [List.append_nil]
    | cons a l ih =>
      obtain ⟨u, hu, h⟩ := trace_cons_eq_some.1 h
      rw [← List.singleton_append, ← List.append_assoc]
      exact ih (l' ++ [a]) u t (hstep l' s a u hs hu) h
  exact hfrom [] l s t hinit h

theorem trace_invariant {Inv : σ → Prop} (hstep : ∀ s a t, Inv s → step s a = some t → Inv t)
    (hs : Inv s) (h : trace step s l = some t) : Inv t :=
  trace_history (fun _ s a t => hstep s a t) hs h

/-! ### Steps under a condition -/

section Guarded

variable {ok : σ → α → Prop} [∀ s a, Decidable (ok s a)]

/-- The steps that meet the condition. -/
def guarded (ok : σ → α → Prop) [∀ s a, Decidable (ok s a)] (step : σ → α → Option σ) (s : σ)
    (a : α) : Option σ :=
  if ok s a then step s a else none

theorem guarded_eq_some : guarded ok step s a = some t ↔ ok s a ∧ step s a = some t := by
  rw [guarded, Option.ite_none_right_eq_some]

theorem trace_of_guarded (h : trace (guarded ok step) s l = some t) : trace step s l = some t := by
  induction l generalizing s with
  | nil => exact h
  | cons a l ih =>
    obtain ⟨u, hu, h⟩ := trace_cons_eq_some.1 h
    exact trace_cons_eq_some.2 ⟨u, (guarded_eq_some.1 hu).2, ih h⟩

/-- A run either meets the condition at every step, or there is a first step that does not. -/
theorem trace_guarded_or (h : trace step s l = some t) :
    trace (guarded ok step) s l = some t ∨
      ∃ l₁ a l₂ u v, l = l₁ ++ a :: l₂ ∧ trace (guarded ok step) s l₁ = some u ∧ ¬ ok u a ∧
        step u a = some v ∧ trace step v l₂ = some t := by
  induction l generalizing s with
  | nil => exact .inl h
  | cons a l ih =>
    obtain ⟨u, hu, h⟩ := trace_cons_eq_some.1 h
    by_cases hok : ok s a
    · have hguarded : guarded ok step s a = some u := guarded_eq_some.2 ⟨hok, hu⟩
      rcases ih h with htrace | ⟨l₁, b, l₂, v, w, rfl, hl₁, hb, hv, hl₂⟩
      · exact .inl (trace_cons_eq_some.2 ⟨u, hguarded, htrace⟩)
      · exact .inr ⟨a :: l₁, b, l₂, v, w, rfl, trace_cons_eq_some.2 ⟨u, hguarded, hl₁⟩, hb, hv, hl₂⟩
    · exact .inr ⟨[], a, l, s, u, rfl, rfl, hok, hu, h⟩

end Guarded

end PgCutover.Lib
