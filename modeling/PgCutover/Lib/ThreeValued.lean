import Mathlib.Data.List.Basic

/-!
# Three-valued logic

Truth values are `some true`, `some false` and, for NULL, `none`. A truth value passes in the
strong sense when it is true and in the weak sense when it is not false. In both senses a
conjunction passes when all its members do, and a disjunction when one of them does
(`passes_and3`, `passes_or3`); that is all that a proof by cases over conjunctions and
disjunctions needs. `Implies` and `Refutes` are the two kinds of proofs of one truth value
from another, each in both senses.
-/

namespace PgCutover.Lib

/-- Negation. -/
def not3 (t : Option Bool) : Option Bool := t.map not

@[simp] theorem not3_not3 (t : Option Bool) : not3 (not3 t) = t := by
  cases t <;> simp [not3]

theorem not3_eq_iff {t u : Option Bool} : not3 t = u ↔ t = not3 u :=
  ⟨fun h => by rw [← h, not3_not3], fun h => by rw [h, not3_not3]⟩

/-- The conjunction: false if a member is, else unknown if a member is. -/
def and3 (l : List (Option Bool)) : Option Bool :=
  if some false ∈ l then some false else if none ∈ l then none else some true

/-- The disjunction: true if a member is, else unknown if a member is. -/
def or3 (l : List (Option Bool)) : Option Bool :=
  if some true ∈ l then some true else if none ∈ l then none else some false

/-- To be true or, in the weak sense, not to be false. -/
def Passes (weak : Bool) (t : Option Bool) : Prop :=
  if weak then t ≠ some false else t = some true

@[simp] theorem passes_true {t : Option Bool} : Passes true t ↔ t ≠ some false := by
  simp [Passes]

@[simp] theorem passes_false {t : Option Bool} : Passes false t ↔ t = some true := by
  simp [Passes]

section Lists

variable {l : List (Option Bool)}

theorem mem_map_not3 {t : Option Bool} : t ∈ l.map not3 ↔ not3 t ∈ l := by
  rw [List.mem_map]
  exact ⟨fun ⟨u, hu, heq⟩ => by rwa [← heq, not3_not3], fun h => ⟨_, h, not3_not3 t⟩⟩

theorem not3_and3 (l : List (Option Bool)) : not3 (and3 l) = or3 (l.map not3) := by
  simp only [and3, or3, mem_map_not3]
  split_ifs <;> simp_all [not3]

theorem not3_or3 (l : List (Option Bool)) : not3 (or3 l) = and3 (l.map not3) := by
  simp only [and3, or3, mem_map_not3]
  split_ifs <;> simp_all [not3]

theorem and3_eq_false_iff : and3 l = some false ↔ some false ∈ l := by
  unfold and3
  split_ifs <;> simp_all

theorem or3_eq_true_iff : or3 l = some true ↔ some true ∈ l := by
  unfold or3
  split_ifs <;> simp_all

theorem and3_eq_true_iff : and3 l = some true ↔ ∀ t ∈ l, t = some true := by
  unfold and3
  split_ifs with hfalse hnone
  · exact iff_of_false (by simp) fun h => by simpa using h _ hfalse
  · exact iff_of_false (by simp) fun h => by simpa using h _ hnone
  · refine iff_of_true rfl fun t ht => ?_
    match t, ht with
    | some true, _ => rfl
    | some false, ht => exact absurd ht hfalse
    | none, ht => exact absurd ht hnone

theorem or3_eq_false_iff : or3 l = some false ↔ ∀ t ∈ l, t = some false := by
  have hdual : or3 l = some false ↔ not3 (or3 l) = some true :=
    (@not3_eq_iff (or3 l) (some true)).symm
  rw [hdual, not3_or3, and3_eq_true_iff, List.forall_mem_map]
  simp only [not3_eq_iff]
  rfl

theorem passes_and3 (weak : Bool) : Passes weak (and3 l) ↔ ∀ t ∈ l, Passes weak t := by
  cases weak with
  | false => simp only [passes_false, and3_eq_true_iff]
  | true =>
    simp only [passes_true, ne_eq, and3_eq_false_iff]
    exact ⟨fun h t ht heq => h (heq ▸ ht), fun h hmem => h _ hmem rfl⟩

theorem passes_or3 (weak : Bool) : Passes weak (or3 l) ↔ ∃ t ∈ l, Passes weak t := by
  cases weak with
  | false => simp only [passes_false, or3_eq_true_iff, exists_eq_right]
  | true => simp only [passes_true, ne_eq, or3_eq_false_iff, not_forall, exists_prop]

/-- A disjunction of nothing but NULLs. -/
theorem or3_eq_none (hne : l ≠ []) (h : ∀ t ∈ l, t = none) :
    or3 l = none := by
  obtain ⟨t, ht⟩ := List.exists_mem_of_ne_nil l hne
  have hnone : none ∈ l := h t ht ▸ ht
  have htrue : some true ∉ l := fun hmem => by simpa using h _ hmem
  simp [or3, hnone, htrue]

/-- A conjunction of nothing but NULLs. -/
theorem and3_eq_none (hne : l ≠ []) (h : ∀ t ∈ l, t = none) :
    and3 l = none := by
  refine not3_eq_iff.1 ((not3_and3 l).trans (or3_eq_none (by simpa using hne) ?_))
  exact List.forall_mem_map.2 fun t ht => by rw [h t ht]; rfl

end Lists

/-! ### What one truth value proves about another -/

/-- Implication: in the strong sense from truth to truth, in the weak sense from non-falsity to
non-falsity. -/
def Implies (weak : Bool) (clause predicate : Option Bool) : Prop :=
  Passes weak clause → Passes weak predicate

/-- Refutation: from truth, in the strong sense to falsity and in the weak sense to
non-truth. -/
def Refutes (weak : Bool) (clause predicate : Option Bool) : Prop :=
  clause = some true → ¬ Passes (!weak) predicate

/-- Implication or refutation. -/
def Proves (refuteIt weak : Bool) (clause predicate : Option Bool) : Prop :=
  if refuteIt then Refutes weak clause predicate else Implies weak clause predicate

/-- The conclusion of a two-valued proof: that something is true or, for a refutation,
false. -/
def Concludes (refuteIt : Bool) (q : Prop) : Prop := if refuteIt then ¬ q else q

section Proves

variable {refuteIt weak : Bool} {clause predicate : Option Bool}

/-- NULL proves NULL: it implies it in both senses, and it refutes everything. -/
theorem Proves.null : Proves refuteIt weak none none := by
  cases refuteIt with
  | false => exact fun h => h
  | true => exact nofun

/-- A clause that is NULL proves everything but a weak implication. -/
theorem Proves.of_clause_null (h : refuteIt = true ∨ weak = false) :
    Proves refuteIt weak none predicate := by
  rcases h with rfl | rfl
  · exact nofun
  · cases refuteIt with
    | false => exact fun h => nomatch passes_false.mp h
    | true => exact nofun

theorem Proves.of_predicate_null : Proves refuteIt true clause none := by
  cases refuteIt with
  | false | true => exact fun _ => by simp

/-- Of truth values that are not NULL, a two-valued proof is enough. -/
theorem Proves.of_concludes (hclause : clause ≠ none) (hpredicate : predicate ≠ none)
    (h : clause = some true → Concludes refuteIt (predicate = some true)) :
    Proves refuteIt weak clause predicate := by
  cases refuteIt with
  | false =>
    intro hpass
    have htrue : clause = some true := by
      cases weak <;> cases hc : clause with
      | none => exact absurd hc hclause
      | some b => cases b <;> simp_all
    have hp : predicate = some true := h htrue
    cases weak <;> simp [hp]
  | true =>
    intro htrue
    have hp : predicate ≠ some true := h htrue
    cases weak <;> cases hc : predicate with
    | none => exact absurd hc hpredicate
    | some b => cases b <;> simp_all

end Proves

end PgCutover.Lib
