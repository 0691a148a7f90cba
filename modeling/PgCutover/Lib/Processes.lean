import Mathlib.Algebra.Order.BigOperators.Group.Finset
import Mathlib.Data.Fintype.BigOperators

/-!
# Families of processes

The states of concurrent processes are a family, and a step changes one member of it.
-/

namespace PgCutover.Lib

open Function

variable {ι ρ : Type*}

/-- A symmetric relation between any two processes, when one of them moves. -/
theorem pairwise_update [DecidableEq ι] (R : ρ → ρ → Prop) (hsymm : ∀ p q, R p q → R q p)
    {procs : ι → ρ} (h : ∀ i j, i ≠ j → R (procs i) (procs j)) {i : ι} {p : ρ}
    (hp : ∀ j ≠ i, R p (procs j)) (j k : ι) (hjk : j ≠ k) :
    R (update procs i p j) (update procs i p k) := by
  by_cases hj : j = i
  · subst hj
    rw [update_self, update_of_ne hjk.symm]
    exact hp k hjk.symm
  · rw [update_of_ne hj]
    by_cases hk : k = i
    · subst hk
      rw [update_self]
      exact hsymm _ _ (hp j hj)
    · rw [update_of_ne hk]
      exact h j k hjk

variable [Fintype ι]

/-- The sum of the weights of all processes. -/
def tally (weight : ρ → ℕ) (procs : ι → ρ) : ℕ := ∑ i, weight (procs i)

theorem weight_le_tally (weight : ρ → ℕ) (procs : ι → ρ) (i : ι) :
    weight (procs i) ≤ tally weight procs :=
  Finset.single_le_sum (f := fun j => weight (procs j)) (fun _ _ => Nat.zero_le _)
    (Finset.mem_univ i)

theorem weight_eq_zero_of_tally {weight : ρ → ℕ} {procs : ι → ρ} (h : tally weight procs = 0)
    (i : ι) : weight (procs i) = 0 :=
  Nat.le_zero.mp (h ▸ weight_le_tally weight procs i)

theorem weight_add_weight_le_tally [DecidableEq ι] (weight : ρ → ℕ) (procs : ι → ρ) {i j : ι}
    (hij : i ≠ j) : weight (procs i) + weight (procs j) ≤ tally weight procs := by
  rw [← Finset.sum_pair (f := fun k => weight (procs k)) hij]
  exact Finset.sum_le_sum_of_subset (Finset.subset_univ _)

theorem tally_eq_zero {weight : ρ → ℕ} {procs : ι → ρ} (h : ∀ i, weight (procs i) = 0) :
    tally weight procs = 0 :=
  Finset.sum_eq_zero fun i _ => h i

theorem tally_update [DecidableEq ι] (weight : ρ → ℕ) (procs : ι → ρ) (i : ι) (p : ρ) :
    tally weight (update procs i p) + weight (procs i) =
      tally weight procs + weight p := by
  unfold tally
  rw [← Finset.add_sum_erase _ _ (Finset.mem_univ i),
    ← Finset.add_sum_erase (Finset.univ) (fun j => weight (procs j)) (Finset.mem_univ i)]
  have hrest : ∑ j ∈ Finset.univ.erase i, weight (update procs i p j) =
      ∑ j ∈ Finset.univ.erase i, weight (procs j) :=
    Finset.sum_congr rfl fun j hj => by
      rw [update_of_ne (Finset.ne_of_mem_erase hj)]
  rw [hrest, update_self]
  omega

end PgCutover.Lib
