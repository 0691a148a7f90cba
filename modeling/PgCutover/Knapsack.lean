import Mathlib.Algebra.BigOperators.Group.Finset.Basic
import Mathlib.Algebra.Order.Group.Nat

/-!
# The knapsack solver

`DiscreteKnapsack` fills one array of values and one of item sets, from larger weights to smaller
ones. During the pass for an item, the entries from some weight on already count with the item and
the entries below do not (`Table`); each entry that is read is still one of the latter.
-/

namespace PgCutover.Knapsack

open Function Finset

variable {V : Type*} [AddCommMonoid V] [LinearOrder V]

/-- The two arrays, by weight limit. -/
structure Arrays (V : Type*) where
  values : ℕ → V
  sets : ℕ → Finset ℕ

/-- One round of the inner loop: item `i` in an entry for the limit `j`. -/
def Arrays.consider (i iw : ℕ) (iv : V) (j : ℕ) (a : Arrays V) : Arrays V :=
  let ow := j - iw
  if a.values j ≤ a.values ow + iv then
    { sets := update a.sets j (insert i (if j ≠ ow then a.sets ow else a.sets j))
      values := update a.values j (a.values ow + iv) }
  else a

/-- The inner loop with `k` rounds left, down to the weight of the item. -/
def Arrays.weightLoop (i iw : ℕ) (iv : V) : ℕ → Arrays V → Arrays V
  | 0, a => a
  | k + 1, a => (a.consider i iw iv (iw + k)).weightLoop i iw iv k

variable [One V]

/-- Without `item_values`, every item has the value 1. -/
def itemValue (itemValues : Option (ℕ → V)) (i : ℕ) : V :=
  match itemValues with
  | some values => values i
  | none => 1

/-- The arrays after the first `n` items. The sets start with an unused high bit. -/
def itemLoop (maxWeight numItems : ℕ) (itemWeights : ℕ → ℕ) (itemValues : Option (ℕ → V)) :
    ℕ → Arrays V
  | 0 => { values := fun _ => 0, sets := fun _ => {numItems} }
  | i + 1 => (itemLoop maxWeight numItems itemWeights itemValues i).weightLoop i (itemWeights i)
      (itemValue itemValues i) (maxWeight + 1 - itemWeights i)

/-- `DiscreteKnapsack`. -/
def discreteKnapsack (maxWeight numItems : ℕ) (itemWeights : ℕ → ℕ)
    (itemValues : Option (ℕ → V)) : Finset ℕ :=
  ((itemLoop maxWeight numItems itemWeights itemValues numItems).sets maxWeight).erase numItems

/-! ### Best choices -/

/-- A choice among the first `n` items of the greatest value for a weight limit. -/
structure Best (weight : ℕ → ℕ) (value : ℕ → V) (n limit : ℕ) (v : V) (S : Finset ℕ) : Prop where
  subset : S ⊆ range n
  weight_le : ∑ i ∈ S, weight i ≤ limit
  value_eq : ∑ i ∈ S, value i = v
  greatest : ∀ T ⊆ range n, ∑ i ∈ T, weight i ≤ limit → ∑ i ∈ T, value i ≤ v

section Best

omit [One V]

variable {weight : ℕ → ℕ} {value : ℕ → V} {n limit : ℕ} {v v' : V} {S S' : Finset ℕ}

/-- With one more item, a choice leaves it out or is a choice for what it leaves of the limit. -/
theorem Best.of_succ (hsub : S ⊆ range (n + 1)) (hweight : ∑ i ∈ S, weight i ≤ limit)
    (hvalue : ∑ i ∈ S, value i = v)
    (hwithout : ∀ T ⊆ range n, ∑ i ∈ T, weight i ≤ limit → ∑ i ∈ T, value i ≤ v)
    (hwith : weight n ≤ limit → ∀ T ⊆ range n, ∑ i ∈ T, weight i ≤ limit - weight n →
      ∑ i ∈ T, value i + value n ≤ v) : Best weight value (n + 1) limit v S := by
  refine ⟨hsub, hweight, hvalue, fun T hT hle => ?_⟩
  rw [range_add_one, subset_insert_iff] at hT
  by_cases hn : n ∈ T
  · rw [← sum_erase_add _ _ hn] at hle ⊢
    exact hwith (by omega) _ hT (by omega)
  · rw [erase_eq_of_notMem hn] at hT
    exact hwithout T hT hle

theorem Best.skip (h : Best weight value n limit v S) (hlt : limit < weight n) :
    Best weight value (n + 1) limit v S :=
  .of_succ (h.subset.trans (range_subset_range.mpr n.le_succ)) h.weight_le h.value_eq h.greatest
    fun hle => absurd hlt (Nat.not_lt.mpr hle)

variable [IsOrderedAddMonoid V]

theorem Best.keep (h : Best weight value n limit v S)
    (h' : Best weight value n (limit - weight n) v' S') (hlt : v' + value n ≤ v) :
    Best weight value (n + 1) limit v S :=
  .of_succ (h.subset.trans (range_subset_range.mpr n.le_succ)) h.weight_le h.value_eq h.greatest
    fun _ T hT hle => (add_le_add_left (h'.greatest T hT hle) _).trans hlt

theorem Best.take (h : Best weight value n limit v S)
    (h' : Best weight value n (limit - weight n) v' S') (hfits : weight n ≤ limit)
    (hle : v ≤ v' + value n) :
    Best weight value (n + 1) limit (v' + value n) (insert n S') := by
  have hn : n ∉ S' := fun hmem => absurd (h'.subset hmem) notMem_range_self
  have hweight := h'.weight_le
  refine .of_succ ?_ ?_ ?_ (fun T hT hT' => (h.greatest T hT hT').trans hle)
    fun _ T hT hT' => add_le_add_left (h'.greatest T hT hT') _
  · rw [range_add_one]
    exact insert_subset_insert n h'.subset
  · rw [sum_insert hn]
    omega
  · rw [sum_insert hn, h'.value_eq, add_comm]

end Best

/-! ### The table -/

variable [IsOrderedAddMonoid V] {maxWeight numItems : ℕ} {itemWeights : ℕ → ℕ}
  {itemValues : Option (ℕ → V)} {a : Arrays V}

/-- The entries up to the maximum weight are best choices, those from the limit `done` on with one
more item. -/
def Table (maxWeight numItems : ℕ) (itemWeights : ℕ → ℕ) (itemValues : Option (ℕ → V))
    (i done : ℕ) (a : Arrays V) : Prop :=
  ∀ w ≤ maxWeight, Best itemWeights (itemValue itemValues) (if done ≤ w then i + 1 else i) w
    (a.values w) ((a.sets w).erase numItems)

theorem Table.consider {i j : ℕ} (hi : i < numItems) (hfits : itemWeights i ≤ j)
    (hj : j ≤ maxWeight) (h : Table maxWeight numItems itemWeights itemValues i (j + 1) a) :
    Table maxWeight numItems itemWeights itemValues i j
      (a.consider i (itemWeights i) (itemValue itemValues i) j) := by
  have hold : ∀ w ≤ j, Best itemWeights (itemValue itemValues) i w (a.values w)
      ((a.sets w).erase numItems) := fun w hw => by
    have := h w (hw.trans hj)
    rwa [if_neg (by omega)] at this
  have hself := hold j le_rfl
  have hother := hold (j - itemWeights i) (Nat.sub_le ..)
  have hset : (if j ≠ j - itemWeights i then a.sets (j - itemWeights i) else a.sets j) =
      a.sets (j - itemWeights i) := by
    split_ifs with heq
    · rfl
    · rw [← not_not.mp heq]
  intro w hw
  have hdone := h w hw
  rw [Arrays.consider, hset]
  rcases eq_or_ne w j with rfl | hne
  · rw [if_pos le_rfl]
    split_ifs with hle
    · simp only [update_self]
      rw [erase_insert_of_ne hi.ne]
      exact hself.take hother hfits hle
    · exact hself.keep hother (not_le.mp hle).le
  · rw [if_congr (show j + 1 ≤ w ↔ j ≤ w by omega) rfl rfl] at hdone
    by_cases hle : a.values j ≤ a.values (j - itemWeights i) + itemValue itemValues i
    · rw [if_pos hle]
      simpa only [update_of_ne hne] using hdone
    · rwa [if_neg hle]

theorem Table.weightLoop {i k : ℕ} (hi : i < numItems) (hk : itemWeights i + k ≤ maxWeight + 1)
    (h : Table maxWeight numItems itemWeights itemValues i (itemWeights i + k) a) :
    Table maxWeight numItems itemWeights itemValues i (itemWeights i)
      (a.weightLoop i (itemWeights i) (itemValue itemValues i) k) := by
  induction k generalizing a with
  | zero => exact h
  | succ k ih => exact ih (by omega) (h.consider hi (by omega) (by omega))

/-- Every pass makes the entries best choices with one more item. -/
theorem best_itemLoop (maxWeight : ℕ) (itemWeights : ℕ → ℕ) (itemValues : Option (ℕ → V)) {n : ℕ}
    (hn : n ≤ numItems) : ∀ w ≤ maxWeight, Best itemWeights (itemValue itemValues) n w
      ((itemLoop maxWeight numItems itemWeights itemValues n).values w)
      (((itemLoop maxWeight numItems itemWeights itemValues n).sets w).erase numItems) := by
  induction n with
  | zero =>
    intro w _
    rw [itemLoop, erase_singleton]
    refine ⟨empty_subset _, Nat.zero_le _, sum_empty, fun T hT _ => ?_⟩
    rw [subset_empty.mp hT, sum_empty]
  | succ i ih =>
    intro w hw
    have hstart : Table maxWeight numItems itemWeights itemValues i
        (itemWeights i + (maxWeight + 1 - itemWeights i))
        (itemLoop maxWeight numItems itemWeights itemValues i) := fun w hw => by
      rw [if_neg (by omega)]
      exact ih (Nat.le_of_succ_le hn) w hw
    rw [itemLoop]
    by_cases hfits : itemWeights i ≤ maxWeight
    · have hend := (hstart.weightLoop hn (by omega)) w hw
      split_ifs at hend with hle
      · exact hend
      · exact hend.skip (not_le.mp hle)
    · rw [Nat.sub_eq_zero_of_le (by omega)]
      exact (ih (Nat.le_of_succ_le hn) w hw).skip (by omega)

/-- The solver returns items that stay within the maximum weight, and no such items have a greater
value. -/
theorem discreteKnapsack_optimal (maxWeight numItems : ℕ) (itemWeights : ℕ → ℕ)
    (itemValues : Option (ℕ → V)) :
    discreteKnapsack maxWeight numItems itemWeights itemValues ⊆ range numItems ∧
      ∑ i ∈ discreteKnapsack maxWeight numItems itemWeights itemValues, itemWeights i ≤
        maxWeight ∧
      ∀ T ⊆ range numItems, ∑ i ∈ T, itemWeights i ≤ maxWeight →
        ∑ i ∈ T, itemValue itemValues i ≤
          ∑ i ∈ discreteKnapsack maxWeight numItems itemWeights itemValues,
            itemValue itemValues i := by
  have h := best_itemLoop maxWeight itemWeights itemValues (le_refl numItems) maxWeight le_rfl
  exact ⟨h.subset, h.weight_le, fun T hT hle => h.value_eq ▸ h.greatest T hT hle⟩

/-- Items of the weights 2, 3 and 4: the first two are worth more than any other choice. -/
theorem discreteKnapsack_optimal_three :
    discreteKnapsack 5 3 (fun i => i + 2) (some fun i => i + 3) = {0, 1} ∧
      ∀ T ⊆ range 3, ∑ i ∈ T, (i + 2) ≤ 5 → ∑ i ∈ T, (i + 3) ≤ 7 := by
  obtain ⟨-, -, hbest⟩ := discreteKnapsack_optimal 5 3 (fun i => i + 2) (some fun i => i + 3)
  exact ⟨by decide, fun T hT hle => (hbest T hT hle).trans (by decide)⟩

end PgCutover.Knapsack
