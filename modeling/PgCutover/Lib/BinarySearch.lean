import Mathlib.Algebra.Order.BigOperators.Group.Finset

/-!
# Binary search

`searchBound p l` is the loop of a binary search in a list of which the elements that satisfy `p`
come first.
-/

namespace PgCutover.Lib

open List

variable {α : Type*} {p : α → Bool} {l : List α}

/-- `while (high > low)`: look at the middle, and go on to the right of it or to the left. -/
def searchLoop (right : ℕ → Bool) (low high : ℕ) : ℕ :=
  if low < high then
    let mid := low + (high - low) / 2
    if right mid then searchLoop right (mid + 1) high else searchLoop right low mid
  else low
termination_by high - low

/-- The position after the last element that satisfies `p`, in a list with those in front. -/
def searchBound (p : α → Bool) (l : List α) : ℕ :=
  searchLoop (fun i => (l[i]?).any p) 0 l.length

theorem searchBound_map {β : Type*} (f : β → α) (l : List β) :
    searchBound p (l.map f) = searchBound (fun b => p (f b)) l := by
  rw [searchBound, length_map]
  congr 1
  funext i
  rw [List.getElem?_map, Option.any_map]

theorem searchLoop_spec {right : ℕ → Bool} (low high : ℕ) (hle : low ≤ high)
    (hright : ∀ i j, i ≤ j → right j = true → right i = true) :
    (low ≤ searchLoop right low high ∧ searchLoop right low high ≤ high) ∧
      (∀ i, low ≤ i → i < searchLoop right low high → right i = true) ∧
      ∀ i, searchLoop right low high ≤ i → i < high → right i = false := by
  fun_induction searchLoop right low high with
  | case1 _ high hlt mid hmid ih =>
    obtain ⟨hbounds, hbefore, hafter⟩ := ih (by omega)
    refine ⟨by omega, fun i hlow hi => ?_, hafter⟩
    -- up to the middle the answer is known from the middle
    rcases Nat.lt_or_ge mid i with hi' | hi'
    · exact hbefore i hi' hi
    · exact hright i mid hi' hmid
  | case2 _ high hlt mid hmid ih =>
    obtain ⟨hbounds, hbefore, hafter⟩ := ih (by omega)
    refine ⟨by omega, hbefore, fun i hi hhigh => ?_⟩
    rcases Nat.lt_or_ge i mid with hi' | hi'
    · exact hafter i hi hi'
    · exact Bool.eq_false_iff.mpr fun h => hmid (hright mid i hi' h)
  | case3 _ high hlt =>
    exact ⟨⟨Nat.le_refl _, hle⟩, fun i hlow hi => by omega, fun i hi hhigh => by omega⟩

section

variable (h : l.Pairwise fun a b => p b = true → p a = true)
include h

/-- The elements before the bound satisfy the predicate, those after it do not. -/
theorem searchBound_spec :
    searchBound p l ≤ l.length ∧ (∀ a ∈ l.take (searchBound p l), p a = true) ∧
      ∀ a ∈ l.drop (searchBound p l), p a = false := by
  have hmono : ∀ i j : ℕ, i ≤ j → (l[j]?).any p = true → (l[i]?).any p = true := by
    intro i j hij hj
    obtain ⟨b, hb, hpb⟩ := Option.any_eq_true _ _ |>.mp hj
    rcases Nat.eq_or_lt_of_le hij with rfl | hlt
    · exact hj
    · obtain ⟨hj', rfl⟩ := List.getElem?_eq_some_iff.mp hb
      have hi' : i < l.length := Nat.lt_trans hlt hj'
      rw [List.getElem?_eq_getElem hi']
      exact pairwise_iff_getElem.mp h i j hi' hj' hlt hpb
  obtain ⟨⟨-, hle⟩, hbefore, hafter⟩ := searchLoop_spec 0 l.length (Nat.zero_le _) hmono
  refine ⟨hle, fun a ha => ?_, fun a ha => ?_⟩
  · obtain ⟨i, hi, rfl⟩ := mem_take_iff_getElem.mp ha
    have := hbefore i (Nat.zero_le _) (Nat.lt_of_lt_of_le hi (Nat.min_le_left _ _))
    rwa [List.getElem?_eq_getElem (by omega)] at this
  · obtain ⟨i, hi, rfl⟩ := mem_drop_iff_getElem.mp ha
    have := hafter (searchBound p l + i) (Nat.le_add_right _ _) (by omega)
    rwa [List.getElem?_eq_getElem (by omega)] at this

theorem take_searchBound :
    l.take (searchBound p l) = l.filter p := by
  obtain ⟨-, hbefore, hafter⟩ := searchBound_spec h
  conv_rhs => rw [← take_append_drop (searchBound p l) l, filter_append]
  rw [filter_eq_self.mpr hbefore,
    filter_eq_nil_iff.mpr fun a ha => by simp [hafter a ha], append_nil]

theorem getElem?_searchBound_pred
    (hne : searchBound p l ≠ 0) :
    l[searchBound p l - 1]? = (l.filter p).getLast? := by
  have hle := (searchBound_spec h).1
  rw [← take_searchBound h, List.getLast?_eq_getElem?, length_take, Nat.min_eq_left hle,
    List.getElem?_take_of_lt (by omega)]

theorem filter_eq_nil_of_searchBound
    (hzero : searchBound p l = 0) : l.filter p = [] := by
  rw [← take_searchBound h, hzero, take_zero]

end

end PgCutover.Lib
