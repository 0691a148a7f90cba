import Mathlib.Order.Interval.Finset.Nat
import PgCutover.Lib.MachineNumbers

/-!
# The excerpt of a file around its matches

The lines around each match are kept. When they are too many, fewer lines around each match are
tried.
-/

namespace PgCutover.Environment

open Lib List

/-- The fewest lines before a match. -/
def minBackward : ℕ := 5

/-- The fewest lines after a match. -/
def minForward : ℕ := 15

/-- The lines of the windows around the hits. -/
def windows (hits : List ℕ) (lineCount : ℕ) (sizes : ℕ × ℕ) : Finset ℕ :=
  hits.foldl (fun set h => set ∪ Finset.Icc (h - sizes.1) (min (lineCount - 1) (h + sizes.2))) ∅

/-- `Math.floor(size * 0.8)`, with the product of two binary64 numbers, for the sizes of the loop. -/
theorem floor_mul_four_fifths {size : ℕ} (h : size ≤ 90) :
    ⌊binary64 (size * binary64 (4 / 5))⌋ = ((size * 4 / 5 : ℕ) : ℤ) := by
  have hall : ∀ size ∈ List.range 91,
      ⌊binary64 ((size : ℕ) * binary64 (4 / 5))⌋ = ((size * 4 / 5 : ℕ) : ℤ) := by
    decide +kernel
  exact hall size (List.mem_range.mpr (Nat.lt_succ_of_le h))

/-- The next sizes. -/
def shrink (sizes : ℕ × ℕ) : ℕ × ℕ :=
  (max minBackward (sizes.1 * 4 / 5), max minForward (sizes.2 * 4 / 5))

/-- The loop of `fitWindows`, from the sizes on. -/
def fitLoop (hits : List ℕ) (lineCount : ℕ) (maxLines : ℤ) (sizes : ℕ × ℕ) : Finset ℕ :=
  if (windows hits lineCount sizes).card ≤ maxLines then windows hits lineCount sizes
  else if sizes.1 ≤ minBackward ∧ sizes.2 ≤ minForward then windows hits lineCount sizes
  else fitLoop hits lineCount maxLines (shrink sizes)
termination_by (sizes.1 - minBackward) + (sizes.2 - minForward)
decreasing_by
  simp only [shrink, minBackward, minForward] at *
  omega

/-- `fitWindows`: the loop starts with 30 lines before and 90 lines after each match. -/
def fitWindows (hits : List ℕ) (lineCount : ℕ) (maxLines : ℤ) : Finset ℕ :=
  fitLoop hits lineCount maxLines (30, 90)

variable {hits : List ℕ} {lineCount : ℕ} {maxLines : ℤ}

theorem mem_windows {sizes : ℕ × ℕ} {line : ℕ} : line ∈ windows hits lineCount sizes ↔
    ∃ h ∈ hits, h - sizes.1 ≤ line ∧ line ≤ min (lineCount - 1) (h + sizes.2) := by
  have hfold (set : Finset ℕ) : line ∈ hits.foldl (fun set h => set ∪
      Finset.Icc (h - sizes.1) (min (lineCount - 1) (h + sizes.2))) set ↔
      line ∈ set ∨ ∃ h ∈ hits, h - sizes.1 ≤ line ∧ line ≤ min (lineCount - 1) (h + sizes.2) := by
    induction hits generalizing set with
    | nil => simp
    | cons h hits ih =>
      rw [foldl_cons, ih, Finset.mem_union, Finset.mem_Icc, exists_mem_cons_iff, or_assoc]
  exact (hfold ∅).trans (by simp)

/-- The loop stops at the first sizes whose windows fit, or at the smallest ones. -/
theorem fitLoop_spec (sizes : ℕ × ℕ) (hsizes : minBackward ≤ sizes.1 ∧ minForward ≤ sizes.2) :
    ∃ k, fitLoop hits lineCount maxLines sizes = windows hits lineCount (shrink^[k] sizes) ∧
      ((windows hits lineCount (shrink^[k] sizes)).card ≤ maxLines ∨
        shrink^[k] sizes = (minBackward, minForward)) ∧
      ∀ j < k, maxLines < (windows hits lineCount (shrink^[j] sizes)).card := by
  fun_induction fitLoop hits lineCount maxLines sizes with
  | case1 sizes hfits => exact ⟨0, rfl, .inl hfits, by simp⟩
  | case2 sizes hmany hmin =>
    refine ⟨0, rfl, .inr (Prod.ext ?_ ?_), by simp⟩
    · exact Nat.le_antisymm hmin.1 hsizes.1
    · exact Nat.le_antisymm hmin.2 hsizes.2
  | case3 sizes hmany hmin ih =>
    obtain ⟨k, heq, hstop, hfirst⟩ := ih ⟨le_max_left _ _, le_max_left _ _⟩
    refine ⟨k + 1, heq, hstop, fun j hj => ?_⟩
    cases j with
    | zero => exact not_le.mp hmany
    | succ j => exact hfirst j (Nat.lt_of_succ_lt_succ hj)

/-- The excerpt is the union of the windows, with the first sizes that fit or the smallest. -/
theorem fitWindows_spec (hhits : ∀ h ∈ hits, h < lineCount) :
    ∃ k sizes, shrink^[k] (30, 90) = sizes ∧
      (∀ line, line ∈ fitWindows hits lineCount maxLines ↔
        ∃ h ∈ hits, h - sizes.1 ≤ line ∧ line ≤ min (lineCount - 1) (h + sizes.2)) ∧
      (∀ line ∈ fitWindows hits lineCount maxLines, line < lineCount) ∧
      (∀ h ∈ hits, h ∈ fitWindows hits lineCount maxLines) ∧
      ((fitWindows hits lineCount maxLines).card ≤ maxLines ∨ sizes = (minBackward, minForward)) ∧
      ∀ j < k, maxLines < (windows hits lineCount (shrink^[j] (30, 90))).card := by
  obtain ⟨k, heq, hstop, hfirst⟩ :=
    @fitLoop_spec hits lineCount maxLines (30, 90) ⟨by decide, by decide⟩
  refine ⟨k, _, rfl, ?_⟩
  rw [fitWindows, heq]
  refine ⟨fun _ => mem_windows, fun line hline => ?_, fun h hh => ?_, hstop, hfirst⟩
  · obtain ⟨h, hh, -, hle⟩ := mem_windows.mp hline
    have := hhits h hh
    omega
  · have := hhits h hh
    exact mem_windows.mpr ⟨h, hh, by omega, by omega⟩

theorem fitWindows_spec_oneHit : 3 ∈ fitWindows [3] 10 5 := by
  obtain ⟨_, _, -, -, -, hhits, -⟩ := @fitWindows_spec [3] 10 5 (by decide)
  exact hhits 3 (by decide)

end PgCutover.Environment
