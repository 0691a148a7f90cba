import Mathlib.Algebra.Order.Group.Nat
import Mathlib.Data.List.Nodup

/-!
# Allocation of numbers in blocks

Clients issue numbers from blocks of consecutive ones that they take from a common
counter. A block may be given up before it is used up, and a restart gives all blocks up
and may move the counter ahead. Numbers are lost that way but never issued twice, and
each client issues larger and larger ones (`Allocator.Sound`).
-/

namespace PgCutover.Lib

open Function List

/-- The numbers below `next` are allocated. The numbers from `lo i` on and below `hi i` are
left in the block of client `i`. `issued` is newest first. -/
structure Allocator (ι : Type*) where
  next : ℕ := 0
  lo : ι → ℕ := fun _ => 0
  hi : ι → ℕ := fun _ => 0
  issued : List (ι × ℕ) := []

namespace Allocator

variable {ι : Type*} [DecidableEq ι]

/-- Issue the next number of the client's block. -/
def issue (a : Allocator ι) (i : ι) : Allocator ι :=
  { a with
    lo := update a.lo i (a.lo i + 1)
    issued := (i, a.lo i) :: a.issued }

/-- Take a new block, of one number and `n` more, and issue its first number. -/
def refill (a : Allocator ι) (i : ι) (n : ℕ) : Allocator ι where
  next := a.next + 1 + n
  lo := update a.lo i (a.next + 1)
  hi := update a.hi i (a.next + 1 + n)
  issued := (i, a.next) :: a.issued

/-- Give up a block. -/
def discard (a : Allocator ι) (i : ι) : Allocator ι :=
  { a with
    lo := update a.lo i 0
    hi := update a.hi i 0 }

omit [DecidableEq ι] in
/-- Give up all blocks and move the counter. -/
def restart (a : Allocator ι) (next : ℕ) : Allocator ι :=
  { next := next, issued := a.issued }

/-- A number is left in the block of a client. -/
def Holds (a : Allocator ι) (i : ι) (x : ℕ) : Prop := a.lo i ≤ x ∧ x < a.hi i

/-- No number is issued twice, and each client issues larger and larger numbers. -/
structure Sound (a : Allocator ι) : Prop where
  held : ∀ i, a.hi i ≤ a.next
  apart : ∀ i j x, a.Holds i x → a.Holds j x → i = j
  below : ∀ p ∈ a.issued, p.2 < a.next
  free : ∀ p ∈ a.issued, ∀ j, ¬ a.Holds j p.2
  behind : ∀ p ∈ a.issued, a.lo p.1 < a.hi p.1 → p.2 < a.lo p.1
  nodup : (a.issued.map Prod.snd).Nodup
  increasing : a.issued.Pairwise fun p q => p.1 = q.1 → q.2 < p.2

namespace Sound

variable {a : Allocator ι}

omit [DecidableEq ι] in
theorem init : Sound ({} : Allocator ι) where
  held _ := le_rfl
  apart _ _ x h := absurd h.2 (Nat.not_lt_zero x)
  below := by simp
  free := by simp
  behind := by simp
  nodup := nodup_nil
  increasing := List.Pairwise.nil

omit [DecidableEq ι] in
theorem restart (h : a.Sound) {next : ℕ} (hnext : a.next ≤ next) : (a.restart next).Sound where
  held _ := Nat.zero_le _
  apart _ _ x hx := absurd hx.2 (Nat.not_lt_zero x)
  below p hp := (h.below p hp).trans_le hnext
  free _ _ _ hx := absurd hx.2 (Nat.not_lt_zero _)
  behind _ _ hlt := absurd hlt (Nat.not_lt_zero _)
  nodup := h.nodup
  increasing := h.increasing

/-- What is left after giving up a block was left before. -/
theorem holds_of_discard {i j : ι} {x : ℕ} (h : (a.discard i).Holds j x) : a.Holds j x := by
  unfold Holds discard at h
  by_cases hj : j = i
  · subst hj
    simp at h
  · simpa [Holds, hj] using h

theorem discard (h : a.Sound) (i : ι) : (a.discard i).Sound where
  held j := by
    by_cases hj : j = i
    · subst hj
      simp [Allocator.discard]
    · simpa [Allocator.discard, hj] using h.held j
  apart j k x hj hk := h.apart j k x (holds_of_discard hj) (holds_of_discard hk)
  below := h.below
  free p hp j hx := h.free p hp j (holds_of_discard hx)
  behind p hp hlt := by
    by_cases hi : p.1 = i
    · simp [Allocator.discard, hi] at hlt
    · simp only [Allocator.discard, update_of_ne hi] at hlt ⊢
      exact h.behind p hp hlt
  nodup := h.nodup
  increasing := h.increasing

theorem holds_of_issue {i j : ι} {x : ℕ} (h : (a.issue i).Holds j x) :
    a.Holds j x ∧ (j = i → a.lo i < x) := by
  unfold Holds issue at h
  by_cases hj : j = i
  · subst hj
    simp only [update_self] at h
    exact ⟨⟨by omega, h.2⟩, fun _ => by omega⟩
  · simp only [update_of_ne hj] at h
    exact ⟨h, fun heq => absurd heq hj⟩

theorem issue (h : a.Sound) {i : ι} (hi : a.lo i < a.hi i) : (a.issue i).Sound where
  held := h.held
  apart j k x hj hk := h.apart j k x (holds_of_issue hj).1 (holds_of_issue hk).1
  below p hp := by
    rcases mem_cons.mp hp with rfl | hp
    · exact hi.trans_le (h.held i)
    · exact h.below p hp
  free p hp j hx := by
    obtain ⟨hold, hnew⟩ := holds_of_issue hx
    rcases mem_cons.mp hp with rfl | hp
    · -- the number was left to this client only, and is not left any more
      have hij : j = i := h.apart j i _ hold ⟨le_rfl, hi⟩
      exact lt_irrefl _ (hnew hij)
    · exact h.free p hp j hold
  behind p hp hlt := by
    rcases mem_cons.mp hp with rfl | hp
    · simp [Allocator.issue]
    · by_cases hpi : p.1 = i
      · simp only [Allocator.issue, hpi, update_self] at hlt ⊢
        have := h.behind p hp (hpi ▸ hi)
        rw [hpi] at this
        omega
      · simp only [Allocator.issue, update_of_ne hpi] at hlt ⊢
        exact h.behind p hp hlt
  nodup := by
    refine nodup_cons.mpr ⟨?_, h.nodup⟩
    intro hmem
    obtain ⟨p, hp, heq⟩ := mem_map.mp hmem
    exact h.free p hp i (heq ▸ ⟨le_rfl, hi⟩)
  increasing := by
    refine pairwise_cons.mpr ⟨?_, h.increasing⟩
    rintro p hp rfl
    exact h.behind p hp hi

/-- What is left after taking a block is in the new block, or was left before to another
client. -/
theorem holds_of_refill {i j : ι} {n x : ℕ} (h : (a.refill i n).Holds j x) :
    j = i ∧ a.next < x ∨ j ≠ i ∧ a.Holds j x := by
  unfold Holds refill at h
  by_cases hj : j = i
  · subst hj
    simp only [update_self] at h
    exact Or.inl ⟨rfl, by omega⟩
  · simp only [update_of_ne hj] at h
    exact Or.inr ⟨hj, h⟩

theorem refill (h : a.Sound) (i : ι) (n : ℕ) : (a.refill i n).Sound where
  held j := by
    by_cases hj : j = i
    · subst hj
      simp [Allocator.refill]
    · simp only [Allocator.refill, update_of_ne hj]
      have := h.held j
      omega
  apart j k x hj hk := by
    have hbelow : ∀ l, a.Holds l x → x < a.next := fun l hl => hl.2.trans_le (h.held l)
    rcases holds_of_refill hj with ⟨rfl, hlt⟩ | ⟨-, hold⟩ <;>
      rcases holds_of_refill hk with ⟨rfl, hlt'⟩ | ⟨-, hold'⟩
    · rfl
    · exact absurd (hbelow k hold') (by omega)
    · exact absurd (hbelow j hold) (by omega)
    · exact h.apart j k x hold hold'
  below p hp := by
    change p.2 < a.next + 1 + n
    rcases mem_cons.mp hp with rfl | hp
    · omega
    · have := h.below p hp
      omega
  free p hp j hx := by
    rcases mem_cons.mp hp with rfl | hp
    · rcases holds_of_refill hx with ⟨-, hlt⟩ | ⟨-, hold⟩
      · exact lt_irrefl _ hlt
      · exact absurd (hold.2.trans_le (h.held j)) (lt_irrefl _)
    · rcases holds_of_refill hx with ⟨-, hlt⟩ | ⟨-, hold⟩
      · have := h.below p hp
        omega
      · exact h.free p hp j hold
  behind p hp hlt := by
    rcases mem_cons.mp hp with rfl | hp
    · simp [Allocator.refill]
    · by_cases hpi : p.1 = i
      · simp only [Allocator.refill, hpi, update_self]
        have := h.below p hp
        omega
      · simp only [Allocator.refill, update_of_ne hpi] at hlt ⊢
        exact h.behind p hp hlt
  nodup := by
    refine nodup_cons.mpr ⟨?_, h.nodup⟩
    intro hmem
    obtain ⟨p, hp, heq⟩ := mem_map.mp hmem
    exact absurd (h.below p hp) (by omega)
  increasing := by
    refine pairwise_cons.mpr ⟨?_, h.increasing⟩
    exact fun p hp _ => h.below p hp

end Sound

end Allocator

end PgCutover.Lib
