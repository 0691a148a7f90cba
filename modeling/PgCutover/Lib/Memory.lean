import Mathlib.Data.List.Basic
import Mathlib.Order.Monotone.Basic

/-!
# Memory, rings, bitmaps and arrays

The ways in which lists of values are stored at addresses.
-/

namespace PgCutover.Lib

/-!
## Memory

A buffer is a function from addresses to bytes. `Holds m a bytes` says that the bytes are
stored from address `a` on. Writing lists of bytes (`writeBytes`) and copying
non-overlapping blocks (`memcpy`) come with their frame rules.
-/

open Function

variable {β : Type*}

/-- Memory after the bytes are stored from an address on. -/
def writeBytes (m : ℕ → β) : ℕ → List β → ℕ → β
  | _, [] => m
  | a, b :: bytes => writeBytes (update m a b) (a + 1) bytes

/-- `memcpy` within one buffer. The blocks must not overlap. -/
def memcpy (m : ℕ → β) (dst src n : ℕ) : ℕ → β := fun a =>
  if dst ≤ a ∧ a < dst + n then m (src + (a - dst)) else m a

/-- The bytes are stored from address `a` on. -/
def Holds (m : ℕ → β) : ℕ → List β → Prop
  | _, [] => True
  | a, b :: bytes => m a = b ∧ Holds m (a + 1) bytes

variable {m m' : ℕ → β}

@[simp] theorem holds_nil (a : ℕ) : Holds m a [] := trivial

variable {a : ℕ} {bytes : List β}

@[simp] theorem holds_cons {b : β} :
    Holds m a (b :: bytes) ↔ m a = b ∧ Holds m (a + 1) bytes := Iff.rfl

theorem holds_append {bytes' : List β} :
    Holds m a (bytes ++ bytes') ↔ Holds m a bytes ∧ Holds m (a + bytes.length) bytes' := by
  induction bytes generalizing a with
  | nil => simp
  | cons b bytes ih =>
    simp only [List.cons_append, holds_cons, ih, List.length_cons, and_assoc]
    rw [show a + 1 + bytes.length = a + (bytes.length + 1) by omega]

/-- The bytes are in any memory that agrees on their addresses. -/
theorem Holds.congr (h : Holds m a bytes)
    (hm : ∀ i, a ≤ i → i < a + bytes.length → m' i = m i) : Holds m' a bytes := by
  induction bytes generalizing a with
  | nil => trivial
  | cons _ _ ih =>
    rw [List.length_cons] at hm
    obtain ⟨hb, hbytes⟩ := h
    refine ⟨by rw [hm a (Nat.le_refl a) (by omega), hb], ih hbytes fun i hle hlt => ?_⟩
    exact hm i (by omega) (by omega)

theorem Holds.getElem (h : Holds m a bytes) {i : ℕ}
    (hi : i < bytes.length) : m (a + i) = bytes[i] := by
  induction bytes generalizing a i with
  | nil => exact absurd hi (Nat.not_lt_zero i)
  | cons _ _ ih =>
    cases i with
    | zero => exact h.1
    | succ i =>
      have hrest := ih h.2 (Nat.lt_of_succ_lt_succ hi)
      rw [Nat.add_assoc, Nat.add_comm 1 i] at hrest
      exact hrest

theorem writeBytes_of_lt {i : ℕ} (bytes : List β) (hi : i < a) :
    writeBytes m a bytes i = m i := by
  induction bytes generalizing a m with
  | nil => rfl
  | cons _ _ ih =>
    rw [writeBytes, ih (by omega), update_of_ne (by omega)]

theorem writeBytes_of_le {i : ℕ} (bytes : List β) (hi : a + bytes.length ≤ i) :
    writeBytes m a bytes i = m i := by
  induction bytes generalizing a m with
  | nil => rfl
  | cons _ _ ih =>
    rw [List.length_cons] at hi
    rw [writeBytes, ih (by omega), update_of_ne (by omega)]

theorem holds_writeBytes (a : ℕ) (bytes : List β) : Holds (writeBytes m a bytes) a bytes := by
  induction bytes generalizing a m with
  | nil => trivial
  | cons b bytes ih =>
    refine ⟨?_, ih (a + 1)⟩
    rw [writeBytes, writeBytes_of_lt bytes (by omega), update_self]

/-!
## A window of a log in a ring

Entry `j` of the log is kept in cell `j % cap`.
-/

variable {α : Type*}

/-- The ring holds the entries of the log from `lo` on. -/
def RingHolds (cap : ℕ) (ring : ℕ → α) (log : List α) (lo : ℕ) : Prop :=
  ∀ j a, lo ≤ j → log[j]? = some a → ring (j % cap) = a

variable {cap lo : ℕ} {ring : ℕ → α} {log : List α}

theorem RingHolds.mono (h : RingHolds cap ring log lo) {lo' : ℕ} (hle : lo ≤ lo') :
    RingHolds cap ring log lo' :=
  fun j a hj ha => h j a (Nat.le_trans hle hj) ha

theorem RingHolds.of_length_le (h : log.length ≤ lo) : RingHolds cap ring log lo := by
  intro j a hj ha
  have hlt := (List.getElem?_eq_some_iff.1 ha).1
  omega

theorem RingHolds.of_append {log' : List α} (h : RingHolds cap ring (log ++ log') lo) :
    RingHolds cap ring log lo :=
  fun j a hj ha => h j a hj (List.getElem?_append_left (List.getElem?_eq_some_iff.1 ha).1 ▸ ha)

/-- Entries less than a whole turn apart are in different cells. -/
theorem mod_ne_of_lt {i j : ℕ} (hij : i < j) (hlt : j < i + cap) : i % cap ≠ j % cap := by
  intro h
  obtain ⟨k, rfl⟩ : ∃ k, j = i + k := ⟨j - i, by omega⟩
  have hk : 0 < k ∧ k < cap := by omega
  have hdvd : (i + k - i) % cap = 0 := Nat.sub_mod_eq_zero_of_mod_eq h.symm
  rw [Nat.add_sub_cancel_left, Nat.mod_eq_of_lt hk.2] at hdvd
  omega

/-- A new entry goes to a cell that is not in use. -/
theorem RingHolds.store (h : RingHolds cap ring log lo) (a : α) (hfit : log.length < lo + cap) :
    RingHolds cap (update ring (log.length % cap) a) (log ++ [a]) lo := by
  intro j b hj hb
  rcases Nat.lt_or_ge j log.length with hlt | hge
  · rw [List.getElem?_append_left hlt] at hb
    rw [update_of_ne (mod_ne_of_lt hlt (by omega)), h j b hj hb]
  · have hlen := (List.getElem?_eq_some_iff.1 hb).1
    rw [List.length_append, List.length_singleton] at hlen
    obtain rfl : j = log.length := by omega
    rw [List.getElem?_concat_length] at hb
    rw [update_self, Option.some.inj hb]

/-!
## Bitmaps and arrays in memory

A bitmap is an array of words, in which the bit of a number is found by division.
-/

open List

/-! ### Bitmaps -/

section Bitmap

variable {w : ℕ}

/-- Memory after a bit is set. -/
def setBit (m : ℕ → BitVec w) (n : ℕ) : ℕ → BitVec w :=
  update m (n / w) (m (n / w) ||| 1#w <<< (n % w))

/-- Memory after a bit is cleared. -/
def unsetBit (m : ℕ → BitVec w) (n : ℕ) : ℕ → BitVec w :=
  update m (n / w) (m (n / w) &&& ~~~(1#w <<< (n % w)))

/-- The test of a bit. -/
def bitIsSet (m : ℕ → BitVec w) (n : ℕ) : Bool := m (n / w) &&& 1#w <<< (n % w) ≠ 0#w

variable {m : ℕ → BitVec w} {n k : ℕ}

theorem bitIsSet_eq (hw : 0 < w) (m : ℕ → BitVec w) (n : ℕ) :
    bitIsSet m n = (m (n / w)).getLsbD (n % w) := by
  have hlt : n % w < w := Nat.mod_lt n hw
  have htwo : 1#w <<< (n % w) = BitVec.twoPow w (n % w) := rfl
  have hne : BitVec.twoPow w (n % w) ≠ 0#w := fun h => by
    have := congrArg (fun x => x.getLsbD (n % w)) h
    simp [hlt] at this
  rw [bitIsSet, htwo, BitVec.and_twoPow]
  cases (m (n / w)).getLsbD (n % w) <;> simp [hne]

/-- Two numbers have the same word and the same bit in it only if they are equal. -/
theorem eq_of_word_eq (hword : n / w = k / w) (hbit : n % w = k % w) : n = k := by
  rw [← Nat.div_add_mod n w, hword, hbit, Nat.div_add_mod]

theorem bitIsSet_setBit (hw : 0 < w) (m : ℕ → BitVec w) (n k : ℕ) :
    bitIsSet (setBit m n) k = (decide (k = n) || bitIsSet m k) := by
  rw [bitIsSet_eq hw, bitIsSet_eq hw, setBit]
  by_cases hword : k / w = n / w
  · rw [hword, update_self]
    have hlt : k % w < w := Nat.mod_lt k hw
    have hiff : k % w = n % w ↔ k = n :=
      ⟨fun h => eq_of_word_eq hword h, fun h => by rw [h]⟩
    change (_ ||| BitVec.twoPow w (n % w)).getLsbD (k % w) = _
    simp [hlt, hiff, Bool.or_comm]
  · have hne : k ≠ n := fun h => hword (by rw [h])
    simp [update_of_ne hword, hne]

theorem bitIsSet_unsetBit (hw : 0 < w) (m : ℕ → BitVec w) (n k : ℕ) :
    bitIsSet (unsetBit m n) k = (decide (k ≠ n) && bitIsSet m k) := by
  rw [bitIsSet_eq hw, bitIsSet_eq hw, unsetBit]
  by_cases hword : k / w = n / w
  · rw [hword, update_self]
    have hlt : k % w < w := Nat.mod_lt k hw
    have hiff : k % w = n % w ↔ k = n :=
      ⟨fun h => eq_of_word_eq hword h, fun h => by rw [h]⟩
    change (_ &&& ~~~BitVec.twoPow w (n % w)).getLsbD (k % w) = _
    simp [hlt, hiff, Bool.and_comm]
  · have hne : k ≠ n := fun h => hword (by rw [h])
    simp [update_of_ne hword, hne]

theorem bitIsSet_zero (n : ℕ) : bitIsSet (fun _ => 0#w) n = false := by
  simp [bitIsSet]

theorem bitIsSet_foldl_setBit (hw : 0 < w) (l : List ℕ) (m : ℕ → BitVec w) (k : ℕ) :
    bitIsSet (l.foldl setBit m) k = true ↔ k ∈ l ∨ bitIsSet m k = true := by
  induction l generalizing m with
  | nil => simp
  | cons n l ih =>
    rw [foldl_cons, ih, bitIsSet_setBit hw, Bool.or_eq_true, decide_eq_true_eq,
      mem_cons]
    tauto

theorem bitIsSet_foldl_unsetBit (hw : 0 < w) (l : List ℕ) (m : ℕ → BitVec w) (k : ℕ) :
    bitIsSet (l.foldl unsetBit m) k = true ↔ k ∉ l ∧ bitIsSet m k = true := by
  induction l generalizing m with
  | nil => simp
  | cons n l ih =>
    rw [foldl_cons, ih, bitIsSet_unsetBit hw, Bool.and_eq_true, decide_eq_true_eq,
      mem_cons]
    tauto

end Bitmap

/-! ### Arrays -/

section Arrays

variable {α : Type*}

/-- The elements of an array that are in use. -/
def inUse (a : ℕ → α) (n : ℕ) : List α := (List.range n).map a

theorem inUse_succ (a : ℕ → α) (n : ℕ) : inUse a (n + 1) = inUse a n ++ [a n] := by
  rw [inUse, range_succ, map_append]
  rfl

theorem inUse_congr {a b : ℕ → α} {n : ℕ} (h : ∀ i < n, a i = b i) : inUse a n = inUse b n :=
  map_congr_left fun i hi => h i (mem_range.mp hi)

/-- Writing behind the elements in use adds one. -/
theorem inUse_update (a : ℕ → α) (n : ℕ) (x : α) :
    inUse (update a n x) (n + 1) = inUse a n ++ [x] := by
  rw [inUse_succ, update_self]
  congr 1
  exact inUse_congr fun i hi => update_of_ne (Nat.ne_of_lt hi) _ _

/-- The loop that moves the elements with a property to the front, over the first `n` elements:
the array and the number of elements kept. -/
def filterInPlace (p : α → Bool) (a : ℕ → α) : ℕ → (ℕ → α) × ℕ
  | 0 => (a, 0)
  | n + 1 =>
    let kept := filterInPlace p a n
    if p (kept.1 n) then (update kept.1 kept.2 (kept.1 n), kept.2 + 1) else kept

/-- The loop keeps the elements with the property, and what it has not come to is unchanged. -/
theorem filterInPlace_spec (p : α → Bool) (a : ℕ → α) (n : ℕ) :
    (filterInPlace p a n).2 ≤ n ∧
      inUse (filterInPlace p a n).1 (filterInPlace p a n).2 = (inUse a n).filter p ∧
      ∀ i, n ≤ i → (filterInPlace p a n).1 i = a i := by
  induction n with
  | zero => exact ⟨Nat.le_refl _, rfl, fun _ _ => rfl⟩
  | succ n ih =>
    obtain ⟨hle, hkept, hrest⟩ := ih
    rw [filterInPlace, inUse_succ, filter_append, ← hkept]
    rw [hrest n (Nat.le_refl n)]
    cases hp : p (a n) with
    | true =>
      rw [if_pos rfl, inUse_update, filter_cons_of_pos hp]
      refine ⟨Nat.succ_le_succ hle, rfl, fun i hi => ?_⟩
      exact (update_of_ne (by omega) _ _).trans (hrest i (by omega))
    | false =>
      rw [if_neg Bool.false_ne_true, filter_cons_of_neg (by simp [hp]), filter_nil,
        append_nil]
      exact ⟨Nat.le_succ_of_le hle, rfl, fun i hi => hrest i (by omega)⟩

end Arrays

end PgCutover.Lib
