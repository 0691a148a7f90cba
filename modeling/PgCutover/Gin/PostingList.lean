import Mathlib.Data.List.Chain
import Mathlib.Data.List.Sort

/-!
# Merging lists of item pointers

A posting list of an inverted index has the item pointers of the rows with a key, in the order of
block and offset. Two of them are appended when one ends before the other begins, else merged.
-/

namespace PgCutover.Gin

open List

/-- The place of a heap tuple: its block and its offset there. -/
@[ext] structure ItemPointer where
  blkno : UInt32
  offset : UInt16
deriving DecidableEq, Repr

namespace ItemPointer

/-- The number by which item pointers are compared. -/
def key (p : ItemPointer) : ℕ := p.blkno.toNat <<< 32 ||| p.offset.toNat

theorem key_injective : Function.Injective key := by
  intro p q h
  have hp := p.offset.toNat_lt
  have hq := q.offset.toNat_lt
  rw [key, key, ← Nat.shiftLeft_add_eq_or_of_lt (by omega),
    ← Nat.shiftLeft_add_eq_or_of_lt (by omega), Nat.shiftLeft_eq, Nat.shiftLeft_eq] at h
  exact ItemPointer.ext (UInt32.toNat_inj.mp (by omega)) (UInt16.toNat_inj.mp (by omega))

/-- The order of the places in the heap. -/
def Before (p q : ItemPointer) : Prop := p.key < q.key

instance : IsTrans ItemPointer Before := ⟨fun _ _ _ => Nat.lt_trans⟩

end ItemPointer

open ItemPointer

/-- `ginCompareItemPointers`. -/
def ginCompareItemPointers (a b : ItemPointer) : Ordering := compare a.key b.key

/-- `na == 0 || nb == 0 || ginCompareItemPointers(&a[na - 1], &b[0]) < 0`. -/
def endsBefore (a b : List ItemPointer) : Bool :=
  ∀ x ∈ a.getLast?, ∀ y ∈ b.head?, ginCompareItemPointers x y = .lt

/-- The loop over both arrays, and then those that copy what is left of one. -/
def mergeLoop : List ItemPointer → List ItemPointer → List ItemPointer
  | x :: a, y :: b =>
    if ginCompareItemPointers x y = .gt then y :: mergeLoop (x :: a) b
    -- only keep one copy of the identical items
    else if ginCompareItemPointers x y = .eq then y :: mergeLoop a b
    else x :: mergeLoop a (y :: b)
  | a, b => a ++ b
termination_by a b => a.length + b.length

/-- The merged items and `*nmerged`. -/
def ginMergeItemPointers (a b : List ItemPointer) : List ItemPointer × ℕ :=
  if endsBefore a b then (a ++ b, a.length + b.length)
  else if endsBefore b a then (b ++ a, a.length + b.length)
  else
    let dst := mergeLoop a b
    (dst, dst.length)

variable {a b : List ItemPointer}

theorem mem_mergeLoop (p : ItemPointer) : p ∈ mergeLoop a b ↔ p ∈ a ∨ p ∈ b := by
  fun_induction mergeLoop a b with
  | case1 x a y b hgt ih =>
    simp only [mem_cons, ih]
    tauto
  | case2 x a y b _ heq ih =>
    obtain rfl := key_injective (compare_eq_iff_eq.mp heq)
    simp only [mem_cons, ih]
    tauto
  | case3 x a y b hgt heq ih =>
    simp only [mem_cons, ih]
    tauto
  | case4 => exact mem_append

theorem before_of_mem {x y p : ItemPointer} (hy : (y :: b).Pairwise Before) (h : Before x y)
    (hp : p ∈ y :: b) : Before x p := by
  rcases mem_cons.mp hp with rfl | hp
  · exact h
  · exact Nat.lt_trans h (rel_of_pairwise_cons hy hp)

theorem pairwise_mergeLoop (ha : a.Pairwise Before) (hb : b.Pairwise Before) :
    (mergeLoop a b).Pairwise Before := by
  fun_induction mergeLoop a b with
  | case1 x a y b hgt ih =>
    refine pairwise_cons.mpr ⟨fun p hp => ?_, ih ha hb.of_cons⟩
    rcases (mem_mergeLoop p).mp hp with hp | hp
    · exact before_of_mem ha (compare_gt_iff_gt.mp hgt) hp
    · exact rel_of_pairwise_cons hb hp
  | case2 x a y b _ heq ih =>
    obtain rfl := key_injective (compare_eq_iff_eq.mp heq)
    refine pairwise_cons.mpr ⟨fun p hp => ?_, ih ha.of_cons hb.of_cons⟩
    rcases (mem_mergeLoop p).mp hp with hp | hp
    · exact rel_of_pairwise_cons ha hp
    · exact rel_of_pairwise_cons hb hp
  | case3 x a y b hgt heq ih =>
    refine pairwise_cons.mpr ⟨fun p hp => ?_, ih ha.of_cons hb⟩
    rcases (mem_mergeLoop p).mp hp with hp | hp
    · exact rel_of_pairwise_cons ha hp
    · exact before_of_mem hb (Nat.lt_of_le_of_ne (Nat.le_of_not_lt (mt compare_gt_iff_gt.mpr hgt))
        (mt compare_eq_iff_eq.mpr heq)) hp
  | case4 a b h =>
    -- one of the two is used up
    match a, b with
    | [], _ => exact hb
    | _, [] => simpa using ha
    | x :: a, y :: b => exact (h x a y b rfl rfl).elim

theorem pairwise_append_of_endsBefore (h : endsBefore a b = true) (ha : a.Pairwise Before)
    (hb : b.Pairwise Before) : (a ++ b).Pairwise Before := by
  rw [← isChain_iff_pairwise] at *
  refine isChain_append.mpr ⟨ha, hb, fun x hx y hy => ?_⟩
  exact compare_lt_iff_lt.mp (of_decide_eq_true h x hx y hy)

/-- The merge is the sorted union without duplicates, and `*nmerged` its length. -/
theorem ginMergeItemPointers_union (ha : a.Pairwise Before) (hb : b.Pairwise Before) :
    (ginMergeItemPointers a b).1.Pairwise Before ∧
      (∀ p, p ∈ (ginMergeItemPointers a b).1 ↔ p ∈ a ∨ p ∈ b) ∧
      (ginMergeItemPointers a b).2 = (ginMergeItemPointers a b).1.length := by
  rw [ginMergeItemPointers]
  split_ifs with h h'
  · exact ⟨pairwise_append_of_endsBefore h ha hb, fun p => mem_append, length_append.symm⟩
  · refine ⟨pairwise_append_of_endsBefore h' hb ha, fun p => ?_, ?_⟩
    · rw [mem_append, or_comm]
    · rw [length_append, Nat.add_comm]
  · exact ⟨pairwise_mergeLoop ha hb, mem_mergeLoop, rfl⟩

theorem ginMergeItemPointers_union_overlap :
    (ginMergeItemPointers [⟨0, 1⟩, ⟨0, 3⟩] [⟨0, 1⟩, ⟨0, 2⟩]).1.Pairwise Before :=
  (ginMergeItemPointers_union (by simp [Before, key]) (by simp [Before, key])).1

/-! ### Batches of items -/

/-- The items of a leaf tuple after batches were added to it one after the other. -/
def addBatches (oldItems : List ItemPointer) (batches : List (List ItemPointer)) :
    List ItemPointer :=
  batches.foldl (fun oldItems items => (ginMergeItemPointers items oldItems).1) oldItems

instance : Std.Irrefl Before := ⟨fun _ => Nat.lt_irrefl _⟩

instance : Std.Antisymm Before := ⟨fun _ _ h h' => absurd h (Nat.lt_asymm h')⟩

/-- Where an array is appended, the loop would have given the same. -/
theorem ginMergeItemPointers_fst (ha : a.Pairwise Before) (hb : b.Pairwise Before) :
    (ginMergeItemPointers a b).1 = mergeLoop a b := by
  have hloop := pairwise_mergeLoop ha hb
  rw [ginMergeItemPointers]
  split_ifs with h h'
  · refine (pairwise_append_of_endsBefore h ha hb).eq_of_mem_iff hloop fun p => ?_
    rw [mem_append, mem_mergeLoop]
  · refine (pairwise_append_of_endsBefore h' hb ha).eq_of_mem_iff hloop fun p => ?_
    rw [mem_append, mem_mergeLoop, or_comm]
  · rfl

theorem addBatches_spec {batches : List (List ItemPointer)} (ha : a.Pairwise Before)
    (h : ∀ items ∈ batches, items.Pairwise Before) :
    (addBatches a batches).Pairwise Before ∧
      ∀ p, p ∈ addBatches a batches ↔ p ∈ a ∨ p ∈ batches.flatten := by
  induction batches generalizing a with
  | nil => simp [addBatches, ha]
  | cons items batches ih =>
    rw [forall_mem_cons] at h
    have hmerge := ginMergeItemPointers_fst h.1 ha
    obtain ⟨hsorted, hmem⟩ := ih (hmerge ▸ pairwise_mergeLoop h.1 ha) h.2
    refine ⟨hsorted, fun p => (hmem p).trans ?_⟩
    rw [hmerge, mem_mergeLoop, flatten_cons, mem_append]
    tauto

/-- Neither the order of the batches nor the way in which the items are divided into them matters.
-/
theorem addBatches_eq {batches batches' : List (List ItemPointer)}
    (h : ∀ items ∈ batches, items.Pairwise Before) (h' : ∀ items ∈ batches', items.Pairwise Before)
    (hsame : ∀ p, p ∈ batches.flatten ↔ p ∈ batches'.flatten) :
    addBatches [] batches = addBatches [] batches' := by
  obtain ⟨hsorted, hmem⟩ := addBatches_spec Pairwise.nil h
  obtain ⟨hsorted', hmem'⟩ := addBatches_spec Pairwise.nil h'
  refine hsorted.eq_of_mem_iff hsorted' fun p => ?_
  rw [hmem, hmem', hsame]

theorem addBatches_eq_overlapping :
    addBatches [] [[⟨0, 2⟩], [⟨0, 1⟩, ⟨0, 3⟩], [⟨0, 3⟩]] =
    addBatches [] [[⟨0, 1⟩, ⟨0, 2⟩, ⟨0, 3⟩]] :=
  addBatches_eq (by simp [Before, key]) (by simp [Before, key]) (by simp; tauto)

end PgCutover.Gin
