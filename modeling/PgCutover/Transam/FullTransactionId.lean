import PgCutover.Transam.TransactionId

/-!
# Full transaction ids

A full transaction id is a number that does not wrap around; its low 32 bits are the transaction id.
-/

namespace PgCutover.Transam

/-- The lower half of a full id. -/
def xidFromFullTransactionId (full : ℕ) : TransactionId := UInt32.ofNat full

/-- The full ids that transactions can have: the low bits are not one of the permanent ids. -/
def Assignable (full : ℕ) : Prop :=
  transactionIdIsNormal (xidFromFullTransactionId full) = true

instance (full : ℕ) : Decidable (Assignable full) :=
  inferInstanceAs (Decidable (_ = true))

/-- `while (XidFromFullTransactionId(*dest) < FirstNormalTransactionId) dest->value++`. -/
def skipPermanentXids (dest : ℕ) : ℕ :=
  if dest % 2 ^ 32 < 3 then skipPermanentXids (dest + 1) else dest
termination_by 3 - dest % 2 ^ 32
decreasing_by omega

/-- `FullTransactionIdAdvance`. -/
def fullTransactionIdAdvance (dest : ℕ) : ℕ :=
  if dest + 1 < firstNormalTransactionId.toNat then dest + 1 else skipPermanentXids (dest + 1)

/-- The full id of `xid`, which is at most `2 ^ 31` away from `rel`. -/
def fullXidRelativeTo (rel : ℕ) (xid : TransactionId) : ℕ :=
  ((rel : ℤ) + (xid - xidFromFullTransactionId rel).toInt32.toInt).toNat

/-! ### Comparisons in a window -/

/-- The id is the full id modulo `2 ^ 32`. -/
theorem toNat_xidFromFullTransactionId (full : ℕ) :
    (xidFromFullTransactionId full).toNat = full % 2 ^ 32 :=
  UInt32.toNat_ofNat'

theorem assignable_iff (full : ℕ) : Assignable full ↔ 3 ≤ full % 2 ^ 32 := by
  rw [Assignable, transactionIdIsNormal, decide_eq_true_iff, ge_iff_le, UInt32.le_iff_toNat_le,
    toNat_xidFromFullTransactionId]
  rfl

/-- The signed difference of two ids is the difference of their full ids. -/
theorem toInt_xid_sub_xid {a b : ℕ} (hab : a < b + 2 ^ 31)
    (hba : b ≤ a + 2 ^ 31) :
    (xidFromFullTransactionId a - xidFromFullTransactionId b).toInt32.toInt = (a : ℤ) - b := by
  rw [xidFromFullTransactionId, xidFromFullTransactionId, Int32.toInt, UInt32.toBitVec_toInt32,
    UInt32.toBitVec_sub, BitVec.toInt_eq_toNat_cond]
  simp only [UInt32.toBitVec_ofNat', BitVec.toNat_sub, BitVec.toNat_ofNat]
  omega

section Window

variable {a b : ℕ}

/-- The comparison modulo `2 ^ 32` is that of full ids in a window of `2 ^ 31`. -/
theorem normalPrecedes_xid_iff (hab : a < b + 2 ^ 31) (hba : b ≤ a + 2 ^ 31) :
    normalTransactionIdPrecedes (xidFromFullTransactionId a) (xidFromFullTransactionId b) = true ↔
      a < b := by
  rw [normalTransactionIdPrecedes, decide_eq_true_iff, Int32.lt_iff_toInt_lt,
    toInt_xid_sub_xid hab hba, Int32.toInt_zero]
  omega

/-- `TransactionIdPrecedes` compares the full ids in a window. -/
theorem precedes_xid_iff (ha : Assignable a) (hb : Assignable b) (hab : a < b + 2 ^ 31)
    (hba : b ≤ a + 2 ^ 31) :
    transactionIdPrecedes (xidFromFullTransactionId a) (xidFromFullTransactionId b) = true ↔
      a < b := by
  rw [transactionIdPrecedes, show transactionIdIsNormal _ = true from ha,
    show transactionIdIsNormal _ = true from hb]
  exact normalPrecedes_xid_iff hab hba

theorem followsOrEquals_xid_iff (ha : Assignable a) (hb : Assignable b) (hab : a < b + 2 ^ 31)
    (hba : b ≤ a + 2 ^ 31) :
    transactionIdFollowsOrEquals (xidFromFullTransactionId a) (xidFromFullTransactionId b) = true ↔
      b ≤ a := by
  rw [transactionIdFollowsOrEquals, show transactionIdIsNormal _ = true from ha,
    show transactionIdIsNormal _ = true from hb]
  simp only [Bool.not_true, Bool.or_self, Bool.false_eq_true, if_false, decide_eq_true_iff,
    ge_iff_le, Int32.le_iff_toInt_le, toInt_xid_sub_xid hab hba, Int32.toInt_zero]
  omega

/-- In a window an id stands for one full id. -/
theorem xidFromFullTransactionId_inj (hab : a < b + 2 ^ 31) (hba : b < a + 2 ^ 31) :
    xidFromFullTransactionId a = xidFromFullTransactionId b ↔ a = b := by
  refine ⟨fun h => ?_, fun h => h ▸ rfl⟩
  have := congrArg UInt32.toNat h
  rw [toNat_xidFromFullTransactionId, toNat_xidFromFullTransactionId] at this
  omega

/-- `FullXidRelativeTo` finds the full id in a window. -/
theorem fullXidRelativeTo_xid (hab : a < b + 2 ^ 31) (hba : b ≤ a + 2 ^ 31) :
    fullXidRelativeTo b (xidFromFullTransactionId a) = a := by
  rw [fullXidRelativeTo, toInt_xid_sub_xid hab hba]
  omega

end Window

theorem xid_ne_invalid {a : ℕ} (ha : Assignable a) :
    xidFromFullTransactionId a ≠ invalidTransactionId := by
  intro h
  rw [Assignable, h] at ha
  exact absurd ha (by decide)

/-! ### The next id -/

theorem le_skipPermanentXids (dest : ℕ) : dest ≤ skipPermanentXids dest := by
  fun_induction skipPermanentXids dest with
  | case1 dest _ ih => exact le_trans (Nat.le_succ dest) ih
  | case2 => exact le_rfl

/-- Skipping ends at an id that can be given to a transaction. -/
theorem assignable_skipPermanentXids (dest : ℕ) :
    Assignable (skipPermanentXids dest) := by
  fun_induction skipPermanentXids dest with
  | case1 _ _ ih => exact ih
  | case2 dest h => exact (assignable_iff dest).2 (Nat.le_of_not_lt h)

/-- No id that a transaction can have is skipped. -/
theorem skipPermanentXids_le {dest full : ℕ} (hle : dest ≤ full)
    (h : Assignable full) : skipPermanentXids dest ≤ full := by
  fun_induction skipPermanentXids dest with
  | case1 dest hdest ih =>
    apply ih
    -- the skipped number itself is not an id
    rcases Nat.eq_or_lt_of_le hle with rfl | hlt
    · exact absurd ((assignable_iff dest).1 h) (Nat.not_le_of_lt hdest)
    · exact hlt
  | case2 => exact hle

theorem fullTransactionIdAdvance_of_assignable {full : ℕ} (h : Assignable full) :
    fullTransactionIdAdvance full = skipPermanentXids (full + 1) := by
  rw [fullTransactionIdAdvance, if_neg]
  have := (assignable_iff full).1 h
  rw [show firstNormalTransactionId.toNat = 3 from rfl]
  omega

theorem assignable_advance {full : ℕ} (h : Assignable full) :
    Assignable (fullTransactionIdAdvance full) := by
  rw [fullTransactionIdAdvance_of_assignable h]
  exact assignable_skipPermanentXids _

theorem lt_advance {full : ℕ} (h : Assignable full) :
    full < fullTransactionIdAdvance full := by
  rw [fullTransactionIdAdvance_of_assignable h]
  exact le_skipPermanentXids (full + 1)

/-- No id that can be given to a transaction is between an id and the next one. -/
theorem advance_le_iff {full other : ℕ} (h : Assignable full)
    (hother : Assignable other) : fullTransactionIdAdvance full ≤ other ↔ full < other := by
  refine ⟨fun hle => Nat.lt_of_lt_of_le (lt_advance h) hle, fun hlt => ?_⟩
  rw [fullTransactionIdAdvance_of_assignable h]
  exact skipPermanentXids_le hlt hother

theorem advance_eq {full : ℕ} (h : Assignable full) :
    fullTransactionIdAdvance full = if (full + 1) % 2 ^ 32 = 0 then full + 4 else full + 1 := by
  rw [fullTransactionIdAdvance_of_assignable h]
  rw [assignable_iff] at h
  split_ifs with hzero
  · rw [skipPermanentXids, if_pos (by omega), skipPermanentXids, if_pos (by omega),
      skipPermanentXids, if_pos (by omega), skipPermanentXids, if_neg (by omega)]
  · rw [skipPermanentXids, if_neg (by omega)]

/-- The low bits of the next full id. -/
theorem xid_advance {full : ℕ} (h : Assignable full) :
    xidFromFullTransactionId (fullTransactionIdAdvance full) =
      transactionIdAdvance (xidFromFullTransactionId full) := by
  apply UInt32.toNat_inj.1
  rw [advance_eq h, transactionIdAdvance]
  rw [assignable_iff] at h
  have hnext : (xidFromFullTransactionId full + 1).toNat = (full + 1) % 2 ^ 32 := by
    rw [UInt32.toNat_add, toNat_xidFromFullTransactionId, UInt32.toNat_one]
    omega
  simp only [UInt32.lt_iff_toNat_lt, show firstNormalTransactionId.toNat = 3 from rfl]
  -- the successor is permanent only when the low bits wrap around to zero
  split_ifs with hzero hlow hlow
  · exact (show (full + 4) % 2 ^ 32 = 3 by omega)
  · omega
  · omega
  · exact hnext.symm

/-! ### The latest of several ids -/

/-- `TransactionIdLatest` is the maximum in a window. -/
theorem transactionIdLatest_xid {base main : ℕ} {fulls : List ℕ}
    (hmain : Assignable main ∧ base ≤ main ∧ main < base + 2 ^ 31)
    (hfulls : ∀ f ∈ fulls, Assignable f ∧ base ≤ f ∧ f < base + 2 ^ 31) :
    transactionIdLatest (xidFromFullTransactionId main) (fulls.map xidFromFullTransactionId) =
        xidFromFullTransactionId (fulls.foldr max main) ∧
      Assignable (fulls.foldr max main) ∧ base ≤ fulls.foldr max main ∧
      fulls.foldr max main < base + 2 ^ 31 := by
  induction fulls with
  | nil => exact ⟨rfl, hmain⟩
  | cons f fulls ih =>
    obtain ⟨heq, ha, hbase, hlt⟩ := ih fun g hg => hfulls g (List.mem_cons_of_mem _ hg)
    obtain ⟨hf, hfbase, hflt⟩ := hfulls f List.mem_cons_self
    rw [transactionIdLatest] at heq ⊢
    rw [List.map_cons, List.foldr_cons, List.foldr_cons, heq]
    have hprec := precedes_xid_iff ha hf (by omega) (by omega)
    rcases Nat.lt_or_ge (fulls.foldr max main) f with hlater | hlater
    · rw [if_pos (hprec.2 hlater), max_eq_left (Nat.le_of_lt hlater)]
      exact ⟨rfl, hf, hfbase, hflt⟩
    · rw [if_neg (fun h => Nat.not_lt_of_ge hlater (hprec.1 h)), max_eq_right hlater]
      exact ⟨rfl, ha, hbase, hlt⟩

/-! ### The latest completed id -/

/-- `MaintainLatestCompletedXid`. -/
def maintainLatestCompletedXid (curLatest : ℕ) (latestXid : TransactionId) : ℕ :=
  if transactionIdPrecedes (xidFromFullTransactionId curLatest) latestXid then
    fullXidRelativeTo curLatest latestXid
  else curLatest

/-- A transaction ends, with its subtransactions. -/
def endTransaction (curLatest : ℕ) (xact : ℕ × List ℕ) : ℕ :=
  maintainLatestCompletedXid curLatest
    (transactionIdLatest (xidFromFullTransactionId xact.1) (xact.2.map xidFromFullTransactionId))

/-- The ids that are compared are less than `2 ^ 31` apart. -/
def InWindow (curLatest : ℕ) (xact : ℕ × List ℕ) : Prop :=
  ∃ base, ∀ f ∈ curLatest :: xact.1 :: xact.2, Assignable f ∧ base ≤ f ∧ f < base + 2 ^ 31

/-- The end of a transaction takes the maximum with all its ids. -/
theorem endTransaction_eq {cur : ℕ} {xact : ℕ × List ℕ} (h : InWindow cur xact) :
    endTransaction cur xact = max cur (xact.2.foldr max xact.1) := by
  obtain ⟨base, h⟩ := h
  rw [List.forall_mem_cons, List.forall_mem_cons] at h
  obtain ⟨⟨hcur, hbase, hlt⟩, hmain, hchildren⟩ := h
  obtain ⟨heq, ha, hbase', hlt'⟩ := transactionIdLatest_xid hmain hchildren
  have hprec := precedes_xid_iff hcur ha (by omega) (by omega)
  rw [endTransaction, heq, maintainLatestCompletedXid]
  split_ifs with hlater
  · rw [fullXidRelativeTo_xid (by omega) (by omega), max_eq_right (Nat.le_of_lt (hprec.1 hlater))]
  · rw [max_eq_left (Nat.le_of_not_lt (mt hprec.2 hlater))]

/-- Whatever the order in which transactions end, and however often the ids wrap around, the latest
completed id is the largest of those that ended. -/
theorem latestCompletedXid_eq {cur : ℕ} {xacts : List (ℕ × List ℕ)}
    (h : Lib.EveryStep endTransaction InWindow cur xacts) :
    Lib.run endTransaction cur xacts =
      xacts.foldl (fun cur xact => max cur (xact.2.foldr max xact.1)) cur := by
  induction xacts generalizing cur with
  | nil => rfl
  | cons xact xacts ih =>
    have hrest := ih h.2
    rw [endTransaction_eq h.1] at hrest
    rw [Lib.run_cons, endTransaction_eq h.1, hrest, List.foldl_cons]

theorem latestCompletedXid_eq_wraparound :
    Lib.run endTransaction (2 ^ 32 - 2) [(2 ^ 32 + 4, [2 ^ 32 + 5]), (2 ^ 32 - 1, [])] =
      2 ^ 32 + 5 :=
  latestCompletedXid_eq ⟨⟨2 ^ 32 - 2, by decide⟩, ⟨2 ^ 32 - 2, by decide⟩, trivial⟩

/-! ### Ids of a standby's feedback -/

/-- The upper half of a full id. -/
def epochFromFullTransactionId (full : ℕ) : UInt32 := UInt32.ofNat (full >>> 32)

/-- Is `xid` of `epoch` at or before the next full id, and not too far? -/
def transactionIdInRecentPast (nextFullXid : ℕ) (xid : TransactionId) (epoch : UInt32) : Bool :=
  let nextXid := xidFromFullTransactionId nextFullXid
  let nextEpoch := epochFromFullTransactionId nextFullXid
  if (if xid ≤ nextXid then epoch ≠ nextEpoch else epoch + 1 ≠ nextEpoch) then false
  else transactionIdPrecedesOrEquals xid nextXid

/-- The test is the one of the 64-bit ids, unless the successor of the epoch wraps around to that of
the next id and the xid is taken for one before it. -/
theorem inRecentPast_iff {next : ℕ} {xid : TransactionId} {epoch : UInt32} (hlt : next < 2 ^ 64)
    (hnext : Assignable next) (hxid : transactionIdIsNormal xid = true) :
    (transactionIdInRecentPast next xid epoch = true ↔
      epoch.toNat * 2 ^ 32 + xid.toNat ≤ next ∧
        next ≤ epoch.toNat * 2 ^ 32 + xid.toNat + 2 ^ 31) ↔
      ¬(epoch.toNat = 2 ^ 32 - 1 ∧ next + 2 ^ 31 ≤ xid.toNat) := by
  have hx := xid.toNat_lt
  have hlow := toNat_xidFromFullTransactionId next
  have hhigh : (epochFromFullTransactionId next).toNat = next / 2 ^ 32 := by
    rw [epochFromFullTransactionId, UInt32.toNat_ofNat', Nat.shiftRight_eq_div_pow]
    omega
  have hprec : transactionIdPrecedesOrEquals xid (xidFromFullTransactionId next) = true ↔
      (2 ^ 32 - xid.toNat + next % 2 ^ 32) % 2 ^ 32 ≤ 2 ^ 31 := by
    rw [transactionIdPrecedesOrEquals, hxid, show transactionIdIsNormal _ = true from hnext]
    simp only [Bool.not_true, Bool.or_self, Bool.false_eq_true, if_false, decide_eq_true_iff,
      Int32.le_iff_toInt_le, toInt_sub_toInt32, Int32.toInt_zero, hlow]
    omega
  have he := epoch.toNat_lt
  simp only [transactionIdInRecentPast, UInt32.le_iff_toNat_le, hlow, ne_eq, ← UInt32.toNat_inj,
    UInt32.toNat_add, UInt32.toNat_one, hhigh]
  split_ifs with hle hepoch hepoch
  · rw [hprec]
    omega
  · rw [false_iff]
    omega
  · rw [hprec]
    omega
  · rw [false_iff]
    omega

/-- An id before the last wraparound. -/
theorem inRecentPast_iff_previousEpoch :
    transactionIdInRecentPast (2 ^ 32 + 100) 4294967000 0 = true :=
  ((inRecentPast_iff (by decide) (by decide) (by decide)).mpr (by decide)).mpr (by decide)

/-- In the first epoch an id of the last one is taken for recent. -/
theorem inRecentPast_wrappedEpoch :
    transactionIdInRecentPast 100 4294967000 4294967295 = true ∧
      100 < (4294967295 : UInt32).toNat * 2 ^ 32 + (4294967000 : TransactionId).toNat := by
  decide

end PgCutover.Transam
