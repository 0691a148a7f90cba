import Mathlib.Data.List.TakeWhile
import PgCutover.Lib.Runs

/-!
# Transaction ids

Transaction ids are 32-bit numbers that wrap around. The first three are permanent; normal ids are
compared modulo `2 ^ 32`.
-/

namespace PgCutover.Transam

/-- `TransactionId`. -/
abbrev TransactionId := UInt32

/-- `InvalidTransactionId`. -/
def invalidTransactionId : TransactionId := 0

/-- `BootstrapTransactionId`. -/
def bootstrapTransactionId : TransactionId := 1

/-- `FrozenTransactionId`. -/
def frozenTransactionId : TransactionId := 2

/-- The first id that is given to a transaction. -/
def firstNormalTransactionId : TransactionId := 3

/-- `TransactionIdIsValid`. -/
def transactionIdIsValid (xid : TransactionId) : Bool := xid ≠ invalidTransactionId

/-- `TransactionIdIsNormal`. -/
def transactionIdIsNormal (xid : TransactionId) : Bool := xid ≥ firstNormalTransactionId

/-- `TransactionIdPrecedes`: normal ids are compared modulo `2 ^ 32`. -/
def transactionIdPrecedes (id1 id2 : TransactionId) : Bool :=
  if !transactionIdIsNormal id1 || !transactionIdIsNormal id2 then id1 < id2
  else (id1 - id2).toInt32 < 0

/-- `TransactionIdPrecedesOrEquals`. -/
def transactionIdPrecedesOrEquals (id1 id2 : TransactionId) : Bool :=
  if !transactionIdIsNormal id1 || !transactionIdIsNormal id2 then id1 ≤ id2
  else (id1 - id2).toInt32 ≤ 0

/-- `TransactionIdFollowsOrEquals`. -/
def transactionIdFollowsOrEquals (id1 id2 : TransactionId) : Bool :=
  if !transactionIdIsNormal id1 || !transactionIdIsNormal id2 then id1 ≥ id2
  else (id1 - id2).toInt32 ≥ 0

/-- The comparison of two ids already known to be normal. -/
def normalTransactionIdPrecedes (id1 id2 : TransactionId) : Bool :=
  (id1 - id2).toInt32 < 0

/-- The next id, past the permanent ones. -/
def transactionIdAdvance (xid : TransactionId) : TransactionId :=
  if xid + 1 < firstNormalTransactionId then firstNormalTransactionId else xid + 1

/-- The latest id among a transaction and its children, from the last child to the first. -/
def transactionIdLatest (mainxid : TransactionId) (xids : List TransactionId) : TransactionId :=
  xids.foldr (fun xid result => if transactionIdPrecedes result xid then xid else result) mainxid

theorem isValid_of_isNormal {xid : TransactionId} (h : transactionIdIsNormal xid = true) :
    transactionIdIsValid xid = true := by
  rw [transactionIdIsValid, decide_eq_true_iff]
  rintro rfl
  exact absurd h (by decide)

/-- The signed difference of two ids in terms of the numbers. -/
theorem toInt_sub_toInt32 (id1 id2 : TransactionId) :
    (id1 - id2).toInt32.toInt =
      if 2 * ((2 ^ 32 - id2.toNat + id1.toNat) % 2 ^ 32) < 2 ^ 32 then
        (((2 ^ 32 - id2.toNat + id1.toNat) % 2 ^ 32 : ℕ) : ℤ)
      else (((2 ^ 32 - id2.toNat + id1.toNat) % 2 ^ 32 : ℕ) : ℤ) - 2 ^ 32 := by
  rfl

/-- Two ids are always comparable. -/
theorem precedes_of_not_precedesOrEquals {id1 id2 : TransactionId}
    (h : transactionIdPrecedesOrEquals id1 id2 = false) : transactionIdPrecedes id2 id1 = true := by
  rw [transactionIdPrecedesOrEquals] at h
  rw [transactionIdPrecedes, Bool.or_comm]
  split_ifs at h ⊢ with hnormal
  · simpa using h
  · have h1 := id1.toNat_lt
    have h2 := id2.toNat_lt
    rw [decide_eq_false_iff_not, Int32.le_iff_toInt_le, toInt_sub_toInt32, Int32.toInt_zero] at h
    rw [decide_eq_true_iff, Int32.lt_iff_toInt_lt, toInt_sub_toInt32, Int32.toInt_zero]
    omega

theorem not_precedes_of_not_precedesOrEquals {id1 id2 : TransactionId}
    (h : transactionIdPrecedesOrEquals id1 id2 = false) :
    transactionIdPrecedes id1 id2 = false := by
  rw [transactionIdPrecedesOrEquals] at h
  rw [transactionIdPrecedes]
  split_ifs at h ⊢ with hnormal
  · rw [decide_eq_false_iff_not, UInt32.le_iff_toNat_le] at h
    rw [decide_eq_false_iff_not, UInt32.lt_iff_toNat_lt]
    omega
  · rw [decide_eq_false_iff_not, Int32.le_iff_toInt_le] at h
    rw [decide_eq_false_iff_not, Int32.lt_iff_toInt_lt]
    omega

theorem not_precedes_self (id : TransactionId) : transactionIdPrecedes id id = false := by
  rw [transactionIdPrecedes]
  split_ifs
  · simp
  · simp

end PgCutover.Transam
