import PgCutover.Transam.FullTransactionId

/-!
# The commit log

The commit log has two bits for each transaction.
-/

namespace PgCutover.Transam

open Function List

/-! ### Status bits -/

/-- The status of a transaction in the commit log. -/
inductive XidStatus
  | inProgress
  | committed
  | aborted
  | subCommitted
  deriving DecidableEq, Repr

namespace XidStatus

/-- The two bits of a status. -/
def code : XidStatus → UInt8
  | inProgress => 0
  | committed => 1
  | aborted => 2
  | subCommitted => 3

/-- The status of two bits. -/
def ofCode (b : UInt8) : XidStatus :=
  if b = 0 then inProgress else if b = 1 then committed else if b = 2 then aborted else subCommitted

/-- The two bits say what the status is. -/
theorem ofCode_code (status : XidStatus) : ofCode status.code = status := by
  cases status <;> decide

end XidStatus

/-- `BLCKSZ`. -/
def blcksz : ℕ := 8192

/-- `CLOG_XACTS_PER_BYTE`. -/
def clogXactsPerByte : ℕ := 4

/-- `CLOG_XACTS_PER_PAGE`. -/
def clogXactsPerPage : ℕ := blcksz * clogXactsPerByte

/-- `CLOG_XACT_BITMASK`. -/
def clogXactBitmask : UInt8 := 3

/-- `TransactionIdToPage`. -/
def transactionIdToPage (xid : TransactionId) : ℕ := xid.toNat / clogXactsPerPage

/-- `TransactionIdToByte`. -/
def transactionIdToByte (xid : TransactionId) : ℕ :=
  xid.toNat % clogXactsPerPage / clogXactsPerByte

/-- `TransactionIdToBIndex`. -/
def transactionIdToBIndex (xid : TransactionId) : ℕ := xid.toNat % clogXactsPerByte

/-- The shift of the bits of a transaction in its byte. -/
def bshift (xid : TransactionId) : UInt8 := UInt8.ofNat (transactionIdToBIndex xid * 2)

/-- The bytes of the pages. -/
abbrev Clog := ℕ → ℕ → UInt8

/-- `TransactionIdGetStatus`. -/
def transactionIdGetStatus (clog : Clog) (xid : TransactionId) : XidStatus :=
  let byteval := clog (transactionIdToPage xid) (transactionIdToByte xid)
  XidStatus.ofCode ((byteval >>> bshift xid) &&& clogXactBitmask)

/-- The log after a byte is stored. -/
def Clog.write (clog : Clog) (page byteno : ℕ) (byteval : UInt8) : Clog :=
  update clog page (update (clog page) byteno byteval)

/-- `TransactionIdSetStatusBit`. -/
def transactionIdSetStatusBit (inRecovery : Bool) (clog : Clog) (xid : TransactionId)
    (status : XidStatus) : Clog :=
  -- during recovery some transactions are already marked correctly
  if inRecovery ∧ status = .subCommitted ∧ transactionIdGetStatus clog xid = .committed then clog
  else
    let byteval := clog (transactionIdToPage xid) (transactionIdToByte xid)
    clog.write (transactionIdToPage xid) (transactionIdToByte xid)
      ((byteval &&& ~~~(clogXactBitmask <<< bshift xid)) ||| (status.code <<< bshift xid))

/-! ### The writes for a tree -/

/-- A call of `transactionIdSetStatusBit`. -/
abbrev StatusWrite := TransactionId × XidStatus

/-- The writes to one page. The transaction may be invalid, then there are only subtransactions. -/
def transactionIdSetPageStatusInternal (xid : TransactionId) (subxids : List TransactionId)
    (status : XidStatus) : List StatusWrite :=
  (if transactionIdIsValid xid then
    -- subtransactions first, if needed, then the main transaction
    (if status = .committed then subxids.map fun subxid => (subxid, XidStatus.subCommitted)
      else []) ++ [(xid, status)]
  else []) ++ subxids.map fun subxid => (subxid, status)

/-- The status of both is on one page of the log. -/
def samePage (xid x : TransactionId) : Bool := transactionIdToPage x = transactionIdToPage xid

/-- The writes for subtransactions that are not on the page of the top-level transaction, one
page after the other. -/
def setStatusByPages (subxids : List TransactionId) (status : XidStatus) : List StatusWrite :=
  match subxids with
  | [] => []
  | subxid :: rest =>
    transactionIdSetPageStatusInternal invalidTransactionId
        (subxid :: rest.takeWhile (samePage subxid)) status ++
      setStatusByPages (rest.dropWhile (samePage subxid)) status
termination_by subxids.length
decreasing_by
  exact Nat.lt_succ_of_le (dropWhile_sublist _).length_le

/-- `TransactionIdSetTreeStatus`. -/
def transactionIdSetTreeStatus (xid : TransactionId) (subxids : List TransactionId)
    (status : XidStatus) : List StatusWrite :=
  let first := subxids.takeWhile (samePage xid)
  let rest := subxids.dropWhile (samePage xid)
  if rest = [] then
    -- all items fit on a single page
    transactionIdSetPageStatusInternal xid subxids status
  else
    (if status = .committed then setStatusByPages rest .subCommitted else []) ++
      transactionIdSetPageStatusInternal xid first status ++
      setStatusByPages rest status

/-! ### Reading back -/

section Bits

/-- The two bits at an index of a byte. -/
def field (b : UInt8) (i : ℕ) : UInt8 := (b >>> UInt8.ofNat (i * 2)) &&& clogXactBitmask

/-- A byte with the two bits at an index replaced. -/
def setField (b : UInt8) (i : ℕ) (v : UInt8) : UInt8 :=
  (b &&& ~~~(clogXactBitmask <<< UInt8.ofNat (i * 2))) ||| (v <<< UInt8.ofNat (i * 2))

theorem field_setField (b : UInt8) (i j : ℕ) (v : UInt8) :
    field (setField b i v) j =
      (b >>> UInt8.ofNat (j * 2)) &&& field (~~~(clogXactBitmask <<< UInt8.ofNat (i * 2))) j |||
        field (v <<< UInt8.ofNat (i * 2)) j := by
  rw [field, setField, UInt8.shiftRight_or, UInt8.shiftRight_and]
  simp only [field, ← UInt8.toBitVec_inj, UInt8.toBitVec_and, UInt8.toBitVec_or,
    BitVec.and_or_distrib_right, BitVec.and_assoc]

/-- Masks and shifts of the four fields of a byte. -/
theorem field_mask : ∀ i < 4, ∀ j < 4,
    field (~~~(clogXactBitmask <<< UInt8.ofNat (i * 2))) j =
      if i = j then 0 else clogXactBitmask := by decide

theorem field_code : ∀ i < 4, ∀ j < 4, ∀ v ∈ [0, 1, 2, 3],
    field (v <<< UInt8.ofNat (i * 2)) j = if i = j then v else 0 := by
  simp only [forall_mem_cons, not_mem_nil, false_implies, implies_true, and_true]
  decide

/-- The status that is stored is read back. -/
theorem field_setField_self (b : UInt8) {i : ℕ} (hi : i < 4) (status : XidStatus) :
    field (setField b i status.code) i = status.code := by
  rw [field_setField, field_mask i hi i hi, if_pos rfl,
    field_code i hi i hi _ (by cases status <;> decide), if_pos rfl, UInt8.and_zero,
    UInt8.zero_or]

/-- The other statuses of the byte stay. -/
theorem field_setField_of_ne (b : UInt8) {i j : ℕ} (hi : i < 4) (hj : j < 4) (hne : i ≠ j)
    (status : XidStatus) : field (setField b i status.code) j = field b j := by
  rw [field_setField, field_mask i hi j hj, if_neg hne,
    field_code i hi j hj _ (by cases status <;> decide), if_neg hne, UInt8.or_zero]
  rfl

end Bits

section Status

variable {inRecovery : Bool} {clog : Clog} {xid x : TransactionId} {status : XidStatus}

theorem getStatus_eq (clog : Clog) (xid : TransactionId) :
    transactionIdGetStatus clog xid =
      XidStatus.ofCode (field (clog (transactionIdToPage xid) (transactionIdToByte xid))
        (transactionIdToBIndex xid)) := rfl

theorem bIndex_lt (xid : TransactionId) : transactionIdToBIndex xid < 4 :=
  Nat.mod_lt _ (by decide)

/-- Two ids never share a place in the log. -/
theorem eq_of_position (hpage : transactionIdToPage xid = transactionIdToPage x)
    (hbyte : transactionIdToByte xid = transactionIdToByte x)
    (hindex : transactionIdToBIndex xid = transactionIdToBIndex x) : xid = x := by
  simp only [transactionIdToPage, transactionIdToByte, transactionIdToBIndex, clogXactsPerPage,
    blcksz, clogXactsPerByte] at hpage hbyte hindex
  exact UInt32.toNat_inj.mp (by omega)

/-- A write sets the status, except that recovery does not go back to sub-committed. -/
theorem getStatus_setStatusBit_self :
    transactionIdGetStatus (transactionIdSetStatusBit inRecovery clog xid status) xid =
      if inRecovery ∧ status = .subCommitted ∧ transactionIdGetStatus clog xid = .committed
      then .committed else status := by
  rw [transactionIdSetStatusBit]
  split_ifs with h
  · exact h.2.2
  · rw [getStatus_eq, Clog.write, update_self, update_self]
    exact (congrArg XidStatus.ofCode (field_setField_self _ (bIndex_lt xid) status)).trans
      (XidStatus.ofCode_code status)

/-- The call changes no other transaction, also in the same byte. -/
theorem getStatus_setStatusBit_of_ne (hne : xid ≠ x) :
    transactionIdGetStatus (transactionIdSetStatusBit inRecovery clog xid status) x =
      transactionIdGetStatus clog x := by
  rw [transactionIdSetStatusBit]
  split_ifs with h
  · rfl
  · rw [getStatus_eq, getStatus_eq, Clog.write]
    by_cases hpage : transactionIdToPage x = transactionIdToPage xid
    · by_cases hbyte : transactionIdToByte x = transactionIdToByte xid
      · have hindex : transactionIdToBIndex xid ≠ transactionIdToBIndex x := fun hindex =>
          hne (eq_of_position hpage.symm hbyte.symm hindex)
        rw [hpage, hbyte, update_self, update_self]
        exact congrArg XidStatus.ofCode
          (field_setField_of_ne _ (bIndex_lt xid) (bIndex_lt x) hindex status)
      · rw [hpage, update_self, update_of_ne hbyte]
    · rw [update_of_ne hpage]

end Status

/-! ### The order of the writes -/

section Writes

variable {xid : TransactionId} {subxids : List TransactionId} {status : XidStatus}

/-- Page by page, every subtransaction is written once. -/
theorem setStatusByPages_eq (subxids : List TransactionId) (status : XidStatus) :
    setStatusByPages subxids status = subxids.map fun subxid => (subxid, status) := by
  fun_induction setStatusByPages subxids status with
  | case1 => rfl
  | case2 _ _ ih =>
    rw [ih, transactionIdSetPageStatusInternal, if_neg (by decide), nil_append,
      ← map_append, cons_append, takeWhile_append_dropWhile]

/-- All writes for a tree. The subtransactions on the first page are the last ones to be
sub-committed. -/
theorem setTreeStatus_eq (hvalid : transactionIdIsValid xid = true) :
    transactionIdSetTreeStatus xid subxids status =
      (if status = .committed then
        (subxids.dropWhile (samePage xid) ++ subxids.takeWhile (samePage xid)).map
          fun subxid => (subxid, XidStatus.subCommitted)
      else []) ++ (xid, status) :: subxids.map fun subxid => (subxid, status) := by
  rw [transactionIdSetTreeStatus]
  simp only [transactionIdSetPageStatusInternal, if_pos hvalid, setStatusByPages_eq]
  have hsplit := takeWhile_append_dropWhile (p := samePage xid) (l := subxids)
  by_cases hrest : subxids.dropWhile (samePage xid) = []
  · rw [hrest, append_nil] at hsplit
    rw [hrest, hsplit]
    simp
  · have hmap : (subxids.map fun subxid => (subxid, status)) =
        (subxids.takeWhile (samePage xid)).map (fun subxid => (subxid, status)) ++
          (subxids.dropWhile (samePage xid)).map fun subxid => (subxid, status) := by
      rw [← map_append, hsplit]
    rw [if_neg hrest, hmap]
    split_ifs <;> simp

theorem mem_pages_iff {x : TransactionId} :
    x ∈ subxids.dropWhile (samePage xid) ++ subxids.takeWhile (samePage xid) ↔ x ∈ subxids := by
  rw [mem_append, or_comm, ← mem_append, takeWhile_append_dropWhile]

/-- In a commit every subtransaction is sub-committed before the top-level transaction is
committed, and committed after it. -/
theorem setTreeStatus_committed (hvalid : transactionIdIsValid xid = true) :
    ∃ before after,
      transactionIdSetTreeStatus xid subxids .committed =
        before ++ (xid, .committed) :: after ∧
      (∀ w ∈ before, w.1 ∈ subxids ∧ w.2 = .subCommitted) ∧
      (∀ subxid ∈ subxids, (subxid, .subCommitted) ∈ before) ∧
      ∀ w ∈ after, w.1 ∈ subxids ∧ w.2 = .committed := by
  refine ⟨_, _, by rw [setTreeStatus_eq hvalid, if_pos rfl], ?_, ?_, ?_⟩
  · intro w hw
    obtain ⟨x, hx, rfl⟩ := mem_map.mp hw
    exact ⟨mem_pages_iff.mp hx, rfl⟩
  · exact fun subxid hsubxid => mem_map.mpr ⟨subxid, mem_pages_iff.mpr hsubxid, rfl⟩
  · intro w hw
    obtain ⟨x, hx, rfl⟩ := mem_map.mp hw
    exact ⟨hx, rfl⟩

/-- An abort writes nothing but aborts of the tree. -/
theorem mem_setTreeStatus_aborted (hvalid : transactionIdIsValid xid = true) {w : StatusWrite}
    (hw : w ∈ transactionIdSetTreeStatus xid subxids .aborted) :
    w.1 ∈ xid :: subxids ∧ w.2 = .aborted := by
  rw [setTreeStatus_eq hvalid] at hw
  rcases mem_cons.mp hw with rfl | hw
  · exact ⟨mem_cons_self, rfl⟩
  · obtain ⟨x, hx, rfl⟩ := mem_map.mp hw
    exact ⟨mem_cons_of_mem _ hx, rfl⟩

theorem mem_of_mem_setPageStatus {w : StatusWrite} {l : List TransactionId}
    (hw : w ∈ transactionIdSetPageStatusInternal xid l status) : w.1 ∈ xid :: l := by
  simp only [transactionIdSetPageStatusInternal, mem_append, mem_map] at hw
  rcases hw with hw | ⟨x, hx, rfl⟩
  · split_ifs at hw with hvalid hstatus
    · rcases mem_append.mp hw with hw | hw
      · obtain ⟨x, hx, rfl⟩ := mem_map.mp hw
        exact mem_cons_of_mem _ hx
      · exact mem_cons.mpr (.inl (by rw [mem_singleton.mp hw]))
    · exact mem_cons.mpr (.inl (by rw [mem_singleton.mp hw]))
    · cases hw
  · exact mem_cons_of_mem _ hx

/-- Nothing outside of the tree is written. -/
theorem mem_of_mem_setTreeStatus {w : StatusWrite}
    (hw : w ∈ transactionIdSetTreeStatus xid subxids status) : w.1 ∈ xid :: subxids := by
  have hrest {st : XidStatus} (hw : w ∈ setStatusByPages (subxids.dropWhile (samePage xid)) st) :
      w.1 ∈ xid :: subxids := by
    rw [setStatusByPages_eq] at hw
    obtain ⟨x, hx, rfl⟩ := mem_map.mp hw
    exact mem_cons_of_mem _ ((dropWhile_sublist _).subset hx)
  simp only [transactionIdSetTreeStatus] at hw
  split_ifs at hw with hpage hstatus
  · exact mem_of_mem_setPageStatus hw
  all_goals
    rcases mem_append.mp hw with hw | hw
    · rcases mem_append.mp hw with hw | hw
      · first | exact hrest hw | cases hw
      · exact cons_subset_cons _ (takeWhile_sublist _).subset (mem_of_mem_setPageStatus hw)
    · exact hrest hw

end Writes

end PgCutover.Transam
