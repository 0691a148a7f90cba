import PgCutover.Transam.TransactionId
import PgCutover.Wal.Insert

/-!
# The positions of a logical replication slot

Decoding proposes a new `catalog_xmin` or `restart_lsn` together with a position. The proposal is
parked as a candidate until the client confirms that position; the confirmation promotes it,
writes the slot to disk and only then lets the effective xmin follow.

The process that owns the slot runs one function at a time. A function is cut where it releases
the slot's mutex or has written the slot, so that every state in between is a state of the run.
-/

namespace PgCutover.Replication

open Transam Lib Wal

/-- What the slot's file holds. -/
structure SlotData where
  confirmedFlush : ℕ
  restartLsn : ℕ
  catalogXmin : TransactionId
  deriving DecidableEq, Repr

/-- What is left to do of the function that runs. -/
inductive Pending
  | none
  /-- The call of `LogicalConfirmReceivedLocation` that applies a candidate at once. -/
  | confirm
  /-- The write of the slot after a promotion, and whether the xmin was promoted. -/
  | save (updatedXmin : Bool)
  /-- The assignment of the effective xmin. -/
  | advance
  deriving DecidableEq, Repr

/-- The slot in memory and on disk. -/
structure LogicalSlot where
  data : SlotData
  candidateCatalogXmin : TransactionId
  candidateXminLsn : ℕ
  candidateRestartValid : ℕ
  candidateRestartLsn : ℕ
  effectiveCatalogXmin : TransactionId
  onDisk : SlotData
  pending : Pending
  /-- The calls so far: each proposed xmin and each proposed restart position, with its position. -/
  proposedXmins : List (ℕ × TransactionId)
  proposedRestarts : List (ℕ × ℕ)
  deriving Repr

namespace LogicalSlot

/-! ### The functions -/

/-- `LogicalConfirmReceivedLocation`, first half of the locked section. -/
def promoteXmin (slot : LogicalSlot) (lsn : ℕ) : LogicalSlot × Bool :=
  if slot.candidateXminLsn ≠ invalidXLogRecPtr ∧ slot.candidateXminLsn ≤ lsn ∧
      transactionIdIsValid slot.candidateCatalogXmin = true ∧
      slot.data.catalogXmin ≠ slot.candidateCatalogXmin then
    ({ slot with
        data := { slot.data with catalogXmin := slot.candidateCatalogXmin }
        candidateCatalogXmin := invalidTransactionId
        candidateXminLsn := invalidXLogRecPtr }, true)
  else (slot, false)

/-- `LogicalConfirmReceivedLocation`, second half of the locked section. -/
def promoteRestart (slot : LogicalSlot) (lsn : ℕ) : LogicalSlot × Bool :=
  if slot.candidateRestartValid ≠ invalidXLogRecPtr ∧ slot.candidateRestartValid ≤ lsn then
    ({ slot with
        data := { slot.data with restartLsn := slot.candidateRestartLsn }
        candidateRestartLsn := invalidXLogRecPtr
        candidateRestartValid := invalidXLogRecPtr }, true)
  else (slot, false)

/-- `LogicalConfirmReceivedLocation` up to the release of the mutex. -/
def logicalConfirmReceivedLocation (slot : LogicalSlot) (lsn : ℕ) : LogicalSlot :=
  if slot.candidateXminLsn ≠ invalidXLogRecPtr ∨
      slot.candidateRestartValid ≠ invalidXLogRecPtr then
    let confirmed := { slot with data := { slot.data with confirmedFlush := lsn } }
    let (slot, updatedXmin) := confirmed.promoteXmin lsn
    let (slot, updatedRestart) := slot.promoteRestart lsn
    { slot with pending := if updatedXmin || updatedRestart then .save updatedXmin else .none }
  else { slot with data := { slot.data with confirmedFlush := lsn }, pending := .none }

/-- `LogicalIncreaseXminForSlot`. -/
def logicalIncreaseXminForSlot (slot : LogicalSlot) (currentLsn : ℕ) (xmin : TransactionId) :
    LogicalSlot :=
  -- don't overwrite if we already have a newer xmin
  if transactionIdPrecedesOrEquals xmin slot.data.catalogXmin then slot
  else if currentLsn ≤ slot.data.confirmedFlush then
    { slot with
      candidateCatalogXmin := xmin
      candidateXminLsn := currentLsn
      pending := .confirm }
  -- only increase if the previous values have been applied
  else if slot.candidateXminLsn = invalidXLogRecPtr then
    { slot with candidateCatalogXmin := xmin, candidateXminLsn := currentLsn }
  else slot

/-- `LogicalIncreaseRestartDecodingForSlot`. -/
def logicalIncreaseRestartDecodingForSlot (slot : LogicalSlot) (currentLsn restartLsn : ℕ) :
    LogicalSlot :=
  if restartLsn ≤ slot.data.restartLsn then slot
  else if currentLsn ≤ slot.data.confirmedFlush then
    { slot with
      candidateRestartValid := currentLsn
      candidateRestartLsn := restartLsn
      pending := .confirm }
  else if slot.candidateRestartValid = invalidXLogRecPtr then
    { slot with candidateRestartValid := currentLsn, candidateRestartLsn := restartLsn }
  else slot

/-- What the running function does next. -/
def resume (slot : LogicalSlot) : LogicalSlot :=
  match slot.pending with
  | .none => slot
  | .confirm => slot.logicalConfirmReceivedLocation slot.data.confirmedFlush
  | .save updatedXmin =>
    { slot with
      onDisk := slot.data
      pending := if updatedXmin then .advance else .none }
  | .advance =>
    { slot with effectiveCatalogXmin := slot.data.catalogXmin, pending := .none }

end LogicalSlot

/-- The calls, and the next part of the function that runs. -/
inductive SlotAction
  | increaseXmin (currentLsn : ℕ) (xmin : TransactionId)
  | increaseRestart (currentLsn restartLsn : ℕ)
  | confirm (lsn : ℕ)
  /-- `ProcessStandbyReplyMessage` with this flush position. -/
  | standbyReply (flushPtr : ℕ)
  | resume
  deriving DecidableEq, Repr

namespace LogicalSlot

/-- A call waits for the function that runs. -/
def step (slot : LogicalSlot) (a : SlotAction) : LogicalSlot :=
  match slot.pending, a with
  | _, .resume => slot.resume
  | .none, .increaseXmin currentLsn xmin =>
    { slot with
      proposedXmins := (currentLsn, xmin) :: slot.proposedXmins }.logicalIncreaseXminForSlot
        currentLsn xmin
  | .none, .increaseRestart currentLsn restartLsn =>
    { slot with
      proposedRestarts := (currentLsn, restartLsn) ::
        slot.proposedRestarts }.logicalIncreaseRestartDecodingForSlot currentLsn restartLsn
  | .none, .confirm lsn => slot.logicalConfirmReceivedLocation lsn
  | .none, .standbyReply flushPtr =>
    if flushPtr ≠ invalidXLogRecPtr then slot.logicalConfirmReceivedLocation flushPtr else slot
  | _, _ => slot

/-! ### What every step keeps -/

/-- How the effective xmin lags behind the file and the file behind the slot. -/
def InStep (slot : LogicalSlot) : Prop :=
  match slot.pending with
  | .save true =>
    slot.effectiveCatalogXmin = slot.onDisk.catalogXmin ∧
      transactionIdPrecedesOrEquals slot.data.catalogXmin slot.onDisk.catalogXmin = false
  | .advance =>
    slot.data.catalogXmin = slot.onDisk.catalogXmin ∧
      transactionIdPrecedesOrEquals slot.onDisk.catalogXmin slot.effectiveCatalogXmin = false
  | _ =>
    slot.data.catalogXmin = slot.onDisk.catalogXmin ∧
      slot.effectiveCatalogXmin = slot.onDisk.catalogXmin

/-- A parked candidate was proposed, and is ahead of the value in use. -/
structure Valid (slot : LogicalSlot) : Prop where
  xmin : slot.candidateXminLsn ≠ invalidXLogRecPtr →
    (slot.candidateXminLsn, slot.candidateCatalogXmin) ∈ slot.proposedXmins ∧
      transactionIdPrecedesOrEquals slot.candidateCatalogXmin slot.data.catalogXmin = false
  restart : slot.candidateRestartValid ≠ invalidXLogRecPtr →
    (slot.candidateRestartValid, slot.candidateRestartLsn) ∈ slot.proposedRestarts ∧
      slot.data.restartLsn < slot.candidateRestartLsn
  inStep : slot.InStep

/-- What is right of a step, whatever the client confirms. -/
structure Sound (slot slot' : LogicalSlot) : Prop where
  restartLsn : slot.data.restartLsn ≤ slot'.data.restartLsn
  catalogXmin : slot'.data.catalogXmin = slot.data.catalogXmin ∨
    transactionIdPrecedes slot.data.catalogXmin slot'.data.catalogXmin = true
  xminTaken : slot'.data.catalogXmin ≠ slot.data.catalogXmin →
    ∃ lsn ≤ slot'.data.confirmedFlush, (lsn, slot'.data.catalogXmin) ∈ slot'.proposedXmins
  restartTaken : slot'.data.restartLsn ≠ slot.data.restartLsn →
    ∃ lsn ≤ slot'.data.confirmedFlush, (lsn, slot'.data.restartLsn) ∈ slot'.proposedRestarts
  effective : transactionIdPrecedes slot'.onDisk.catalogXmin slot'.effectiveCatalogXmin = false

variable {slot : LogicalSlot}

theorem InStep.of_idle (h : slot.InStep) (hidle : slot.pending = .none ∨ slot.pending = .confirm) :
    slot.data.catalogXmin = slot.onDisk.catalogXmin ∧
      slot.effectiveCatalogXmin = slot.onDisk.catalogXmin := by
  rcases hidle with hidle | hidle <;> simpa only [InStep, hidle] using h

/-- The effective xmin is not ahead of the file. -/
theorem InStep.not_precedes (h : slot.InStep) :
    transactionIdPrecedes slot.onDisk.catalogXmin slot.effectiveCatalogXmin = false := by
  rw [InStep] at h
  split at h
  · rw [h.1]
    exact not_precedes_self _
  · exact not_precedes_of_not_precedesOrEquals h.2
  · rw [h.2]
    exact not_precedes_self _

/-- A step that leaves the positions and what is on disk alone. -/
theorem Sound.of_eq {slot' : LogicalSlot} (hlsn : slot'.data.restartLsn = slot.data.restartLsn)
    (hxmin : slot'.data.catalogXmin = slot.data.catalogXmin) (h : slot'.InStep) :
    Sound slot slot' where
  restartLsn := Nat.le_of_eq hlsn.symm
  catalogXmin := .inl hxmin
  xminTaken hne := absurd hxmin hne
  restartTaken hne := absurd hlsn hne
  effective := h.not_precedes

/-- The two promotions, one after the other. -/
theorem confirm_eq (hcand : slot.candidateXminLsn ≠ invalidXLogRecPtr ∨
      slot.candidateRestartValid ≠ invalidXLogRecPtr) (lsn : ℕ) :
    slot.logicalConfirmReceivedLocation lsn =
      let confirmed := { slot with data := { slot.data with confirmedFlush := lsn } }
      let xmin := confirmed.promoteXmin lsn
      let restart := xmin.1.promoteRestart lsn
      { restart.1 with pending := if xmin.2 || restart.2 then .save xmin.2 else .none } :=
  if_pos hcand

theorem confirm_spec (h : slot.Valid)
    (hidle : slot.pending = .none ∨ slot.pending = .confirm) (lsn : ℕ) :
    (slot.logicalConfirmReceivedLocation lsn).Valid ∧
      Sound slot (slot.logicalConfirmReceivedLocation lsn) ∧
      (slot.logicalConfirmReceivedLocation lsn).data.confirmedFlush = lsn := by
  obtain ⟨hdata, heff⟩ := h.inStep.of_idle hidle
  have hself := h.inStep.not_precedes
  by_cases hcand : slot.candidateXminLsn ≠ invalidXLogRecPtr ∨
      slot.candidateRestartValid ≠ invalidXLogRecPtr
  swap
  · rw [logicalConfirmReceivedLocation, if_neg hcand]
    exact ⟨⟨h.xmin, h.restart, hdata, heff⟩, .of_eq rfl rfl ⟨hdata, heff⟩, rfl⟩
  rw [confirm_eq hcand]
  by_cases hxmin : slot.candidateXminLsn ≠ invalidXLogRecPtr ∧ slot.candidateXminLsn ≤ lsn ∧
      transactionIdIsValid slot.candidateCatalogXmin = true ∧
      slot.data.catalogXmin ≠ slot.candidateCatalogXmin
  all_goals
    by_cases hrestart : slot.candidateRestartValid ≠ invalidXLogRecPtr ∧
      slot.candidateRestartValid ≤ lsn
  -- both candidates are promoted, or one of them, or none
  · obtain ⟨hmem, hnew⟩ := h.xmin hxmin.1
    obtain ⟨hrmem, hrnew⟩ := h.restart hrestart.1
    simp only [promoteXmin, if_pos hxmin, promoteRestart, if_pos hrestart]
    exact ⟨⟨fun hne => absurd rfl hne, fun hne => absurd rfl hne, heff, hdata ▸ hnew⟩,
      ⟨Nat.le_of_lt hrnew, .inr (precedes_of_not_precedesOrEquals hnew),
        fun _ => ⟨_, hxmin.2.1, hmem⟩, fun _ => ⟨_, hrestart.2, hrmem⟩, hself⟩, trivial⟩
  · obtain ⟨hmem, hnew⟩ := h.xmin hxmin.1
    simp only [promoteXmin, if_pos hxmin, promoteRestart, if_neg hrestart]
    exact ⟨⟨fun hne => absurd rfl hne, h.restart, heff, hdata ▸ hnew⟩,
      ⟨Nat.le_refl _, .inr (precedes_of_not_precedesOrEquals hnew),
        fun _ => ⟨_, hxmin.2.1, hmem⟩, fun hne => absurd rfl hne, hself⟩, trivial⟩
  · obtain ⟨hrmem, hrnew⟩ := h.restart hrestart.1
    simp only [promoteXmin, if_neg hxmin, promoteRestart, if_pos hrestart]
    exact ⟨⟨h.xmin, fun hne => absurd rfl hne, hdata, heff⟩,
      ⟨Nat.le_of_lt hrnew, .inl rfl, fun hne => absurd rfl hne,
        fun _ => ⟨_, hrestart.2, hrmem⟩, hself⟩, trivial⟩
  · simp only [promoteXmin, if_neg hxmin, promoteRestart, if_neg hrestart, Bool.or_self,
      Bool.false_eq_true, if_false]
    exact ⟨⟨h.xmin, h.restart, hdata, heff⟩, .of_eq rfl rfl ⟨hdata, heff⟩, trivial⟩

theorem resume_spec (h : slot.Valid) :
    slot.resume.Valid ∧ Sound slot slot.resume ∧
      slot.resume.data.confirmedFlush = slot.data.confirmedFlush := by
  have hstep := h.inStep
  rw [InStep] at hstep
  rw [resume]
  cases hpending : slot.pending with rw [hpending] at hstep
  | none => exact ⟨h, .of_eq rfl rfl h.inStep, rfl⟩
  | confirm => exact confirm_spec h (.inr hpending) _
  | save updatedXmin =>
    cases updatedXmin with
    | true =>
      refine ⟨⟨h.xmin, h.restart, rfl, ?_⟩, .of_eq rfl rfl ⟨rfl, ?_⟩, rfl⟩
      all_goals exact hstep.1 ▸ hstep.2
    | false =>
      exact ⟨⟨h.xmin, h.restart, rfl, hstep.2.trans hstep.1.symm⟩,
        .of_eq rfl rfl ⟨rfl, hstep.2.trans hstep.1.symm⟩, rfl⟩
  | advance =>
    exact ⟨⟨h.xmin, h.restart, hstep.1, hstep.1⟩, .of_eq rfl rfl ⟨hstep.1, hstep.1⟩, rfl⟩

theorem step_spec (h : slot.Valid) (a : SlotAction) :
    (slot.step a).Valid ∧ Sound slot (slot.step a) := by
  have hstay : slot.Valid ∧ Sound slot slot := ⟨h, .of_eq rfl rfl h.inStep⟩
  have hresume := resume_spec h
  cases hpending : slot.pending with
  | none =>
    have hstep : slot.data.catalogXmin = slot.onDisk.catalogXmin ∧
        slot.effectiveCatalogXmin = slot.onDisk.catalogXmin := h.inStep.of_idle (.inl hpending)
    cases a with
    | resume => exact ⟨hresume.1, hresume.2.1⟩
    | increaseXmin currentLsn xmin =>
      -- the proposal is on record before it is looked at
      have hold (hne : slot.candidateXminLsn ≠ invalidXLogRecPtr) :=
        And.imp_left (List.mem_cons_of_mem (currentLsn, xmin)) (h.xmin hne)
      simp only [step, hpending, logicalIncreaseXminForSlot]
      split_ifs with hnewer hconfirmed hfree
      · exact ⟨⟨hold, h.restart, hstep⟩, .of_eq rfl rfl hstep⟩
      · exact ⟨⟨fun _ => ⟨List.mem_cons_self, Bool.eq_false_iff.2 hnewer⟩, h.restart, hstep⟩,
          .of_eq rfl rfl hstep⟩
      · exact ⟨⟨fun _ => ⟨List.mem_cons_self, Bool.eq_false_iff.2 hnewer⟩, h.restart, hstep⟩,
          .of_eq rfl rfl hstep⟩
      · exact ⟨⟨hold, h.restart, hstep⟩, .of_eq rfl rfl hstep⟩
    | increaseRestart currentLsn restartLsn =>
      have hold (hne : slot.candidateRestartValid ≠ invalidXLogRecPtr) :=
        And.imp_left (List.mem_cons_of_mem (currentLsn, restartLsn)) (h.restart hne)
      simp only [step, hpending, logicalIncreaseRestartDecodingForSlot]
      split_ifs with hnewer hconfirmed hfree
      · exact ⟨⟨h.xmin, hold, hstep⟩, .of_eq rfl rfl hstep⟩
      · exact ⟨⟨h.xmin, fun _ => ⟨List.mem_cons_self, Nat.lt_of_not_le hnewer⟩, hstep⟩,
          .of_eq rfl rfl hstep⟩
      · exact ⟨⟨h.xmin, fun _ => ⟨List.mem_cons_self, Nat.lt_of_not_le hnewer⟩, hstep⟩,
          .of_eq rfl rfl hstep⟩
      · exact ⟨⟨h.xmin, hold, hstep⟩, .of_eq rfl rfl hstep⟩
    | confirm lsn =>
      have hconfirm := confirm_spec h (.inl hpending) lsn
      simpa only [step, hpending] using And.intro hconfirm.1 hconfirm.2.1
    | standbyReply flushPtr =>
      have hconfirm := confirm_spec h (.inl hpending) flushPtr
      simp only [step, hpending]
      split_ifs with hvalid
      · exact ⟨hconfirm.1, hconfirm.2.1⟩
      · exact hstay
  | _ =>
    -- another call is still under way
    cases a with
    | resume => exact ⟨hresume.1, hresume.2.1⟩
    | _ => simpa only [step, hpending] using hstay

/-! ### Runs -/

/-- A slot as it is loaded or created: no candidates, the file up to date. -/
structure Initial (slot : LogicalSlot) : Prop where
  pending : slot.pending = .none
  xminLsn : slot.candidateXminLsn = invalidXLogRecPtr
  restartValid : slot.candidateRestartValid = invalidXLogRecPtr
  onDisk : slot.onDisk = slot.data
  effective : slot.effectiveCatalogXmin = slot.data.catalogXmin

theorem Initial.valid (h : slot.Initial) : slot.Valid where
  xmin hne := absurd h.xminLsn hne
  restart hne := absurd h.restartValid hne
  inStep := by
    rw [InStep, h.pending, h.onDisk]
    exact ⟨rfl, h.effective⟩

/-- The positions move forward only, and each new value was proposed with a confirmed position. -/
def MovesForward (slot : LogicalSlot) (a : SlotAction) : Prop :=
  slot.data.confirmedFlush ≤ (slot.step a).data.confirmedFlush ∧ Sound slot (slot.step a)

/-- The client does not confirm a position before the last one. -/
def ConfirmsForward (slot : LogicalSlot) : SlotAction → Prop
  | .confirm lsn => slot.pending = .none → slot.data.confirmedFlush ≤ lsn
  | .standbyReply flushPtr => slot.pending = .none → flushPtr ≠ invalidXLogRecPtr →
      slot.data.confirmedFlush ≤ flushPtr
  | _ => True

theorem movesForward_iff (h : slot.Valid) (a : SlotAction) :
    slot.MovesForward a ↔ slot.ConfirmsForward a := by
  have hsound := (step_spec h a).2
  -- only the confirmed position depends on what the client sends
  suffices slot.data.confirmedFlush ≤ (slot.step a).data.confirmedFlush ↔ slot.ConfirmsForward a
    from (and_iff_left hsound).trans this
  cases a with
  | resume => exact iff_of_true (Nat.le_of_eq (resume_spec h).2.2.symm) trivial
  | increaseXmin =>
    refine iff_of_true (Nat.le_of_eq ?_) trivial
    cases hpending : slot.pending with
    | none =>
      simp only [step, hpending, logicalIncreaseXminForSlot]
      split_ifs <;> rfl
    | _ => simp only [step, hpending]
  | increaseRestart =>
    refine iff_of_true (Nat.le_of_eq ?_) trivial
    cases hpending : slot.pending with
    | none =>
      simp only [step, hpending, logicalIncreaseRestartDecodingForSlot]
      split_ifs <;> rfl
    | _ => simp only [step, hpending]
  | confirm lsn =>
    cases hpending : slot.pending with
    | none =>
      simp only [step, ConfirmsForward, hpending, (confirm_spec h (.inl hpending) lsn).2.2,
        forall_const]
    | _ => simp [step, ConfirmsForward, hpending]
  | standbyReply flushPtr =>
    cases hpending : slot.pending with
    | none =>
      simp only [step, ConfirmsForward, hpending, forall_const]
      split_ifs with hvalid
      · rw [(confirm_spec h (.inl hpending) flushPtr).2.2]
        exact ⟨fun hle _ => hle, fun hle => hle hvalid⟩
      · exact iff_of_true (Nat.le_refl _) fun hne => absurd hne hvalid
    | _ => simp [step, ConfirmsForward, hpending]

/-- From a slot without candidates, every step of every sequence of calls moves the positions
forward if and only if no confirmation goes back. -/
theorem everyStep_movesForward_iff {slot : LogicalSlot} (h : slot.Initial)
    (calls : List SlotAction) :
    EveryStep step MovesForward slot calls ↔ EveryStep step ConfirmsForward slot calls :=
  everyStep_congr (fun _ a hvalid => (step_spec hvalid a).1) (fun _ a hvalid =>
    movesForward_iff hvalid a) h.valid

/-- A slot that has confirmed position 100. -/
def confirmedSlot : LogicalSlot where
  data := ⟨100, 50, 700⟩
  candidateCatalogXmin := invalidTransactionId
  candidateXminLsn := invalidXLogRecPtr
  candidateRestartValid := invalidXLogRecPtr
  candidateRestartLsn := invalidXLogRecPtr
  effectiveCatalogXmin := 700
  onDisk := ⟨100, 50, 700⟩
  pending := .none
  proposedXmins := []
  proposedRestarts := []

theorem initial_confirmedSlot : confirmedSlot.Initial := ⟨rfl, rfl, rfl, rfl, rfl⟩

theorem movesForward_confirmedSlot : EveryStep step MovesForward confirmedSlot
    [.increaseXmin 150 710, .increaseRestart 160 120, .confirm 200, .resume, .resume] :=
  (everyStep_movesForward_iff initial_confirmedSlot _).2
    ⟨trivial, trivial, by intro _; decide, trivial, trivial, trivial⟩

/-- A client that confirms 200 and then 150 takes the confirmed position back to 150. -/
theorem not_movesForward_confirmedSlot :
    ¬ EveryStep step MovesForward confirmedSlot [.confirm 200, .confirm 150] :=
  fun h => absurd h.2.1.1 (by decide)

end LogicalSlot

end PgCutover.Replication
