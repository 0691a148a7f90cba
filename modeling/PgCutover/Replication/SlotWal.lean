import PgCutover.Wal.Insert

/-!
# Replication slots, checkpoints and the removal of WAL

The checkpointer and the backends that own slots share the slot array, the minimum position the
slots require and the last removed segment. A call is cut at each of its accesses to shared
memory or to a file, so a run is an arbitrary interleaving of those accesses. The server is not in
recovery, and a process that cannot go on (a lock is taken, a call of its own has not returned)
does nothing.
-/

namespace PgCutover.Replication.SlotWal

open Wal Function

/-- The processes that compute the minimum or save slots. -/
inductive Proc where
  | checkpointer
  | backend (k : ℕ)
  deriving DecidableEq

/-- The part of a slot that is saved. The only cause of invalidation is `RS_INVAL_WAL_REMOVED`. -/
structure SlotData where
  restartLsn : ℕ
  invalidated : Bool
  deriving DecidableEq

/-- A slot in memory and on disk. -/
structure Slot where
  logical : Bool
  data : SlotData
  dirty : Bool
  justDirtied : Bool
  activePid : Option Proc
  /-- The holder of `io_in_progress_lock`. -/
  ioInProgress : Option Proc
  /-- The contents of the slot's state file. -/
  disk : SlotData

/-- A slot that keeps WAL from its `restartLsn` on. -/
def SlotData.Live (d : SlotData) : Prop :=
  d.invalidated = false ∧ d.restartLsn ≠ invalidXLogRecPtr

instance (d : SlotData) : Decidable d.Live := inferInstanceAs (Decidable (_ ∧ _))

/-- One slot of the loop of `ReplicationSlotsComputeRequiredLSN`. -/
def SlotData.require (minRequired : ℕ) (d : SlotData) : ℕ :=
  if d.invalidated then minRequired
  else if d.restartLsn ≠ invalidXLogRecPtr ∧
      (minRequired = invalidXLogRecPtr ∨ d.restartLsn < minRequired) then d.restartLsn
  else minRequired

section Required

variable {d : SlotData} {m lsn : ℕ}

/-- A minimum that `lsn` is not before. -/
def Below (m lsn : ℕ) : Prop := m ≠ invalidXLogRecPtr ∧ m ≤ lsn

theorem SlotData.Live.below_require (hd : d.Live) (m : ℕ) : Below (d.require m) d.restartLsn := by
  rw [SlotData.require, hd.1]
  simp only [Bool.false_eq_true, if_false]
  split_ifs with hless
  · exact ⟨hd.2, Nat.le_refl _⟩
  · rw [not_and_or, not_or, Nat.not_lt] at hless
    exact (hless.resolve_left fun h => h hd.2)

theorem Below.require (h : Below m lsn) (d : SlotData) : Below (d.require m) lsn := by
  rw [SlotData.require]
  split_ifs with hinvalid hless
  · exact h
  · refine ⟨hless.1, Nat.le_trans ?_ h.2⟩
    exact Nat.le_of_lt (hless.2.resolve_left h.1)
  · exact h

/-- The minimum is the one before or the position of a live slot. -/
theorem SlotData.require_cases (d : SlotData) (m : ℕ) :
    d.require m = m ∨ d.Live ∧ d.require m = d.restartLsn := by
  rw [SlotData.require]
  split_ifs with hinvalid hless
  · exact .inl rfl
  · exact .inr ⟨⟨by simpa using hinvalid, hless.1⟩, rfl⟩
  · exact .inl rfl

theorem SlotData.le_require {b : ℕ} (hm : m ≠ invalidXLogRecPtr → b ≤ m)
    (hd : d.Live → b ≤ d.restartLsn) (hvalid : d.require m ≠ invalidXLogRecPtr) :
    b ≤ d.require m := by
  rcases d.require_cases m with heq | ⟨hlive, heq⟩
  · rw [heq] at hvalid ⊢
    exact hm hvalid
  · rw [heq]
    exact hd hlive

theorem below_foldl_require (l : List SlotData) (hm : Below m lsn) :
    Below (l.foldl SlotData.require m) lsn := by
  induction l generalizing m with
  | nil => exact hm
  | cons d l ih => exact ih (hm.require d)

theorem below_foldl_require_of_mem {l : List SlotData} (hmem : d ∈ l) (hd : d.Live) (m : ℕ) :
    Below (l.foldl SlotData.require m) d.restartLsn := by
  induction l generalizing m with
  | nil => nomatch hmem
  | cons e l ih =>
    rcases List.mem_cons.mp hmem with rfl | hmem
    · exact below_foldl_require l (hd.below_require m)
    · exact ih hmem (e.require m)

/-- The minimum of the slots is the position of a live slot, if it is valid. -/
theorem foldl_require_cases (l : List SlotData) (m : ℕ) :
    l.foldl SlotData.require m = m ∨
      ∃ d ∈ l, d.Live ∧ l.foldl SlotData.require m = d.restartLsn := by
  induction l generalizing m with
  | nil => exact .inl rfl
  | cons e l ih =>
    rcases ih (e.require m) with heq | ⟨d, hmem, hd, heq⟩
    · rcases e.require_cases m with hm | ⟨he, hm⟩
      · exact .inl (heq.trans hm)
      · exact .inr ⟨e, List.mem_cons_self, he, heq.trans hm⟩
    · exact .inr ⟨d, List.mem_cons_of_mem _ hmem, hd, heq⟩

end Required

/-- A call of `ReplicationSlotsComputeRequiredLSN`: the next slot and the minimum so far. -/
structure Computing where
  next : ℕ
  minRequired : ℕ

/-- A call of `SaveSlotToPath` that found the slot dirty. -/
inductive Saving (n : ℕ) where
  | waiting (i : Fin n)
  | copied (i : Fin n) (cp : SlotData)
  | renamed (i : Fin n)

/-- What a backend does next. -/
inductive Backend (n : ℕ) where
  | idle
  /-- In `PhysicalConfirmReceivedLocation`, after the change. -/
  | markDirty (i : Fin n)
  /-- In `ReplicationSlotReserveWal`. -/
  | readPosition (i : Fin n)
  | setRestart (i : Fin n) (lsn : ℕ)
  | checkRemoved (i : Fin n)
  | logSnapshot (i : Fin n)

/-- What the checkpointer does next in `CreateCheckPoint`. `recptr` is the end of the checkpoint
record and `cutoff` is `_logSegNo`. -/
inductive Checkpoint (n : ℕ) where
  | idle
  /-- `CheckPointReplicationSlots`, at slot `i`. -/
  | guts (i : ℕ)
  | keep (recptr : ℕ)
  /-- `InvalidateObsoleteReplicationSlots`, at slot `i`. `initial` is `initial_restart_lsn` once
  the owner of the slot has been signalled. -/
  | scan (recptr cutoff i : ℕ) (invalidated : Bool) (initial : Option ℕ)
  | markDirty (recptr cutoff : ℕ) (i : Fin n)
  | save (recptr cutoff : ℕ) (i : Fin n)
  | release (recptr cutoff : ℕ) (i : Fin n)
  /-- The second `KeepLogSeg`, after slots have been invalidated. -/
  | keepAgain (recptr : ℕ)
  /-- `RemoveOldXlogFiles`, up to `segno`. -/
  | remove (segno : ℕ)

/-- The slots and the log, with where each process is. -/
structure SlotCtl (n : ℕ) where
  slots : Fin n → Slot
  replicationSlotMinLSN : ℕ
  lastRemovedSegNo : ℕ
  redoRecPtr : ℕ
  insertRecPtr : ℕ
  /-- The segments whose file has been removed. -/
  removed : ℕ → Bool
  computing : Proc → Option Computing
  saving : Proc → Option (Saving n)
  backends : ℕ → Backend n
  checkpoint : Checkpoint n
  /-- The slots for which `ReplicationSlotReserveWal` has returned. -/
  reserved : Fin n → Bool

namespace SlotCtl

variable {n : ℕ} (c : KeepSettings) (s : SlotCtl n)

/-- The state after a change of one slot. -/
def modify (i : Fin n) (f : Slot → Slot) : SlotCtl n :=
  { s with slots := update s.slots i (f (s.slots i)) }

theorem update_field {α : Type*} (g : Slot → α) {slots : Fin n → Slot} {i : Fin n} {slot : Slot}
    (hslot : g slot = g (slots i)) (j : Fin n) : g (update slots i slot j) = g (slots j) := by
  by_cases hj : j = i
  · subst hj
    rw [update_self, hslot]
  · rw [update_of_ne hj]

/-- A process calls `ReplicationSlotsComputeRequiredLSN`. -/
def computeRequiredLSN (p : Proc) : SlotCtl n :=
  { s with computing := update s.computing p (some ⟨0, invalidXLogRecPtr⟩) }

/-- The next turn of the loop of `ReplicationSlotsComputeRequiredLSN`. -/
def computeStep (p : Proc) : SlotCtl n :=
  match s.computing p with
  | none => s
  | some ⟨next, minRequired⟩ =>
    if h : next < n then
      let minRequired := (s.slots ⟨next, h⟩).data.require minRequired
      { s with computing := update s.computing p (some ⟨next + 1, minRequired⟩) }
    else
      { s with replicationSlotMinLSN := minRequired, computing := update s.computing p none }

/-- `ReplicationSlotMarkDirty`. -/
def markDirty (i : Fin n) : SlotCtl n :=
  s.modify i fun slot => { slot with dirty := true, justDirtied := true }

/-- A process calls `SaveSlotToPath`. -/
def saveSlotToPath (p : Proc) (i : Fin n) : SlotCtl n :=
  let s' := s.modify i fun slot => { slot with justDirtied := false }
  if (s.slots i).dirty then { s' with saving := update s.saving p (some (.waiting i)) } else s'

variable {s} in
/-- The call touches nothing but the slot and the process. -/
theorem saveSlotToPath_eq (p : Proc) (i : Fin n) : ∃ slots saving,
    s.saveSlotToPath p i = { s with slots := slots, saving := saving } := by
  rw [saveSlotToPath]
  split_ifs
  all_goals exact ⟨_, _, rfl⟩

/-- The next step of `SaveSlotToPath`. -/
def saveStep (p : Proc) : SlotCtl n :=
  match s.saving p with
  | none => s
  | some (.waiting i) =>
    if (s.slots i).ioInProgress = none then
      { s.modify i fun slot => { slot with ioInProgress := some p } with
        saving := update s.saving p (some (.copied i (s.slots i).data)) }
    else s
  | some (.copied i cp) =>
    -- the rename and the fsyncs after it
    { s.modify i fun slot => { slot with disk := cp } with
      saving := update s.saving p (some (.renamed i)) }
  | some (.renamed i) =>
    { s.modify i fun slot =>
        { slot with
          dirty := if slot.justDirtied then slot.dirty else false, ioInProgress := none } with
      saving := update s.saving p none }

/-- No call of the process is in progress that it has to wait for. -/
def Returned (p : Proc) : Prop := s.computing p = none ∧ s.saving p = none

instance (p : Proc) : Decidable (s.Returned p) :=
  decidable_of_iff ((s.computing p).isNone ∧ (s.saving p).isNone) (by
    rw [Returned, Option.isNone_iff_eq_none, Option.isNone_iff_eq_none])

/-- `PhysicalConfirmReceivedLocation`, to the release of the slot's mutex. -/
def confirm (k : ℕ) (i : Fin n) (lsn : ℕ) : SlotCtl n :=
  if (s.slots i).data.restartLsn ≠ lsn then
    { s.modify i fun slot => { slot with data.restartLsn := lsn } with
      backends := update s.backends k (.markDirty i) }
  else s

/-- `ReplicationSlotReserveWal` returns. -/
def reserveReturn (k : ℕ) (i : Fin n) : SlotCtl n :=
  { s with backends := update s.backends k .idle, reserved := update s.reserved i true }

/-- The next step of a backend. -/
def backendStep (k : ℕ) : SlotCtl n :=
  match s.backends k with
  | .idle => s
  | .markDirty i =>
    { (s.markDirty i).computeRequiredLSN (.backend k) with
      backends := update s.backends k .idle }
  | .readPosition i =>
    let restartLsn := if (s.slots i).logical then s.insertRecPtr else s.redoRecPtr
    { s with backends := update s.backends k (.setRestart i restartLsn) }
  | .setRestart i lsn =>
    { (s.modify i fun slot => { slot with data.restartLsn := lsn }).computeRequiredLSN
        (.backend k) with
      backends := update s.backends k (.checkRemoved i) }
  | .checkRemoved i =>
    if s.lastRemovedSegNo < xlByteToSeg c.segSize (s.slots i).data.restartLsn then
      if (s.slots i).logical then
        { s with backends := update s.backends k (.logSnapshot i) }
      else s.reserveReturn k i
    else { s with backends := update s.backends k (.readPosition i) }
  | .logSnapshot i => s.reserveReturn k i

/-- `_logSegNo--`, an unsigned 64-bit number. -/
def lastSegToRemove (cutoff : ℕ) : ℕ := if cutoff = 0 then 2 ^ 64 - 1 else cutoff - 1

/-- `InvalidatePossiblyObsoleteSlot`, up to the release of the slot's mutex. -/
def scanSlot (recptr cutoff : ℕ) (i : Fin n) (invalidated : Bool) (initial : Option ℕ) :
    SlotCtl n :=
  let data := (s.slots i).data
  let initialRestartLsn := initial.getD data.restartLsn
  let oldestLSN := cutoff * c.segSize
  if data.invalidated = false ∧ initialRestartLsn ≠ invalidXLogRecPtr ∧
      initialRestartLsn < oldestLSN then
    if (s.slots i).activePid = none then
      { s.modify i fun slot =>
          { slot with data := ⟨invalidXLogRecPtr, true⟩, activePid := some .checkpointer } with
        checkpoint := .markDirty recptr cutoff i }
    else
      -- signal the owner and wait for the release of the slot
      { s with checkpoint := .scan recptr cutoff i invalidated (some initialRestartLsn) }
  else if initial = none then
    { s with checkpoint := .scan recptr cutoff (i + 1) invalidated none }
  else
    -- the control lock was released: start from scratch
    { s with checkpoint := .scan recptr cutoff 0 invalidated none }

/-- The next step of the checkpointer. -/
def checkpointerStep : SlotCtl n :=
  match s.checkpoint with
  | .idle => s
  | .guts i =>
    if h : i < n then { s.saveSlotToPath .checkpointer ⟨i, h⟩ with checkpoint := .guts (i + 1) }
    else { s with checkpoint := .keep s.insertRecPtr }
  | .keep recptr =>
    { s with checkpoint := .scan recptr (c.keepLogSeg s.replicationSlotMinLSN recptr
        (xlByteToSeg c.segSize s.redoRecPtr)) 0 false none }
  | .scan recptr cutoff i invalidated initial =>
    if h : i < n then s.scanSlot c recptr cutoff ⟨i, h⟩ invalidated initial
    else if invalidated then
      { s.computeRequiredLSN .checkpointer with checkpoint := .keepAgain recptr }
    else { s with checkpoint := .remove (lastSegToRemove cutoff) }
  | .markDirty recptr cutoff i => { s.markDirty i with checkpoint := .save recptr cutoff i }
  | .save recptr cutoff i =>
    { s.saveSlotToPath .checkpointer i with checkpoint := .release recptr cutoff i }
  | .release recptr cutoff i =>
    { s.modify i fun slot => { slot with activePid := none } with
      checkpoint := .scan recptr cutoff 0 true none }
  | .keepAgain recptr =>
    { s with checkpoint := .remove (lastSegToRemove (c.keepLogSeg s.replicationSlotMinLSN recptr
        (xlByteToSeg c.segSize s.redoRecPtr))) }
  | .remove _ => { s with checkpoint := .idle }

/-- One file of `RemoveOldXlogFiles`, which meets the files in any order. -/
def removeFile (seg : ℕ) : SlotCtl n :=
  match s.checkpoint with
  | .remove segno =>
    if seg ≤ segno then
      { s with
        lastRemovedSegNo := max s.lastRemovedSegNo seg, removed := update s.removed seg true }
    else s
  | _ => s

/-- The minimum required by all slots. -/
def requiredLSN (data : Fin n → SlotData) : ℕ :=
  ((List.finRange n).map data).foldl SlotData.require invalidXLogRecPtr

/-- A crash and the restart: `StartupReplicationSlots` restores the slots from their files and
computes the minimum. -/
def restart (redoRecPtr insertRecPtr : ℕ) : SlotCtl n where
  slots i :=
    { logical := (s.slots i).logical, data := (s.slots i).disk, dirty := false,
      justDirtied := false, activePid := none, ioInProgress := none, disk := (s.slots i).disk }
  replicationSlotMinLSN := requiredLSN fun i => (s.slots i).disk
  lastRemovedSegNo := 0
  redoRecPtr := redoRecPtr
  insertRecPtr := insertRecPtr
  removed := s.removed
  computing _ := none
  saving _ := none
  backends _ := .idle
  checkpoint := .idle
  reserved := s.reserved

end SlotCtl

/-- What can happen next. -/
inductive Action (n : ℕ) where
  | insertWal (len : ℕ)
  | acquire (k : ℕ) (i : Fin n)
  | release (k : ℕ) (i : Fin n)
  | confirm (k : ℕ) (i : Fin n) (lsn : ℕ)
  | reserveWal (k : ℕ) (i : Fin n)
  | computeRequiredLSN (k : ℕ)
  | saveSlot (k : ℕ) (i : Fin n)
  /-- The next access of a call of `ReplicationSlotsComputeRequiredLSN`. -/
  | compute (p : Proc)
  /-- The next access of a call of `SaveSlotToPath`. -/
  | save (p : Proc)
  | backend (k : ℕ)
  | beginCheckpoint
  | checkpointer
  | removeFile (seg : ℕ)
  /-- A crash; recovery finds these positions of the last checkpoint and of the end of the log. -/
  | crash (redoRecPtr insertRecPtr : ℕ)

namespace SlotCtl

variable {n : ℕ} (c : KeepSettings) (s : SlotCtl n)

/-- A backend that is between two calls. -/
def Idle (k : ℕ) : Prop := s.Returned (.backend k) ∧ (s.backends k matches .idle)

instance (k : ℕ) : Decidable (s.Idle k) := inferInstanceAs (Decidable (_ ∧ _))

/-- One action. -/
def step : Action n → SlotCtl n
  | .insertWal len => { s with insertRecPtr := s.insertRecPtr + len }
  | .acquire k i =>
    if (s.slots i).activePid = none then
      s.modify i fun slot => { slot with activePid := some (.backend k) }
    else s
  | .release k i =>
    if (s.slots i).activePid = some (.backend k) ∧ s.Idle k then
      s.modify i fun slot => { slot with activePid := none }
    else s
  | .confirm k i lsn =>
    if (s.slots i).activePid = some (.backend k) ∧ s.Idle k then s.confirm k i lsn else s
  | .reserveWal k i =>
    if (s.slots i).activePid = some (.backend k) ∧
        (s.slots i).data.restartLsn = invalidXLogRecPtr ∧ s.Idle k then
      { s with backends := update s.backends k (.readPosition i) }
    else s
  | .computeRequiredLSN k => if s.Idle k then s.computeRequiredLSN (.backend k) else s
  | .saveSlot k i =>
    if (s.slots i).activePid = some (.backend k) ∧ s.Idle k then s.saveSlotToPath (.backend k) i
    else s
  | .compute p => s.computeStep p
  | .save p => s.saveStep p
  | .backend k => if s.Returned (.backend k) then s.backendStep c k else s
  | .beginCheckpoint =>
    match s.checkpoint with
    | .idle => { s with redoRecPtr := s.insertRecPtr, checkpoint := .guts 0 }
    | _ => s
  | .checkpointer => if s.Returned .checkpointer then s.checkpointerStep c else s
  | .removeFile seg => s.removeFile seg
  | .crash redoRecPtr insertRecPtr =>
    if c.segSize ≤ redoRecPtr ∧ redoRecPtr ≤ insertRecPtr then s.restart redoRecPtr insertRecPtr
    else s

end SlotCtl

/-- Segments of 16 MB, and no limit on what slots keep. -/
def defaultSegments : KeepSettings := ⟨0x1000000, by decide, none, 0⟩

/-- The slot of a server with one. -/
def onlySlot : Fin 1 := Fin.last 0

end PgCutover.Replication.SlotWal
