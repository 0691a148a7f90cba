import PgCutover.Sync.PendingOps

/-!
# Checkpoints that sync files

The backends, which forward requests, and the checkpointer, which absorbs them and processes them in
`ProcessSyncRequests`.
-/

namespace PgCutover.Sync

open Function List

/-- Where the checkpointer is in `ProcessSyncRequests`. -/
inductive Pc where
  | idle
  /-- The entries that the scan has still to visit, and the absorb counter. -/
  | scanning (todo : List FileTag) (absorbCounter : ℕ)
  /-- The loop that tries to sync one file. -/
  | syncing (tag : FileTag) (failures : ℕ) (todo : List FileTag) (absorbCounter : ℕ)

/-- What a sync of a file returns. -/
inductive FsyncResult where
  | success
  /-- `FILE_POSSIBLY_DELETED`. -/
  | possiblyDeleted
  | failure
  deriving DecidableEq

/-- The queue, the checkpointer's memory, and where the checkpointer is. -/
structure State where
  /-- The queue in shared memory. -/
  requests : List CheckpointerRequest
  sync : SyncState
  syncInProgress : Bool
  pc : Pc

/-- `FSYNCS_PER_ABSORB`. -/
def fsyncsPerAbsorb : ℕ := 10

namespace State

/-- Nothing is requested and no checkpoint is running. -/
def init : State := ⟨[], ⟨.empty, [], 0, 0⟩, false, .idle⟩

/-- `AbsorbSyncRequests`. -/
def absorbSyncRequests (s : State) : State :=
  { s with requests := [], sync := rememberAll s.sync s.requests }

/-- The state after a change of the table. -/
def setPendingOps (s : State) (ops : PendingOps) : State :=
  { s with sync := { s.sync with pendingOps := ops } }

/-- `AbsorbSyncRequests`, when no checkpoint is being processed. -/
def absorb (s : State) : Option State :=
  match s.pc with
  | .idle => some s.absorbSyncRequests
  | _ => none

/-- `SyncPreCheckpoint`. -/
def preCheckpoint (s : State) : Option State :=
  match s.pc with
  | .idle =>
    let s := s.absorbSyncRequests
    some { s with sync := { s.sync with checkpointCycleCtr := s.sync.checkpointCycleCtr + 1 } }
  | _ => none

/-- If the previous try failed, stale cycles are updated. -/
def updateStale (s : State) : State :=
  if s.syncInProgress then
    s.setPendingOps (s.sync.pendingOps.mapEntries fun entry =>
      (s.sync.syncCycleCtr, entry.canceled))
  else s

/-- `ProcessSyncRequests` up to its main loop. -/
def beginSync (s : State) : Option State :=
  match s.pc with
  | .idle =>
    let s := s.absorbSyncRequests.updateStale
    some { s with
      sync := { s.sync with syncCycleCtr := s.sync.syncCycleCtr + 1 }
      syncInProgress := true
      pc := .scanning (s.sync.pendingOps.entries.map PendingFsyncEntry.tag) fsyncsPerAbsorb }
  | _ => none

/-- The scan comes to an entry. -/
def visit (s : State) (tag : FileTag) : Option State :=
  match s.pc with
  | .scanning todo absorbCounter =>
    let todo := todo.filter (· ≠ tag)
    match s.sync.pendingOps.find? tag with
    | none => none
    | some entry =>
      -- the entry is new
      if entry.cycleCtr = s.sync.syncCycleCtr then
        some { s with pc := .scanning todo absorbCounter }
      else if absorbCounter - 1 ≤ 0 then
        some { s.absorbSyncRequests with pc := .syncing tag 0 todo fsyncsPerAbsorb }
      else some { s with pc := .syncing tag 0 todo (absorbCounter - 1) }
  | _ => none

/-- The file is synced, or the try fails. -/
def fsync (s : State) (tag : FileTag) (result : FsyncResult) : Option State :=
  match s.pc with
  | .syncing current failures todo absorbCounter =>
    if current = tag ∧ s.sync.pendingOps.live tag then
      match result with
      | .success =>
        some { s.setPendingOps (s.sync.pendingOps.remove tag) with
          pc := .scanning todo absorbCounter }
      | .possiblyDeleted =>
        if failures > 0 then some { s with pc := .idle }
        else
          some { s.absorbSyncRequests with
            pc := .syncing tag (failures + 1) todo fsyncsPerAbsorb }
      | .failure => some { s with pc := .idle }
    else none
  | _ => none

/-- An entry that is canceled is removed without a sync. -/
def dropCanceled (s : State) : Option State :=
  match s.pc with
  | .syncing tag _ todo absorbCounter =>
    if s.sync.pendingOps.live tag then none
    else some { s.setPendingOps (s.sync.pendingOps.remove tag) with
      pc := .scanning todo absorbCounter }
  | _ => none

/-- An error ends `ProcessSyncRequests`. -/
def fail (s : State) : Option State :=
  match s.pc with
  | .idle => none
  | _ => some { s with pc := .idle }

/-- The scan has visited all entries and `ProcessSyncRequests` completes. -/
def complete (s : State) : Option State :=
  match s.pc with
  | .scanning [] _ => some { s with syncInProgress := false, pc := .idle }
  | _ => none

end State

/-- What can happen next. -/
inductive Event where
  /-- A backend's request is accepted. -/
  | forward (request : CheckpointerRequest) (running inCritSection : Bool)
  | absorb
  | preCheckpoint
  | beginSync
  | visit (tag : FileTag)
  | fsync (tag : FileTag) (result : FsyncResult)
  | dropCanceled
  | fail
  | complete
  deriving DecidableEq

/-- An event of the system with a queue of the given length. -/
def step (maxRequests : ℕ) (s : State) : Event → Option State
  | .forward request running inCritSection =>
    (forwardSyncRequest maxRequests running inCritSection s.requests request).map fun requests =>
      { s with requests := requests }
  | .absorb => s.absorb
  | .preCheckpoint => s.preCheckpoint
  | .beginSync => s.beginSync
  | .visit tag => s.visit tag
  | .fsync tag result => s.fsync tag result
  | .dropCanceled => s.dropCanceled
  | .fail => s.fail
  | .complete => s.complete

end PgCutover.Sync
