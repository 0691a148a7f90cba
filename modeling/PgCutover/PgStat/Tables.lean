import Mathlib.Algebra.Order.Group.Int
import PgCutover.Lib.NestedXact
import PgCutover.Lib.Loops

/-!
# Relation statistics: counters and per-table records

The data of `pgstat.h` that the relation statistics work on, and the functions of
`pgstat_relation.c` that touch a single record or a single shared entry: saving and
restoring counters around a truncation, the end-of-transaction arithmetic of one
table, flushing pending counts, and the reports of `VACUUM` and `ANALYZE`.

A `PgStat_Counter`, 64 bits wide in the source, is an integer here. A backend's stack
of `PgStat_TableXactStatus` records of one table, linked through `upper` in the
source, is a list with the innermost level first.
-/

namespace PgCutover.PgStat

/-- `TimestampTz`, microseconds since 2000-01-01. -/
abbrev TimestampTz := ℤ

/-- Object identifiers are only ever compared here. -/
abbrev Oid := ℕ

/-- What identifies a pending table entry: `id` and `shared`, which also decides
between `InvalidOid` and `MyDatabaseId` as the database part of the key. -/
structure RelKey where
  id : Oid
  shared : Bool
  deriving DecidableEq, Repr

/-- The part of a relcache entry that the statistics code reads. -/
structure RelationData where
  key : RelKey
  pgstatEnabled : Bool
  isPartitionedTable : Bool
  deriving DecidableEq, Repr

/-- `pgstat_should_count_relation`: an entry without `pgstat_info` is associated on
the way when counting is enabled, so only the flag decides. -/
def pgstatShouldCountRelation (rel : RelationData) : Bool := rel.pgstatEnabled

/-- `PgStat_TableCounts`: the counts of one table kept by a backend. -/
structure PgStatTableCounts where
  numscans : ℤ := 0
  tuplesReturned : ℤ := 0
  tuplesFetched : ℤ := 0
  tuplesInserted : ℤ := 0
  tuplesUpdated : ℤ := 0
  tuplesDeleted : ℤ := 0
  tuplesHotUpdated : ℤ := 0
  tuplesNewpageUpdated : ℤ := 0
  truncdropped : Bool := false
  deltaLiveTuples : ℤ := 0
  deltaDeadTuples : ℤ := 0
  changedTuples : ℤ := 0
  blocksFetched : ℤ := 0
  blocksHit : ℤ := 0
  deriving DecidableEq, Repr

/-- `PgStat_TableXactStatus`: the counts of one table in one (sub)transaction. -/
structure PgStatTableXactStatus where
  tuplesInserted : ℤ := 0
  tuplesUpdated : ℤ := 0
  tuplesDeleted : ℤ := 0
  truncdropped : Bool := false
  insertedPreTruncdrop : ℤ := 0
  updatedPreTruncdrop : ℤ := 0
  deletedPreTruncdrop : ℤ := 0
  nestLevel : ℕ
  deriving DecidableEq, Repr

/-- `PgStat_TableStatus`: the pending counts and the stack of transactional
records, innermost level first. -/
structure PgStatTableStatus where
  trans : List PgStatTableXactStatus := []
  counts : PgStatTableCounts := {}
  deriving DecidableEq, Repr

namespace PgStatTableXactStatus

/-- `save_truncdrop_counters`: remember the counters at the first truncation of a
level, or at any drop. -/
def saveTruncdropCounters (trans : PgStatTableXactStatus) (isDrop : Bool) :
    PgStatTableXactStatus :=
  if !trans.truncdropped || isDrop then
    { trans with
      insertedPreTruncdrop := trans.tuplesInserted
      updatedPreTruncdrop := trans.tuplesUpdated
      deletedPreTruncdrop := trans.tuplesDeleted
      truncdropped := true }
  else trans

/-- `restore_truncdrop_counters`: bring back the saved counters when the level that
truncated aborts. -/
def restoreTruncdropCounters (trans : PgStatTableXactStatus) : PgStatTableXactStatus :=
  if trans.truncdropped then
    { trans with
      tuplesInserted := trans.insertedPreTruncdrop
      tuplesUpdated := trans.updatedPreTruncdrop
      tuplesDeleted := trans.deletedPreTruncdrop }
  else trans

/-- The three event counters set to zero, as truncating and dropping do. -/
def clearCounters (trans : PgStatTableXactStatus) : PgStatTableXactStatus :=
  { trans with tuplesInserted := 0, tuplesUpdated := 0, tuplesDeleted := 0 }

/-- The committed-subtransaction branch of `AtEOSubXact_PgStat_Relations` for a
record with an immediate parent: the parent after the child's record is merged. -/
def mergeInto (trans upper : PgStatTableXactStatus) : PgStatTableXactStatus :=
  if trans.truncdropped then
    { upper.saveTruncdropCounters false with
      tuplesInserted := trans.tuplesInserted
      tuplesUpdated := trans.tuplesUpdated
      tuplesDeleted := trans.tuplesDeleted }
  else
    { upper with
      tuplesInserted := upper.tuplesInserted + trans.tuplesInserted
      tuplesUpdated := upper.tuplesUpdated + trans.tuplesUpdated
      tuplesDeleted := upper.tuplesDeleted + trans.tuplesDeleted }

variable (trans : PgStatTableXactStatus)

@[simp] theorem saveTruncdropCounters_nestLevel (isDrop : Bool) :
    (trans.saveTruncdropCounters isDrop).nestLevel = trans.nestLevel := by
  unfold saveTruncdropCounters
  split_ifs <;> rfl

@[simp] theorem saveTruncdropCounters_truncdropped
    (isDrop : Bool) : (trans.saveTruncdropCounters isDrop).truncdropped = true := by
  unfold saveTruncdropCounters
  split_ifs with h
  · rfl
  · simp only [Bool.or_eq_true, Bool.not_eq_eq_eq_not, Bool.not_true, not_or,
      Bool.not_eq_false, Bool.not_eq_true] at h
    exact h.1

@[simp] theorem mergeInto_nestLevel (upper : PgStatTableXactStatus) :
    (trans.mergeInto upper).nestLevel = upper.nestLevel := by
  unfold mergeInto
  split_ifs <;> simp

theorem mergeInto_truncdropped (upper : PgStatTableXactStatus) :
    (trans.mergeInto upper).truncdropped = (trans.truncdropped || upper.truncdropped) := by
  unfold mergeInto
  split_ifs with h <;> simp [h]

end PgStatTableXactStatus

namespace PgStatTableCounts

/-- Attempted actions count regardless of the outcome. -/
def countAttempted (counts : PgStatTableCounts) (inserted updated deleted : ℤ) :
    PgStatTableCounts :=
  { counts with
    tuplesInserted := counts.tuplesInserted + inserted
    tuplesUpdated := counts.tuplesUpdated + updated
    tuplesDeleted := counts.tuplesDeleted + deleted }

/-- The commit case of `AtEOXact_PgStat_Relations` for one record. -/
def commitXact (counts : PgStatTableCounts) (trans : PgStatTableXactStatus) :
    PgStatTableCounts :=
  let counts := counts.countAttempted trans.tuplesInserted trans.tuplesUpdated trans.tuplesDeleted
  let counts := { counts with truncdropped := trans.truncdropped }
  let counts := if trans.truncdropped then
    -- forget live/dead stats seen by backend thus far
    { counts with deltaLiveTuples := 0, deltaDeadTuples := 0 } else counts
  { counts with
    deltaLiveTuples := counts.deltaLiveTuples + (trans.tuplesInserted - trans.tuplesDeleted)
    deltaDeadTuples := counts.deltaDeadTuples + (trans.tuplesUpdated + trans.tuplesDeleted)
    changedTuples := counts.changedTuples +
      (trans.tuplesInserted + trans.tuplesUpdated + trans.tuplesDeleted) }

/-- The abort case, shared by `AtEOXact_PgStat_Relations` and
`AtEOSubXact_PgStat_Relations`: inserted tuples are dead, deleted ones unaffected. -/
def abortXact (counts : PgStatTableCounts) (trans : PgStatTableXactStatus) :
    PgStatTableCounts :=
  let trans := trans.restoreTruncdropCounters
  let counts := counts.countAttempted trans.tuplesInserted trans.tuplesUpdated trans.tuplesDeleted
  { counts with
    deltaDeadTuples := counts.deltaDeadTuples + (trans.tuplesInserted + trans.tuplesUpdated) }

variable (counts : PgStatTableCounts) (trans : PgStatTableXactStatus)

@[simp] theorem commitXact_truncdropped :
    (counts.commitXact trans).truncdropped = trans.truncdropped := by
  unfold commitXact
  split_ifs <;> simp

theorem commitXact_deltaLiveTuples :
    (counts.commitXact trans).deltaLiveTuples =
      (if trans.truncdropped then 0 else counts.deltaLiveTuples) +
        (trans.tuplesInserted - trans.tuplesDeleted) := by
  unfold commitXact
  split_ifs <;> simp [countAttempted]

@[simp] theorem abortXact_truncdropped :
    (counts.abortXact trans).truncdropped = counts.truncdropped := rfl

@[simp] theorem abortXact_deltaLiveTuples :
    (counts.abortXact trans).deltaLiveTuples = counts.deltaLiveTuples := rfl

end PgStatTableCounts

/-- `PgStat_StatTabEntry`: the shared statistics of one table. The four totals are
cumulative microseconds. -/
structure PgStatStatTabEntry where
  numscans : ℤ := 0
  lastscan : TimestampTz := 0
  tuplesReturned : ℤ := 0
  tuplesFetched : ℤ := 0
  tuplesInserted : ℤ := 0
  tuplesUpdated : ℤ := 0
  tuplesDeleted : ℤ := 0
  tuplesHotUpdated : ℤ := 0
  tuplesNewpageUpdated : ℤ := 0
  liveTuples : ℤ := 0
  deadTuples : ℤ := 0
  modSinceAnalyze : ℤ := 0
  insSinceVacuum : ℤ := 0
  blocksFetched : ℤ := 0
  blocksHit : ℤ := 0
  lastVacuumTime : TimestampTz := 0
  vacuumCount : ℤ := 0
  totalVacuumTime : ℤ := 0
  lastAutovacuumTime : TimestampTz := 0
  autovacuumCount : ℤ := 0
  totalAutovacuumTime : ℤ := 0
  lastAnalyzeTime : TimestampTz := 0
  analyzeCount : ℤ := 0
  totalAnalyzeTime : ℤ := 0
  lastAutoanalyzeTime : TimestampTz := 0
  autoanalyzeCount : ℤ := 0
  totalAutoanalyzeTime : ℤ := 0
  deriving DecidableEq, Repr

/-- The counters of a pending `PgStat_StatDBEntry` that a table flush adds to. -/
structure PgStatStatDBEntry where
  tuplesReturned : ℤ := 0
  tuplesFetched : ℤ := 0
  tuplesInserted : ℤ := 0
  tuplesUpdated : ℤ := 0
  tuplesDeleted : ℤ := 0
  blocksFetched : ℤ := 0
  blocksHit : ℤ := 0
  deriving DecidableEq, Repr

/-- The update of the shared entry in `pgstat_relation_flush_cb`, made under the
entry lock. `stopTime` is `GetCurrentTransactionStopTimestamp()`. -/
def PgStatStatTabEntry.addCounts (tabentry : PgStatStatTabEntry) (counts : PgStatTableCounts)
    (stopTime : TimestampTz) : PgStatStatTabEntry :=
  let tabentry := { tabentry with
    numscans := tabentry.numscans + counts.numscans
    lastscan := if counts.numscans ≠ 0 ∧ stopTime > tabentry.lastscan then stopTime
      else tabentry.lastscan
    tuplesReturned := tabentry.tuplesReturned + counts.tuplesReturned
    tuplesFetched := tabentry.tuplesFetched + counts.tuplesFetched
    tuplesInserted := tabentry.tuplesInserted + counts.tuplesInserted
    tuplesUpdated := tabentry.tuplesUpdated + counts.tuplesUpdated
    tuplesDeleted := tabentry.tuplesDeleted + counts.tuplesDeleted
    tuplesHotUpdated := tabentry.tuplesHotUpdated + counts.tuplesHotUpdated
    tuplesNewpageUpdated := tabentry.tuplesNewpageUpdated + counts.tuplesNewpageUpdated }
  let tabentry := if counts.truncdropped then
    { tabentry with liveTuples := 0, deadTuples := 0, insSinceVacuum := 0 } else tabentry
  let tabentry := { tabentry with
    liveTuples := tabentry.liveTuples + counts.deltaLiveTuples
    deadTuples := tabentry.deadTuples + counts.deltaDeadTuples
    modSinceAnalyze := tabentry.modSinceAnalyze + counts.changedTuples
    insSinceVacuum := tabentry.insSinceVacuum + counts.tuplesInserted
    blocksFetched := tabentry.blocksFetched + counts.blocksFetched
    blocksHit := tabentry.blocksHit + counts.blocksHit }
  { tabentry with
    liveTuples := max tabentry.liveTuples 0
    deadTuples := max tabentry.deadTuples 0 }

/-- The same counts added to the pending database entry. -/
def PgStatStatDBEntry.addCounts (dbentry : PgStatStatDBEntry) (counts : PgStatTableCounts) :
    PgStatStatDBEntry where
  tuplesReturned := dbentry.tuplesReturned + counts.tuplesReturned
  tuplesFetched := dbentry.tuplesFetched + counts.tuplesFetched
  tuplesInserted := dbentry.tuplesInserted + counts.tuplesInserted
  tuplesUpdated := dbentry.tuplesUpdated + counts.tuplesUpdated
  tuplesDeleted := dbentry.tuplesDeleted + counts.tuplesDeleted
  blocksFetched := dbentry.blocksFetched + counts.blocksFetched
  blocksHit := dbentry.blocksHit + counts.blocksHit

/-- `pgstat_relation_flush_cb`: `none` when the entry lock is not available and
`nowait` forbids to wait for it, else the shared and the database entry. -/
def pgstatRelationFlushCb (lockAvailable nowait : Bool) (stopTime : TimestampTz)
    (counts : PgStatTableCounts) (tabentry : PgStatStatTabEntry) (dbentry : PgStatStatDBEntry) :
    Option (PgStatStatTabEntry × PgStatStatDBEntry) :=
  if counts = {} then some (tabentry, dbentry)
  else if nowait && !lockAvailable then none
  else some (tabentry.addCounts counts stopTime, dbentry.addCounts counts)

/-- What a flush that succeeds leaves in the shared entry. -/
def PgStatStatTabEntry.flushed (tabentry : PgStatStatTabEntry) (counts : PgStatTableCounts)
    (stopTime : TimestampTz) : PgStatStatTabEntry :=
  if counts = {} then tabentry else tabentry.addCounts counts stopTime

/-!
## Transactional statistics of a backend

The state behind `pgstat_xact.c` and the transactional half of `pgstat_relation.c`: the stack of
`PgStat_SubXactStatus` entries, allocated lazily for the levels that need one, the pending entry of
every table, and the stats items registered for a transactional drop.
-/

open Lib

/-- The kinds of objects with statistics. -/
inductive PgStatKind
  | invalid | database | relation | function | replslot | subscription
  | archiver | bgwriter | checkpointer | io | slru | wal
  deriving DecidableEq, Repr

/-- `xl_xact_stats_item`: what names a stats entry, in memory and in WAL. -/
structure XlXactStatsItem where
  kind : PgStatKind
  dboid : Oid
  objoid : Oid
  deriving DecidableEq, Repr

/-- `PgStat_PendingDroppedStatsItem`: an item to drop at abort when it was created,
at commit when it was dropped. -/
structure PgStatPendingDroppedStatsItem where
  item : XlXactStatsItem
  isCreate : Bool
  deriving DecidableEq, Repr

/-- `PgStat_SubXactStatus`: the transactional statistics of one nesting level. -/
structure PgStatSubXactStatus where
  nestLevel : ℕ
  pendingDrops : List PgStatPendingDroppedStatsItem := []
  first : List RelKey := []
  deriving DecidableEq, Repr

/-- The statistics state of a backend. `nestLevel` is what
`GetCurrentTransactionNestLevel()` returns, zero outside of a transaction. `dropped`
records, in order, the registrations for which `pgstat_drop_entry` was called. -/
structure Backend where
  nestLevel : ℕ := 0
  pgStatXactStack : List PgStatSubXactStatus := []
  pending : RelKey → PgStatTableStatus := fun _ => {}
  dropped : List PgStatPendingDroppedStatsItem := []

/-- The stack after `pgstat_get_xact_stack_level`: an entry for the level is pushed
unless the newest one belongs to it. -/
def pushLevel (stack : List PgStatSubXactStatus) (nestLevel : ℕ) : List PgStatSubXactStatus :=
  match stack with
  | [] => [{ nestLevel := nestLevel }]
  | top :: prev =>
    if top.nestLevel ≠ nestLevel then { nestLevel := nestLevel } :: top :: prev else top :: prev

/-- Change the newest entry, the one `pgstat_get_xact_stack_level` returns. -/
def modifyTop (f : PgStatSubXactStatus → PgStatSubXactStatus) :
    List PgStatSubXactStatus → List PgStatSubXactStatus
  | [] => []
  | top :: prev => f top :: prev

/-- Link a record of the table into the entry of the given level. -/
def linkStack (stack : List PgStatSubXactStatus) (nestLevel : ℕ) (rel : RelKey) :
    List PgStatSubXactStatus :=
  modifyTop (fun top => { top with first := rel :: top.first }) (pushLevel stack nestLevel)

/-- Append registrations to the entry of the given level. -/
def appendDrops (stack : List PgStatSubXactStatus) (nestLevel : ℕ)
    (drops : List PgStatPendingDroppedStatsItem) : List PgStatSubXactStatus :=
  modifyTop (fun top => { top with pendingDrops := top.pendingDrops ++ drops })
    (pushLevel stack nestLevel)

namespace Backend

/-- The backend after a change of one table's counts. -/
def setPending (s : Backend) (rel : RelKey) (tabstat : PgStatTableStatus) : Backend :=
  { s with pending := Function.update s.pending rel tabstat }

/-- `pgstat_get_xact_stack_level`. -/
def pgstatGetXactStackLevel (s : Backend) (nestLevel : ℕ) : Backend :=
  { s with pgStatXactStack := pushLevel s.pgStatXactStack nestLevel }

/-- Link a record of the table into the entry of the given level. -/
def linkRelation (s : Backend) (nestLevel : ℕ) (rel : RelKey) : Backend :=
  { s with pgStatXactStack := linkStack s.pgStatXactStack nestLevel rel }

/-- `add_tabstat_xact_level`. -/
def addTabstatXactLevel (s : Backend) (rel : RelKey) (nestLevel : ℕ) : Backend :=
  let s := s.linkRelation nestLevel rel
  let tabstat := s.pending rel
  s.setPending rel { tabstat with trans := { nestLevel := nestLevel } :: tabstat.trans }

/-- `ensure_tabstat_xact_level`. -/
def ensureTabstatXactLevel (s : Backend) (rel : RelKey) : Backend :=
  match (s.pending rel).trans with
  | [] => s.addTabstatXactLevel rel s.nestLevel
  | newest :: _ =>
    if newest.nestLevel ≠ s.nestLevel then s.addTabstatXactLevel rel s.nestLevel else s

/-- Change the newest transactional record of a table, `pgstat_info->trans`. -/
def modifyTrans (s : Backend) (rel : RelKey)
    (f : PgStatTableXactStatus → PgStatTableXactStatus) : Backend :=
  match (s.pending rel).trans with
  | [] => s
  | newest :: upper => s.setPending rel { s.pending rel with trans := f newest :: upper }

/-- `pgstat_count_heap_insert`. -/
def pgstatCountHeapInsert (s : Backend) (rel : RelationData) (n : ℤ) : Backend :=
  if pgstatShouldCountRelation rel then
    (s.ensureTabstatXactLevel rel.key).modifyTrans rel.key fun trans =>
      { trans with tuplesInserted := trans.tuplesInserted + n }
  else s

/-- `pgstat_count_heap_update`: the counters of HOT and new-page updates are
nontransactional. -/
def pgstatCountHeapUpdate (s : Backend) (rel : RelationData) (hot newpage : Bool) : Backend :=
  if pgstatShouldCountRelation rel then
    let s := (s.ensureTabstatXactLevel rel.key).modifyTrans rel.key fun trans =>
      { trans with tuplesUpdated := trans.tuplesUpdated + 1 }
    let tabstat := s.pending rel.key
    if hot then
      s.setPending rel.key { tabstat with
        counts.tuplesHotUpdated := tabstat.counts.tuplesHotUpdated + 1 }
    else if newpage then
      s.setPending rel.key { tabstat with
        counts.tuplesNewpageUpdated := tabstat.counts.tuplesNewpageUpdated + 1 }
    else s
  else s

/-- `pgstat_count_heap_delete`. -/
def pgstatCountHeapDelete (s : Backend) (rel : RelationData) : Backend :=
  if pgstatShouldCountRelation rel then
    (s.ensureTabstatXactLevel rel.key).modifyTrans rel.key fun trans =>
      { trans with tuplesDeleted := trans.tuplesDeleted + 1 }
  else s

/-- `pgstat_count_truncate`. -/
def pgstatCountTruncate (s : Backend) (rel : RelationData) : Backend :=
  if pgstatShouldCountRelation rel then
    (s.ensureTabstatXactLevel rel.key).modifyTrans rel.key fun trans =>
      (trans.saveTruncdropCounters false).clearCounters
  else s

/-- `create_drop_transactional_internal`. -/
def createDropTransactionalInternal (s : Backend) (item : XlXactStatsItem) (isCreate : Bool) :
    Backend :=
  let drop := { item := item, isCreate := isCreate }
  { s with pgStatXactStack := appendDrops s.pgStatXactStack s.nestLevel [drop] }

/-- `pgstat_create_transactional`: the item is dropped if the (sub)transaction
aborts. -/
def pgstatCreateTransactional (s : Backend) (item : XlXactStatsItem) : Backend :=
  s.createDropTransactionalInternal item true

/-- `pgstat_drop_transactional`: the item is dropped if the transaction commits. -/
def pgstatDropTransactional (s : Backend) (item : XlXactStatsItem) : Backend :=
  s.createDropTransactionalInternal item false

/-- One iteration of the loop of `AtEOXact_PgStat_Relations`. -/
def endXactRelation (isCommit : Bool) (s : Backend) (rel : RelKey) : Backend :=
  match s.pending rel with
  | { trans := [], .. } => s
  | { trans := newest :: _, counts } =>
    s.setPending rel
      { trans := []
        counts := if isCommit then counts.commitXact newest else counts.abortXact newest }

/-- `AtEOXact_PgStat_Relations`. -/
def atEOXactPgStatRelations (s : Backend) (xactState : PgStatSubXactStatus) (isCommit : Bool) :
    Backend :=
  xactState.first.foldl (endXactRelation isCommit) s

/-- `AtEOXact_PgStat_DroppedStats`: a commit drops what was dropped, an abort drops
what was created. -/
def atEOXactPgStatDroppedStats (s : Backend) (xactState : PgStatSubXactStatus)
    (isCommit : Bool) : Backend :=
  { s with dropped := s.dropped ++ xactState.pendingDrops.filter fun pending =>
      (isCommit && !pending.isCreate) || (!isCommit && pending.isCreate) }

/-- `AtEOXact_PgStat`, less the database-wide counters. -/
def atEOXactPgStat (s : Backend) (isCommit : Bool) : Backend :=
  let s := match s.pgStatXactStack with
    | [] => s
    | xactState :: _ =>
      (s.atEOXactPgStatRelations xactState isCommit).atEOXactPgStatDroppedStats xactState isCommit
  { s with pgStatXactStack := [] }

/-- One iteration of the loop of `AtEOSubXact_PgStat_Relations`. On commit the record
is merged into the immediate parent's, or reused for the parent level when that has
none; on abort it is accounted for as dead and forgotten. -/
def endSubXactRelation (isCommit : Bool) (nestDepth : ℕ) (s : Backend) (rel : RelKey) : Backend :=
  match s.pending rel with
  | { trans := [], .. } => s
  | { trans := newest :: uppers, counts } =>
    if isCommit then
      match uppers with
      | [] =>
        (s.linkRelation (nestDepth - 1) rel).setPending rel
          { trans := [{ newest with nestLevel := nestDepth - 1 }], counts := counts }
      | upper :: rest =>
        if upper.nestLevel = nestDepth - 1 then
          s.setPending rel { trans := newest.mergeInto upper :: rest, counts := counts }
        else
          (s.linkRelation (nestDepth - 1) rel).setPending rel
            { trans := { newest with nestLevel := nestDepth - 1 } :: upper :: rest
              counts := counts }
    else
      s.setPending rel { trans := uppers, counts := counts.abortXact newest }

/-- `AtEOSubXact_PgStat_Relations`. -/
def atEOSubXactPgStatRelations (s : Backend) (xactState : PgStatSubXactStatus)
    (isCommit : Bool) (nestDepth : ℕ) : Backend :=
  xactState.first.foldl (endSubXactRelation isCommit nestDepth) s

/-- `AtEOSubXact_PgStat_DroppedStats`: on commit every registration moves to the
parent level, on abort what was created is dropped and the rest forgotten. -/
def atEOSubXactPgStatDroppedStats (s : Backend) (xactState : PgStatSubXactStatus)
    (isCommit : Bool) (nestDepth : ℕ) : Backend :=
  if xactState.pendingDrops = [] then s
  else if isCommit then
    { s with pgStatXactStack :=
        appendDrops s.pgStatXactStack (nestDepth - 1) xactState.pendingDrops }
  else
    { s.pgstatGetXactStackLevel (nestDepth - 1) with
      dropped := s.dropped ++ xactState.pendingDrops.filter (·.isCreate) }

/-- `AtEOSubXact_PgStat`: only an entry of the ending level is merged or undone. -/
def atEOSubXactPgStat (s : Backend) (isCommit : Bool) (nestDepth : ℕ) : Backend :=
  match s.pgStatXactStack with
  | [] => s
  | xactState :: prev =>
    if xactState.nestLevel ≥ nestDepth then
      let s := { s with pgStatXactStack := prev }
      (s.atEOSubXactPgStatRelations xactState isCommit nestDepth).atEOSubXactPgStatDroppedStats
        xactState isCommit nestDepth
    else s

/-- `pgstat_get_transactional_drops`: the items of the newest stack entry that the
commit or abort record has to name. -/
def pgstatGetTransactionalDrops (s : Backend) (isCommit : Bool) : List XlXactStatsItem :=
  match s.pgStatXactStack with
  | [] => []
  | xactState :: _ =>
    (xactState.pendingDrops.filter fun pending =>
      !(isCommit && pending.isCreate) && !(!isCommit && !pending.isCreate)).map (·.item)

/-! ### Transaction boundaries -/

/-- Start a transaction, or a subtransaction inside of one. -/
def beginXact (s : Backend) : Backend := { s with nestLevel := s.nestLevel + 1 }

/-- End the current (sub)transaction: `AtEOSubXact_PgStat` at an inner level,
`AtEOXact_PgStat` at the outermost one. -/
def endXact (s : Backend) (isCommit : Bool) : Backend :=
  let ended := if s.nestLevel ≤ 1 then s.atEOXactPgStat isCommit
    else s.atEOSubXactPgStat isCommit s.nestLevel
  { ended with nestLevel := s.nestLevel - 1 }

end Backend

/-- Operations on the rows of a table. -/
inductive RowOp
  | insert (rel : RelationData) (n : ℕ)
  | update (rel : RelationData) (hot newpage : Bool)
  | delete (rel : RelationData)
  | truncate (rel : RelationData)
  deriving DecidableEq, Repr

/-- The statistics call made for a row operation. -/
def RowOp.count (op : RowOp) (s : Backend) : Backend :=
  match op with
  | .insert rel n => s.pgstatCountHeapInsert rel n
  | .update rel hot newpage => s.pgstatCountHeapUpdate rel hot newpage
  | .delete rel => s.pgstatCountHeapDelete rel
  | .truncate rel => s.pgstatCountTruncate rel

/-- What a (sub)transaction can do that the statistics follow: change rows of a
table, or register a stats item. -/
inductive XactOp
  | row (op : RowOp)
  | create (item : XlXactStatsItem)
  | drop (item : XlXactStatsItem)
  deriving DecidableEq, Repr

/-- The statistics call made for an operation. -/
def XactOp.count (op : XactOp) (s : Backend) : Backend :=
  match op with
  | .row op => op.count s
  | .create item => s.pgstatCreateTransactional item
  | .drop item => s.pgstatDropTransactional item

/-- The statistics code as a machine that follows nested transactions, for any kind
of operation and the call made for it. -/
def backendMachine {α : Type*} (count : α → Backend → Backend) : NestedMachine Backend α where
  act := count
  enter := Backend.beginXact
  commit s := s.endXact true
  abort s := s.endXact false

@[simp] theorem backendMachine_leave {α : Type*} (count : α → Backend → Backend)
    (isCommit : Bool) (s : Backend) :
    (backendMachine count).leave isCommit s = s.endXact isCommit := by
  cases isCommit <;> rfl

/-!
## What each step does to one table

Every function of the transactional statistics rewrites the pending entries table by table.
-/

namespace PgStatTableStatus

/-- The nesting levels of the table's records, innermost first. -/
def levels (tabstat : PgStatTableStatus) : List ℕ := tabstat.trans.map (·.nestLevel)

/-- The newest record belongs to the given level. -/
def AtLevel (tabstat : PgStatTableStatus) (n : ℕ) : Prop := tabstat.levels.head? = some n

instance (tabstat : PgStatTableStatus) (n : ℕ) : Decidable (tabstat.AtLevel n) :=
  inferInstanceAs (Decidable (_ = _))

@[simp] theorem atLevel_nil (counts : PgStatTableCounts) (n : ℕ) :
    ¬ AtLevel { trans := [], counts := counts } n := by
  simp [AtLevel, levels]

@[simp] theorem atLevel_cons (newest : PgStatTableXactStatus)
    (upper : List PgStatTableXactStatus) (counts : PgStatTableCounts) (n : ℕ) :
    AtLevel { trans := newest :: upper, counts := counts } n ↔ newest.nestLevel = n := by
  simp [AtLevel, levels]

/-- Push an empty record unless the newest one belongs to the level. -/
def ensureLevel (tabstat : PgStatTableStatus) (n : ℕ) : PgStatTableStatus :=
  if tabstat.AtLevel n then tabstat
  else { tabstat with trans := { nestLevel := n } :: tabstat.trans }

/-- Change the newest record. -/
def modifyNewest (tabstat : PgStatTableStatus)
    (f : PgStatTableXactStatus → PgStatTableXactStatus) : PgStatTableStatus :=
  match tabstat.trans with
  | [] => tabstat
  | newest :: upper => { tabstat with trans := f newest :: upper }

@[simp] theorem ensureLevel_counts (tabstat : PgStatTableStatus) (n : ℕ) :
    (tabstat.ensureLevel n).counts = tabstat.counts := by
  unfold ensureLevel
  split_ifs <;> rfl

@[simp] theorem modifyNewest_counts (tabstat : PgStatTableStatus)
    (f : PgStatTableXactStatus → PgStatTableXactStatus) :
    (tabstat.modifyNewest f).counts = tabstat.counts := by
  unfold modifyNewest
  split <;> rfl

/-- The end of a subtransaction for a table that has a record of it. -/
def endSub (isCommit : Bool) (nestDepth : ℕ) (tabstat : PgStatTableStatus) :
    PgStatTableStatus :=
  match tabstat with
  | { trans := [], .. } => tabstat
  | { trans := newest :: uppers, counts } =>
    if isCommit then
      match uppers with
      | [] => { trans := [{ newest with nestLevel := nestDepth - 1 }], counts := counts }
      | upper :: rest =>
        if upper.nestLevel = nestDepth - 1 then
          { trans := newest.mergeInto upper :: rest, counts := counts }
        else
          { trans := { newest with nestLevel := nestDepth - 1 } :: upper :: rest
            counts := counts }
    else { trans := uppers, counts := counts.abortXact newest }

/-- A committed record is reused for the parent level when the table has no record
there. -/
def Reuses (isCommit : Bool) (nestDepth : ℕ) (tabstat : PgStatTableStatus) : Prop :=
  isCommit = true ∧ tabstat.trans ≠ [] ∧ tabstat.levels.tail.head? ≠ some (nestDepth - 1)

instance (isCommit : Bool) (nestDepth : ℕ) (tabstat : PgStatTableStatus) :
    Decidable (tabstat.Reuses isCommit nestDepth) :=
  inferInstanceAs (Decidable (_ ∧ _ ∧ _))

/-- The end of a transaction for a table that has a record of it. -/
def endTop (isCommit : Bool) (tabstat : PgStatTableStatus) : PgStatTableStatus :=
  match tabstat with
  | { trans := [], .. } => tabstat
  | { trans := newest :: _, counts } =>
    { trans := []
      counts := if isCommit then counts.commitXact newest else counts.abortXact newest }

@[simp] theorem endSub_abort_trans (nestDepth : ℕ) (tabstat : PgStatTableStatus) :
    (tabstat.endSub false nestDepth).trans = tabstat.trans.tail := by
  rcases tabstat with ⟨_ | ⟨newest, upper⟩, counts⟩ <;> rfl

@[simp] theorem endSub_deltaLiveTuples (isCommit : Bool) (nestDepth : ℕ)
    (tabstat : PgStatTableStatus) :
    (tabstat.endSub isCommit nestDepth).counts.deltaLiveTuples =
      tabstat.counts.deltaLiveTuples := by
  unfold endSub
  rcases tabstat with ⟨_ | ⟨_, _ | ⟨upper, _⟩⟩, _⟩
  · rfl
  · cases isCommit <;> rfl
  · cases isCommit with
    | false => rfl
    | true => by_cases hlevel : upper.nestLevel = nestDepth - 1 <;> simp [hlevel]

@[simp] theorem endSub_truncdropped (isCommit : Bool) (nestDepth : ℕ)
    (tabstat : PgStatTableStatus) :
    (tabstat.endSub isCommit nestDepth).counts.truncdropped = tabstat.counts.truncdropped := by
  unfold endSub
  rcases tabstat with ⟨_ | ⟨_, _ | ⟨upper, _⟩⟩, _⟩
  · rfl
  · cases isCommit <;> rfl
  · cases isCommit with
    | false => rfl
    | true => by_cases hlevel : upper.nestLevel = nestDepth - 1 <;> simp [hlevel]

end PgStatTableStatus

namespace RowOp

/-- The relation an operation works on. -/
def rel : RowOp → RelationData
  | insert rel _ => rel
  | update rel _ _ => rel
  | delete rel => rel
  | truncate rel => rel

/-- The change an operation makes to the record of the current level. -/
def record : RowOp → PgStatTableXactStatus → PgStatTableXactStatus
  | insert _ n, newest => { newest with tuplesInserted := newest.tuplesInserted + n }
  | update _ _ _, newest => { newest with tuplesUpdated := newest.tuplesUpdated + 1 }
  | delete _, newest => { newest with tuplesDeleted := newest.tuplesDeleted + 1 }
  | truncate _, newest => (newest.saveTruncdropCounters false).clearCounters

/-- The change an operation makes to the nontransactional counters. -/
def direct : RowOp → PgStatTableCounts → PgStatTableCounts
  | update _ hot newpage, counts =>
    if hot then { counts with tuplesHotUpdated := counts.tuplesHotUpdated + 1 }
    else if newpage then { counts with tuplesNewpageUpdated := counts.tuplesNewpageUpdated + 1 }
    else counts
  | _, counts => counts

/-- The change an operation made at level `n` makes to its table. -/
def onTable (op : RowOp) (n : ℕ) (tabstat : PgStatTableStatus) : PgStatTableStatus :=
  let tabstat := (tabstat.ensureLevel n).modifyNewest op.record
  { tabstat with counts := op.direct tabstat.counts }

@[simp] theorem onTable_counts (op : RowOp) (n : ℕ) (tabstat : PgStatTableStatus) :
    (op.onTable n tabstat).counts = op.direct tabstat.counts := by
  simp [onTable]

@[simp] theorem record_nestLevel (op : RowOp) (trans : PgStatTableXactStatus) :
    (op.record trans).nestLevel = trans.nestLevel := by
  cases op <;> simp [record, PgStatTableXactStatus.clearCounters]

@[simp] theorem direct_truncdropped (op : RowOp) (counts : PgStatTableCounts) :
    (op.direct counts).truncdropped = counts.truncdropped := by
  cases op with
  | update _ hot newpage => cases hot <;> cases newpage <;> rfl
  | _ => rfl

@[simp] theorem direct_deltaLiveTuples (op : RowOp) (counts : PgStatTableCounts) :
    (op.direct counts).deltaLiveTuples = counts.deltaLiveTuples := by
  cases op with
  | update _ hot newpage => cases hot <;> cases newpage <;> rfl
  | _ => rfl

end RowOp

namespace Backend

variable (s : Backend) (rel : RelKey) (f : PgStatTableXactStatus → PgStatTableXactStatus)
  (isCommit : Bool)

@[simp] theorem setPending_pending (tabstat : PgStatTableStatus) :
    (s.setPending rel tabstat).pending = Function.update s.pending rel tabstat := rfl

@[simp] theorem setPending_stack (tabstat : PgStatTableStatus) :
    (s.setPending rel tabstat).pgStatXactStack = s.pgStatXactStack := rfl

@[simp] theorem beginXact_nestLevel : s.beginXact.nestLevel = s.nestLevel + 1 := rfl

@[simp] theorem beginXact_stack :
    s.beginXact.pgStatXactStack = s.pgStatXactStack := rfl

@[simp] theorem beginXact_pending : s.beginXact.pending = s.pending := rfl

/-- A record is pushed, and the table linked, exactly when the newest record does not
belong to the current level. -/
theorem ensureTabstatXactLevel_eq :
    s.ensureTabstatXactLevel rel =
      { s with
        pgStatXactStack := if (s.pending rel).AtLevel s.nestLevel then s.pgStatXactStack
          else linkStack s.pgStatXactStack s.nestLevel rel
        pending := Function.update s.pending rel ((s.pending rel).ensureLevel s.nestLevel) } := by
  unfold ensureTabstatXactLevel PgStatTableStatus.ensureLevel
  rcases hp : s.pending rel with ⟨_ | ⟨newest, _⟩, _⟩
  · simp [addTabstatXactLevel, linkRelation, setPending, hp]
  · by_cases hlevel : newest.nestLevel = s.nestLevel
    · simp only [hlevel, ne_eq, not_true_eq_false, if_false, PgStatTableStatus.atLevel_cons,
        if_true]
      rw [← hp, Function.update_eq_self]
    · simp [hlevel, addTabstatXactLevel, linkRelation, setPending, hp]

theorem modifyTrans_eq :
    s.modifyTrans rel f = s.setPending rel ((s.pending rel).modifyNewest f) := by
  unfold modifyTrans PgStatTableStatus.modifyNewest
  rcases hp : s.pending rel with ⟨_ | ⟨_, _⟩, _⟩
  · simp [setPending, ← hp]
  · rfl

/-- What every counting function does first: make sure of a record at the current
level and change it. -/
theorem modifyTrans_ensureTabstatXactLevel :
    (s.ensureTabstatXactLevel rel).modifyTrans rel f =
      { s with
        pgStatXactStack := if (s.pending rel).AtLevel s.nestLevel then s.pgStatXactStack
          else linkStack s.pgStatXactStack s.nestLevel rel
        pending := Function.update s.pending rel
          (((s.pending rel).ensureLevel s.nestLevel).modifyNewest f) } := by
  rw [modifyTrans_eq, ensureTabstatXactLevel_eq]
  simp [setPending]

/-- One iteration of the subtransaction loop rewrites the entry of its own table. -/
theorem endSubXactRelation_pending (nestDepth : ℕ) (s : Backend)
    (rel : RelKey) :
    (s.endSubXactRelation isCommit nestDepth rel).pending =
      Function.update s.pending rel ((s.pending rel).endSub isCommit nestDepth) := by
  unfold endSubXactRelation PgStatTableStatus.endSub
  rcases hp : s.pending rel with ⟨_ | ⟨_, _ | ⟨upper, _⟩⟩, _⟩
  · simp [← hp]
  · cases isCommit <;> rfl
  · cases isCommit with
    | false => rfl
    | true =>
      by_cases hlevel : upper.nestLevel = nestDepth - 1
      · simp [hlevel]
      · simp [hlevel, linkRelation]

/-- The table is linked into the parent level exactly when its record is reused
there. -/
theorem endSubXactRelation_stack (nestDepth : ℕ) (s : Backend)
    (rel : RelKey) :
    (s.endSubXactRelation isCommit nestDepth rel).pgStatXactStack =
      if (s.pending rel).Reuses isCommit nestDepth then
        linkStack s.pgStatXactStack (nestDepth - 1) rel
      else s.pgStatXactStack := by
  unfold endSubXactRelation PgStatTableStatus.Reuses
  rcases hp : s.pending rel with ⟨_ | ⟨_, _ | ⟨upper, _⟩⟩, _⟩
  · simp
  · cases isCommit <;> simp [linkRelation, PgStatTableStatus.levels]
  · cases isCommit with
    | false => simp
    | true =>
      by_cases hlevel : upper.nestLevel = nestDepth - 1
      · simp [hlevel, PgStatTableStatus.levels]
      · simp [hlevel, linkRelation, PgStatTableStatus.levels]

@[simp] theorem endSubXactRelation_dropped (nestDepth : ℕ) (s : Backend)
    (rel : RelKey) : (s.endSubXactRelation isCommit nestDepth rel).dropped = s.dropped := by
  unfold endSubXactRelation
  rcases hp : s.pending rel with ⟨_ | ⟨_, _ | ⟨upper, _⟩⟩, _⟩
  · rfl
  · cases isCommit <;> rfl
  · cases isCommit with
    | false => rfl
    | true => by_cases hlevel : upper.nestLevel = nestDepth - 1 <;> simp [hlevel] <;> rfl

theorem endXactRelation_pending (s : Backend) (rel : RelKey) :
    (s.endXactRelation isCommit rel).pending =
      Function.update s.pending rel ((s.pending rel).endTop isCommit) := by
  unfold endXactRelation PgStatTableStatus.endTop
  rcases hp : s.pending rel with ⟨_ | ⟨_, _⟩, _⟩
  · simp [← hp]
  · rfl

/-- The subtransaction loop ends the level for every table it visits, once. -/
theorem atEOSubXactPgStatRelations_pending (xactState : PgStatSubXactStatus)
    (isCommit : Bool) (nestDepth : ℕ) (hnodup : xactState.first.Nodup) (rel : RelKey) :
    (s.atEOSubXactPgStatRelations xactState isCommit nestDepth).pending rel =
      if rel ∈ xactState.first then (s.pending rel).endSub isCommit nestDepth
      else s.pending rel :=
  foldl_table_of_nodup _ Backend.pending (fun _ => PgStatTableStatus.endSub isCommit nestDepth)
    (fun s rel => s.endSubXactRelation_pending isCommit nestDepth rel) hnodup s rel

/-- The transaction loop ends the transaction for every table it visits, once. -/
theorem atEOXactPgStatRelations_pending (xactState : PgStatSubXactStatus)
    (isCommit : Bool) (hnodup : xactState.first.Nodup) (rel : RelKey) :
    (s.atEOXactPgStatRelations xactState isCommit).pending rel =
      if rel ∈ xactState.first then (s.pending rel).endTop isCommit else s.pending rel :=
  foldl_table_of_nodup _ Backend.pending (fun _ => PgStatTableStatus.endTop isCommit)
    (fun s rel => s.endXactRelation_pending isCommit rel) hnodup s rel

end Backend

/-- A row operation on a counted relation rewrites the entry of its table and links
the table into the current level when it had no record there. -/
theorem RowOp.count_eq (op : RowOp) (s : Backend) :
    op.count s = if op.rel.pgstatEnabled then
      { s with
        pgStatXactStack :=
          if (s.pending op.rel.key).AtLevel s.nestLevel then s.pgStatXactStack
          else linkStack s.pgStatXactStack s.nestLevel op.rel.key
        pending := Function.update s.pending op.rel.key
          (op.onTable s.nestLevel (s.pending op.rel.key)) }
      else s := by
  cases op with
  | insert =>
    simp only [count, Backend.pgstatCountHeapInsert, pgstatShouldCountRelation,
      Backend.modifyTrans_ensureTabstatXactLevel]
    rfl
  | update _ hot newpage =>
    simp only [count, Backend.pgstatCountHeapUpdate, pgstatShouldCountRelation,
      Backend.modifyTrans_ensureTabstatXactLevel, Backend.setPending, Function.update_self,
      Function.update_idem]
    cases hot <;> cases newpage <;> rfl
  | delete =>
    simp only [count, Backend.pgstatCountHeapDelete, pgstatShouldCountRelation,
      Backend.modifyTrans_ensureTabstatXactLevel]
    rfl
  | truncate =>
    simp only [count, Backend.pgstatCountTruncate, pgstatShouldCountRelation,
      Backend.modifyTrans_ensureTabstatXactLevel]
    rfl

@[simp] theorem RowOp.count_nestLevel (op : RowOp) (s : Backend) :
    (op.count s).nestLevel = s.nestLevel := by
  rw [op.count_eq]
  split_ifs <;> rfl

@[simp] theorem RowOp.count_dropped (op : RowOp) (s : Backend) :
    (op.count s).dropped = s.dropped := by
  rw [op.count_eq]
  split_ifs <;> rfl

theorem RowOp.count_pending {op : RowOp} (henabled : op.rel.pgstatEnabled = true) (s : Backend) :
    (op.count s).pending op.rel.key = op.onTable s.nestLevel (s.pending op.rel.key) := by
  rw [op.count_eq, if_pos henabled]
  exact Function.update_self ..

theorem RowOp.count_pending_of_ne {op : RowOp} {key : RelKey} (hkey : op.rel.key ≠ key)
    (s : Backend) : (op.count s).pending key = s.pending key := by
  rw [op.count_eq]
  by_cases henabled : op.rel.pgstatEnabled = true
  · rw [if_pos henabled]
    exact Function.update_of_ne hkey.symm ..
  · rw [if_neg henabled]

end PgCutover.PgStat
