import PgCutover.Lib.MachineNumbers
import PgCutover.PgStat.LiveTuples

/-!
# Vacuum and analyze reports

VACUUM and ANALYZE report to the shared entry of a table when they are done, from any
number of backends and in between the flushes of the counters. A report belongs to one
of four classes, by the command and by whether an autovacuum worker runs it, and every
class has a count and a cumulative time of its own.

The times are computed and kept in microseconds, in 64-bit arithmetic
(`elapsedtime_eq`). `reports_account` says that over any history each count and each
time is that of the reports of its class, and of nothing else.
-/

namespace PgCutover.PgStat

open Lib Function

/-! ### Elapsed time -/

/-- `TimestampDifference`: seconds and microseconds, zero unless the difference is
positive. -/
def timestampDifference (startTime stopTime : TimestampTz) : ℤ × ℤ :=
  let diff := int64 (stopTime - startTime)
  if diff ≤ 0 then (0, 0) else (diff / 1000000, diff % 1000000)

/-- `TimestampDifferenceMilliseconds`, which the reports do not use. -/
def timestampDifferenceMilliseconds (startTime stopTime : TimestampTz) : ℤ :=
  if startTime ≥ stopTime then 0
  else if int64 (stopTime - startTime) ≠ stopTime - startTime then 2147483647
  else if stopTime - startTime ≥ 2147483647 * 1000 - 999 then 2147483647
  else (stopTime - startTime + 999) / 1000

/-- The elapsed time that `heap_vacuum_rel` and `do_analyze_rel` pass on, put together
again from its seconds and microseconds. -/
def elapsedtime (startTime stopTime : TimestampTz) : ℤ :=
  let (secs, usecs) := timestampDifference startTime stopTime
  secs * 1000000 + usecs

theorem elapsedtime_eq (startTime stopTime : TimestampTz) :
    elapsedtime startTime stopTime = max 0 (int64 (stopTime - startTime)) := by
  unfold elapsedtime timestampDifference
  by_cases hdiff : int64 (stopTime - startTime) ≤ 0
  · simp [hdiff]
  · simp only [hdiff, if_false]
    rw [max_eq_right (by omega)]
    exact Int.ediv_mul_add_emod _ _

/-- Without overflow the elapsed time is the clamped difference. -/
theorem elapsedtime_of_fits {startTime stopTime : TimestampTz}
    (hlo : -2 ^ 63 ≤ stopTime - startTime) (hhi : stopTime - startTime < 2 ^ 63) :
    elapsedtime startTime stopTime = max 0 (stopTime - startTime) := by
  rw [elapsedtime_eq, int64_of_fits hlo hhi]

/-! ### The reports -/

/-- `pgstat_report_vacuum` on the locked entry. `autovacuumWorker` is
`AmAutoVacuumWorkerProcess()` and `ts` the current time. -/
def pgstatReportVacuum (trackCounts autovacuumWorker : Bool) (ts : TimestampTz)
    (livetuples deadtuples elapsed : ℤ) (tabentry : PgStatStatTabEntry) : PgStatStatTabEntry :=
  if !trackCounts then tabentry
  else
    let tabentry := { tabentry with
      liveTuples := livetuples
      deadTuples := deadtuples
      insSinceVacuum := 0 }
    if autovacuumWorker then
      { tabentry with
        lastAutovacuumTime := ts
        autovacuumCount := int64 (tabentry.autovacuumCount + 1)
        totalAutovacuumTime := int64 (tabentry.totalAutovacuumTime + elapsed) }
    else
      { tabentry with
        lastVacuumTime := ts
        vacuumCount := int64 (tabentry.vacuumCount + 1)
        totalVacuumTime := int64 (tabentry.totalVacuumTime + elapsed) }

/-- The estimates of `pgstat_report_analyze`, less what the current transaction will
report itself. -/
def analyzeEstimates (rel : RelationData) (tabstat : PgStatTableStatus)
    (livetuples deadtuples : ℤ) : ℤ × ℤ :=
  if pgstatShouldCountRelation rel && !rel.isPartitionedTable then
    let livetuples := tabstat.trans.foldl
      (fun live trans => live - (trans.tuplesInserted - trans.tuplesDeleted)) livetuples
    let deadtuples := tabstat.trans.foldl
      (fun dead trans => dead - (trans.tuplesUpdated + trans.tuplesDeleted)) deadtuples
    (max livetuples 0, max (deadtuples - tabstat.counts.deltaDeadTuples) 0)
  else (livetuples, deadtuples)

/-- `pgstat_report_analyze` on the locked entry. -/
def pgstatReportAnalyze (trackCounts autovacuumWorker : Bool) (ts : TimestampTz)
    (rel : RelationData) (tabstat : PgStatTableStatus) (livetuples deadtuples : ℤ)
    (resetcounter : Bool) (elapsed : ℤ) (tabentry : PgStatStatTabEntry) : PgStatStatTabEntry :=
  if !trackCounts then tabentry
  else
    let (livetuples, deadtuples) := analyzeEstimates rel tabstat livetuples deadtuples
    let tabentry := { tabentry with
      liveTuples := livetuples
      deadTuples := deadtuples
      modSinceAnalyze := if resetcounter then 0 else tabentry.modSinceAnalyze }
    if autovacuumWorker then
      { tabentry with
        lastAutoanalyzeTime := ts
        autoanalyzeCount := int64 (tabentry.autoanalyzeCount + 1)
        totalAutoanalyzeTime := int64 (tabentry.totalAutoanalyzeTime + elapsed) }
    else
      { tabentry with
        lastAnalyzeTime := ts
        analyzeCount := int64 (tabentry.analyzeCount + 1)
        totalAnalyzeTime := int64 (tabentry.totalAnalyzeTime + elapsed) }

/-- What `heap_vacuum_rel` knows when it reports. -/
structure VacuumRun where
  totalStarttime : TimestampTz
  stopTime : TimestampTz
  newLiveTuples : ℤ
  recentlyDeadTuples : ℤ
  missedDeadTuples : ℤ
  ts : TimestampTz
  deriving DecidableEq, Repr

/-- What `do_analyze_rel` knows when it reports. -/
structure AnalyzeRun where
  totalStarttime : TimestampTz
  stopTime : TimestampTz
  onerel : RelationData
  inh : Bool
  totalrows : ℤ
  totaldeadrows : ℤ
  allColumns : Bool
  ts : TimestampTz
  deriving DecidableEq, Repr

/-- The report of `heap_vacuum_rel`. -/
def VacuumRun.report (run : VacuumRun) (trackCounts autovacuumWorker : Bool)
    (tabentry : PgStatStatTabEntry) : PgStatStatTabEntry :=
  pgstatReportVacuum trackCounts autovacuumWorker run.ts (max run.newLiveTuples 0)
    (run.recentlyDeadTuples + run.missedDeadTuples)
    (elapsedtime run.totalStarttime run.stopTime) tabentry

/-- The report of `do_analyze_rel`: none for inherited statistics, except for those of a
partitioned table. -/
def AnalyzeRun.report (run : AnalyzeRun) (trackCounts autovacuumWorker : Bool)
    (tabstat : PgStatTableStatus) (tabentry : PgStatStatTabEntry) : PgStatStatTabEntry :=
  let elapsed := elapsedtime run.totalStarttime run.stopTime
  if !run.inh then
    pgstatReportAnalyze trackCounts autovacuumWorker run.ts run.onerel tabstat run.totalrows
      run.totaldeadrows run.allColumns elapsed tabentry
  else if run.onerel.isPartitionedTable then
    pgstatReportAnalyze trackCounts autovacuumWorker run.ts run.onerel tabstat 0 0 run.allColumns
      elapsed tabentry
  else tabentry

/-! ### Histories of one table -/

/-- The shared entry of a table, with what every backend has pending for it. -/
structure SharedTable (ι : Type*) where
  tabentry : PgStatStatTabEntry := {}
  pending : ι → PgStatTableStatus := fun _ => {}
  dbentry : ι → PgStatStatDBEntry := fun _ => {}

/-- What can happen to a table: a backend reports, flushes its pending entry, or changes
it in any way. -/
inductive TableEvent (ι : Type*)
  | vacuum (who : ι) (trackCounts : Bool) (run : VacuumRun)
  | analyze (who : ι) (trackCounts : Bool) (run : AnalyzeRun)
  | flush (who : ι) (lockAvailable nowait : Bool) (stopTime : TimestampTz)
  | work (who : ι) (tabstat : PgStatTableStatus)
  deriving DecidableEq

/-- The four kinds of reports. -/
inductive ReportClass
  | vacuum | autovacuum | analyze | autoanalyze
  deriving DecidableEq, Repr

/-- The counter of a kind of report. -/
def PgStatStatTabEntry.reportCount (tabentry : PgStatStatTabEntry) : ReportClass → ℤ
  | .vacuum => tabentry.vacuumCount
  | .autovacuum => tabentry.autovacuumCount
  | .analyze => tabentry.analyzeCount
  | .autoanalyze => tabentry.autoanalyzeCount

/-- The total time of a kind of report. -/
def PgStatStatTabEntry.reportTime (tabentry : PgStatStatTabEntry) : ReportClass → ℤ
  | .vacuum => tabentry.totalVacuumTime
  | .autovacuum => tabentry.totalAutovacuumTime
  | .analyze => tabentry.totalAnalyzeTime
  | .autoanalyze => tabentry.totalAutoanalyzeTime

section History

variable {ι : Type*} [DecidableEq ι] (isWorker : ι → Bool)

/-- One event, where `isWorker` tells the autovacuum workers. A flush that succeeds
clears the pending counts. -/
def SharedTable.step (table : SharedTable ι) : TableEvent ι → SharedTable ι
  | .vacuum who trackCounts run =>
      { table with tabentry := run.report trackCounts (isWorker who) table.tabentry }
  | .analyze who trackCounts run =>
      { table with
        tabentry := run.report trackCounts (isWorker who) (table.pending who) table.tabentry }
  | .flush who lockAvailable nowait stopTime =>
      match pgstatRelationFlushCb lockAvailable nowait stopTime (table.pending who).counts
        table.tabentry (table.dbentry who) with
      | none => table
      | some (tabentry, dbentry) =>
          { tabentry := tabentry
            pending := update table.pending who { table.pending who with counts := {} }
            dbentry := update table.dbentry who dbentry }
  | .work who tabstat => { table with pending := update table.pending who tabstat }

/-- The report that an event makes: its class and the elapsed time. -/
def TableEvent.report? : TableEvent ι → Option (ReportClass × ℤ)
  | .vacuum who trackCounts run =>
      if trackCounts then
        some (if isWorker who then .autovacuum else .vacuum,
          elapsedtime run.totalStarttime run.stopTime)
      else none
  | .analyze who trackCounts run =>
      if trackCounts && (!run.inh || run.onerel.isPartitionedTable) then
        some (if isWorker who then .autoanalyze else .analyze,
          elapsedtime run.totalStarttime run.stopTime)
      else none
  | .flush .. | .work .. => none

/-- The elapsed times of the reports of a class, in order. -/
def reportsOf (cls : ReportClass) (events : List (TableEvent ι)) : List ℤ :=
  events.filterMap fun event =>
    match event.report? isWorker with
    | some (other, elapsed) => if other = cls then some elapsed else none
    | none => none

/-! ### Accounting -/

theorem reportCount_addCounts (tabentry : PgStatStatTabEntry) (counts : PgStatTableCounts)
    (stopTime : TimestampTz) (cls : ReportClass) :
    (tabentry.addCounts counts stopTime).reportCount cls = tabentry.reportCount cls := by
  cases cls <;> simp only [PgStatStatTabEntry.reportCount, PgStatStatTabEntry.addCounts] <;>
    split_ifs <;> rfl

theorem reportTime_addCounts (tabentry : PgStatStatTabEntry) (counts : PgStatTableCounts)
    (stopTime : TimestampTz) (cls : ReportClass) :
    (tabentry.addCounts counts stopTime).reportTime cls = tabentry.reportTime cls := by
  cases cls <;> simp only [PgStatStatTabEntry.reportTime, PgStatStatTabEntry.addCounts] <;>
    split_ifs <;> rfl

/-- The count and the cumulative time of a class together. -/
def PgStatStatTabEntry.reportTotals (tabentry : PgStatStatTabEntry) (cls : ReportClass) : ℤ × ℤ :=
  (tabentry.reportCount cls, tabentry.reportTime cls)

/-- The totals of a class after a report, which changes them when it is of this
class. -/
def addReport (cls : ReportClass) (totals : ℤ × ℤ) : Option (ReportClass × ℤ) → ℤ × ℤ
  | some (other, elapsed) =>
      if other = cls then (int64 (totals.1 + 1), int64 (totals.2 + elapsed)) else totals
  | none => totals

theorem pgstatReportVacuum_totals (trackCounts worker : Bool) (ts : TimestampTz)
    (live dead elapsed : ℤ) (tabentry : PgStatStatTabEntry) (cls : ReportClass) :
    (pgstatReportVacuum trackCounts worker ts live dead elapsed tabentry).reportTotals cls =
      addReport cls (tabentry.reportTotals cls) (if trackCounts then
        some (if worker then .autovacuum else .vacuum, elapsed) else none) := by
  cases trackCounts <;> cases worker <;> cases cls <;> rfl

theorem pgstatReportAnalyze_totals (trackCounts worker : Bool) (ts : TimestampTz)
    (rel : RelationData) (tabstat : PgStatTableStatus) (live dead : ℤ) (reset : Bool)
    (elapsed : ℤ) (tabentry : PgStatStatTabEntry) (cls : ReportClass) :
    (pgstatReportAnalyze trackCounts worker ts rel tabstat live dead reset elapsed
      tabentry).reportTotals cls =
      addReport cls (tabentry.reportTotals cls) (if trackCounts then
        some (if worker then .autoanalyze else .analyze, elapsed) else none) := by
  cases trackCounts <;> cases worker <;> cases cls <;> rfl

theorem pgstatRelationFlushCb_totals {lockAvailable nowait : Bool} {stopTime : TimestampTz}
    {counts : PgStatTableCounts} {tabentry tabentry' : PgStatStatTabEntry}
    {dbentry dbentry' : PgStatStatDBEntry}
    (h : pgstatRelationFlushCb lockAvailable nowait stopTime counts tabentry dbentry =
      some (tabentry', dbentry')) (cls : ReportClass) :
    tabentry'.reportTotals cls = tabentry.reportTotals cls := by
  unfold pgstatRelationFlushCb at h
  split_ifs at h
  · cases h
    rfl
  · cases h
    simp only [PgStatStatTabEntry.reportTotals, reportCount_addCounts, reportTime_addCounts]

theorem SharedTable.step_totals (table : SharedTable ι) (event : TableEvent ι)
    (cls : ReportClass) :
    (table.step isWorker event).tabentry.reportTotals cls =
      addReport cls (table.tabentry.reportTotals cls) (event.report? isWorker) := by
  cases event with
  | vacuum => exact pgstatReportVacuum_totals ..
  | analyze _ _ run =>
    simp only [SharedTable.step, AnalyzeRun.report, TableEvent.report?]
    cases run.inh <;> cases run.onerel.isPartitionedTable <;>
      simp [pgstatReportAnalyze_totals, addReport]
  | flush =>
    simp only [SharedTable.step]
    split
    · rfl
    · next hflush => exact pgstatRelationFlushCb_totals hflush cls
  | work => rfl

/-- A whole history adds the reports of the class, and nothing else. -/
theorem SharedTable.run_totals (events : List (TableEvent ι)) (table : SharedTable ι)
    (cls : ReportClass) {count time : ℤ}
    (h : table.tabentry.reportTotals cls = (int64 count, int64 time)) :
    (events.foldl (SharedTable.step isWorker) table).tabentry.reportTotals cls =
      (int64 (count + (reportsOf isWorker cls events).length),
        int64 (time + (reportsOf isWorker cls events).sum)) := by
  induction events generalizing table count time with
  | nil => simpa [reportsOf] using h
  | cons event _ ih =>
    rw [List.foldl_cons]
    have hstep := table.step_totals isWorker event cls
    rw [h] at hstep
    cases hreport : event.report? isWorker with
    | none =>
      rw [hreport] at hstep
      rw [ih _ hstep]
      simp [reportsOf, hreport]
    | some report =>
      obtain ⟨other, _⟩ := report
      rw [hreport] at hstep
      by_cases hcls : other = cls
      · simp only [addReport, hcls, if_true, int64_int64_add] at hstep
        rw [ih _ hstep]
        simp only [reportsOf, List.filterMap_cons, hreport, hcls, if_true, List.length_cons,
          List.sum_cons]
        push_cast
        congr 2 <;> ring
      · simp only [addReport, hcls, if_false] at hstep
        rw [ih _ hstep]
        simp [reportsOf, hreport, hcls]

/-- **Accounting for the reports.** Over any history of a new entry, the count of a class
is the number of its reports and its time the sum of their elapsed microseconds, in
64-bit arithmetic. An event that makes no report of the class leaves both alone, and so
does every flush. -/
theorem reports_account (events : List (TableEvent ι)) (table : SharedTable ι)
    (hnew : table.tabentry = {}) (cls : ReportClass) :
    ((events.foldl (SharedTable.step isWorker) table).tabentry.reportCount cls =
        int64 (reportsOf isWorker cls events).length ∧
      (events.foldl (SharedTable.step isWorker) table).tabentry.reportTime cls =
        int64 (reportsOf isWorker cls events).sum) ∧
    (∀ (before : SharedTable ι) (event : TableEvent ι),
      (∀ elapsed, event.report? isWorker ≠ some (cls, elapsed)) →
        (before.step isWorker event).tabentry.reportCount cls = before.tabentry.reportCount cls ∧
        (before.step isWorker event).tabentry.reportTime cls = before.tabentry.reportTime cls) ∧
    (∀ (lockAvailable nowait : Bool) (stopTime : TimestampTz) (counts : PgStatTableCounts)
      (before after : PgStatStatTabEntry) (dbBefore dbAfter : PgStatStatDBEntry),
      pgstatRelationFlushCb lockAvailable nowait stopTime counts before dbBefore =
        some (after, dbAfter) →
        after.reportCount cls = before.reportCount cls ∧
          after.reportTime cls = before.reportTime cls) ∧
    ∀ startTime stopTime : TimestampTz,
      -2 ^ 63 ≤ stopTime - startTime → stopTime - startTime < 2 ^ 63 →
        elapsedtime startTime stopTime = max 0 (stopTime - startTime) := by
  refine ⟨?_, ?_, ?_, fun _ _ hlo hhi => elapsedtime_of_fits hlo hhi⟩
  · have hzero : table.tabentry.reportTotals cls = (int64 0, int64 0) := by
      rw [hnew]
      cases cls <;> rfl
    have hrun := SharedTable.run_totals isWorker events table cls hzero
    simp only [zero_add, PgStatStatTabEntry.reportTotals, Prod.mk.injEq] at hrun
    exact hrun
  · intro before event hother
    have hstep := before.step_totals isWorker event cls
    have hsame : addReport cls (before.tabentry.reportTotals cls) (event.report? isWorker) =
        before.tabentry.reportTotals cls := by
      cases hreport : event.report? isWorker with
      | none => rfl
      | some report =>
        obtain ⟨_, elapsed⟩ := report
        refine if_neg fun hcls => hother elapsed ?_
        rw [hreport, hcls]
    exact Prod.ext_iff.mp (hstep.trans hsame)
  · intro _ _ _ _ _ _ _ _ hflush
    exact Prod.ext_iff.mp (pgstatRelationFlushCb_totals hflush cls)

end History

/-- A VACUUM of one millisecond. -/
def sampleVacuum : VacuumRun where
  totalStarttime := 0
  stopTime := 1000
  newLiveTuples := 10
  recentlyDeadTuples := 1
  missedDeadTuples := 0
  ts := 1000

/-- A user's VACUUM and that of an autovacuum worker, with a flush in between. -/
def sampleReports : List (TableEvent Bool) :=
  [.vacuum false true sampleVacuum, .work false { counts := { tuplesInserted := 3 } },
    .flush false true false 2000, .vacuum true true sampleVacuum]

theorem reports_account_sampleReports :
    (sampleReports.foldl (SharedTable.step id) {}).tabentry.reportCount .vacuum = 1 ∧
      (sampleReports.foldl (SharedTable.step id) {}).tabentry.reportTime .vacuum = 1000 ∧
      elapsedtime 5 3 = 0 :=
  have h := reports_account id sampleReports {} rfl .vacuum
  ⟨h.1.1.trans (by decide), h.1.2.trans (by decide), h.2.2.2 5 3 (by decide) (by decide)⟩

theorem reportTime_ne_milliseconds :
    ([TableEvent.vacuum () true sampleVacuum].foldl (SharedTable.step fun _ => false)
        {}).tabentry.totalVacuumTime = 1000 ∧
      timestampDifferenceMilliseconds sampleVacuum.totalStarttime sampleVacuum.stopTime = 1 := by
  decide

/-!
## ANALYZE inside of a transaction

ANALYZE stores absolute row counts in the shared entry of a table, while rows of the same table are
still pending in the backend that runs it.
-/

open List

/-! ### Pending counts between transactions -/

/-- What holds between transactions, whether or not earlier flushes were exact: a pending
truncation makes the pending delta the whole table. -/
structure Settled (key : RelKey) (sys : TableSystem) : Prop where
  linked : sys.backend.WellLinked
  level : sys.backend.nestLevel = 0
  truncdropped : (sys.backend.pending key).counts.truncdropped = true →
    (sys.rows : ℤ) = (sys.backend.pending key).counts.deltaLiveTuples

namespace Settled

variable {key : RelKey} {sys : TableSystem}

theorem ofStart (h : sys.Start key) : Settled key sys where
  linked := Backend.wellLinked_of_idle h.level h.stack h.records
  level := h.level
  truncdropped := by simp [h.counts]

theorem runXact (h : Settled key sys) {x : Xact}
    (hok : x.body.Admissible (TableView.step key) (RowOp.Possible key) { rows := sys.rows }) :
    Settled key
      { sys with backend := sys.backend.runXact x, rows := x.rowsAfter key sys.rows } := by
  have hrun : Follows key sys.rows _ _ [x.view key sys.rows, _] _ :=
    (h.linked.follows h.level key sys.rows).beginXact.run x.body hok
  obtain ⟨hlinked, hnest, hflag, hdelta⟩ := hrun.endTop x.commits
  refine ⟨hlinked, hnest, fun htrunc => ?_⟩
  replace htrunc := hflag.symm.trans htrunc
  refine Eq.trans ?_ hdelta.symm
  unfold Xact.rowsAfter
  cases hc : x.commits with
  | false =>
    simp only [hc] at htrunc ⊢
    exact h.truncdropped htrunc
  | true =>
    simp only [hc, Bool.true_and, if_true] at htrunc ⊢
    cases ht : (x.view key sys.rows).touched with
    | true => simp only [ht, if_true] at htrunc; rw [if_pos htrunc]
    | false =>
      -- no record of the table: its rows and its pending counts are as before
      obtain ⟨htruncated, hsame⟩ := hrun.sees.1.of_not_touched ht
      simp only [ht] at htrunc
      have hrows := h.truncdropped htrunc
      rw [if_neg (by simp [htruncated])]
      omega

theorem flush (h : Settled key sys) (stopTime : TimestampTz) :
    Settled key (sys.flush key stopTime) := by
  obtain ⟨hstack, htrans⟩ := h.linked.idle h.level
  have hbackend := sys.flush_backend key stopTime
  refine ⟨?_, ?_, ?_⟩
  · rw [hbackend]
    refine Backend.wellLinked_of_idle h.level hstack fun rel => ?_
    by_cases hrel : rel = key
    · simp [Backend.setPending, hrel]
    · simpa [Backend.setPending, hrel] using htrans rel
  · rw [hbackend]
    exact h.level
  · simp [hbackend, Backend.setPending]

theorem after (h : Settled key sys) {x : Xact}
    (hok : x.body.Admissible (TableView.step key) (RowOp.Possible key) { rows := sys.rows }) :
    Settled key (sys.after key x) := by
  unfold TableSystem.after
  cases x.flushAt with
  | none => exact h.runXact hok
  | some stopTime => exact (h.runXact hok).flush stopTime

end Settled

/-- Execute a history of transactions. -/
def TableSystem.runHistory (sys : TableSystem) (key : RelKey) (hist : List Xact) : TableSystem :=
  hist.foldl (fun sys x => sys.after key x) sys

@[simp] theorem TableSystem.after_rows (sys : TableSystem) (key : RelKey) (x : Xact) :
    (sys.after key x).rows = x.rowsAfter key sys.rows := by
  unfold TableSystem.after
  cases x.flushAt <;> simp

variable {sys : TableSystem} {rel : RelationData}

/-- Every history leads to a state whose pending counts are settled. -/
theorem Settled.runHistory {key : RelKey} (hist : List Xact)
    (h : Settled key sys) (hok : PossibleHistory key hist sys.rows) :
    Settled key (sys.runHistory key hist) := by
  induction hist generalizing sys with
  | nil => exact h
  | cons _ _ ih =>
    apply ih (h.after hok.1)
    rw [TableSystem.after_rows]
    exact hok.2

/-! ### The open levels of a transaction -/

/-- Open one level for each body, outermost first, and execute the body in it. -/
def Backend.runOpen (s : Backend) (levels : List (XactBody RowOp)) : Backend :=
  levels.foldl (fun s body => body.run (backendMachine RowOp.count) s.beginXact) s

/-- The table as the innermost of the open levels sees it. -/
def openView (key : RelKey) (levels : List (XactBody RowOp)) (v : TableView) : TableView :=
  levels.foldl (fun v body => body.denote (TableView.step key) v) v

/-- The executor can perform every operation of the open levels. -/
def PossibleOpen (key : RelKey) : List (XactBody RowOp) → TableView → Prop
  | [], _ => True
  | body :: rest, v =>
    body.Admissible (TableView.step key) (RowOp.Possible key) v ∧
      PossibleOpen key rest (body.denote (TableView.step key) v)

/-- Commit the innermost `n` levels. -/
def Backend.commitLevels (s : Backend) (n : ℕ) : Backend :=
  (fun s => s.endXact true)^[n] s

namespace Follows

variable {key : RelKey} {base delta : ℤ} {flag : Bool} {v v' : TableView}
  {saved : List TableView} {s : Backend}

theorem runOpen (levels : List (XactBody RowOp)) (hok : PossibleOpen key levels v)
    (h : Follows key base delta flag (v :: saved) s) :
    ∃ outer, outer.length = saved.length + levels.length ∧
      Follows key base delta flag (openView key levels v :: outer) (s.runOpen levels) := by
  induction levels generalizing v saved s with
  | nil => exact ⟨saved, by simp, h⟩
  | cons body _ ih =>
    obtain ⟨outer, hlen, hrest⟩ := ih hok.2 (h.beginXact.run body hok.1)
    refine ⟨outer, ?_, hrest⟩
    rw [hlen, length_cons, length_cons]
    omega

/-- Committing all levels but the outermost keeps what the innermost one sees. -/
theorem commitLevels (h : Follows key base delta flag (v :: v' :: saved) s) :
    ∃ v₀, Follows key base delta flag [v, v₀] (s.commitLevels saved.length) := by
  induction saved generalizing v' s with
  | nil => exact ⟨v', h⟩
  | cons _ _ ih =>
    -- the innermost of the levels ends first, and its parent takes its place
    exact ih (h.endXact true)

end Follows

/-! ### The report -/

/-- What the open levels have counted as inserted and not deleted again. -/
def openDelta (records : List PgStatTableXactStatus) : ℤ :=
  (records.map fun record => record.tuplesInserted - record.tuplesDeleted).sum

/-- The loop of `pgstat_report_analyze` subtracts the counts of all open levels. -/
theorem foldl_sub_eq_openDelta (records : List PgStatTableXactStatus) (live : ℤ) :
    records.foldl (fun live trans => live - (trans.tuplesInserted - trans.tuplesDeleted)) live =
      live - openDelta records := by
  induction records generalizing live with
  | nil => simp [openDelta]
  | cons _ _ ih =>
    rw [foldl_cons, ih]
    simp only [openDelta, map_cons, sum_cons]
    ring

/-- As long as no level truncated the table, the levels' counts add up. -/
theorem liveAfter_of_not_truncdropped (base : ℤ) {records : List PgStatTableXactStatus}
    (h : records.any (·.truncdropped) = false) :
    liveAfter base records = base + openDelta records := by
  induction records with
  | nil => simp [openDelta]
  | cons _ _ ih =>
    rw [any_cons, Bool.or_eq_false_iff] at h
    rw [liveAfter_cons, h.1, ih h.2]
    simp only [openDelta, map_cons, sum_cons, Bool.false_eq_true, if_false]
    ring

/-- The remaining arguments of a report: who runs ANALYZE and when, the dead rows, whether
all columns were analyzed and how long it took. -/
structure AnalyzeArgs where
  autovacuumWorker : Bool
  ts : TimestampTz
  deadtuples : ℤ
  resetcounter : Bool
  elapsedtime : ℤ

/-- Store the report on a table with the given number of live rows, counted by ANALYZE in
the current transaction. -/
def TableSystem.reportAnalyze (sys : TableSystem) (rel : RelationData) (livetuples : ℤ)
    (args : AnalyzeArgs) : TableSystem :=
  { sys with
    tabentry := pgstatReportAnalyze true args.autovacuumWorker args.ts rel
      (sys.backend.pending rel.key) livetuples args.deadtuples args.resetcounter args.elapsedtime
      sys.tabentry }

/-- A transaction with the given levels open runs ANALYZE, which counts the rows exactly as
it sees them, and commits; the counts are flushed at `stopTime`. -/
def TableSystem.analyzeAndCommit (sys : TableSystem) (rel : RelationData)
    (levels : List (XactBody RowOp)) (args : AnalyzeArgs) (stopTime : TimestampTz) :
    TableSystem :=
  let v := openView rel.key levels { rows := sys.rows }
  let sys := { sys with backend := sys.backend.runOpen levels }
  let sys := sys.reportAnalyze rel v.rows args
  let sys := { sys with backend := sys.backend.commitLevels levels.length, rows := v.rows }
  sys.flush rel.key stopTime

theorem pgstatReportAnalyze_liveTuples (autovacuumWorker : Bool) (ts : TimestampTz)
    (henabled : rel.pgstatEnabled = true)
    (hplain : rel.isPartitionedTable = false) (tabstat : PgStatTableStatus)
    (livetuples deadtuples : ℤ) (resetcounter : Bool) (elapsed : ℤ)
    (tabentry : PgStatStatTabEntry) :
    (pgstatReportAnalyze true autovacuumWorker ts rel tabstat livetuples deadtuples resetcounter
      elapsed tabentry).liveTuples = max (livetuples - openDelta tabstat.trans) 0 := by
  have hcount : pgstatShouldCountRelation rel = true := henabled
  unfold pgstatReportAnalyze analyzeEstimates
  rw [hcount, hplain, foldl_sub_eq_openDelta]
  cases autovacuumWorker <;> rfl

/-- The shared entry after the flush, from the records at the time of the report and the
counts that the commit leaves. -/
theorem analyzeAndCommit_tabentry (sys : TableSystem)
    (henabled : rel.pgstatEnabled = true) (hplain : rel.isPartitionedTable = false)
    (levels : List (XactBody RowOp)) (args : AnalyzeArgs) (stopTime : TimestampTz) :
    let opened := sys.backend.runOpen levels
    let counts := ((opened.commitLevels levels.length).pending rel.key).counts
    (sys.analyzeAndCommit rel levels args stopTime).tabentry.liveTuples =
      max ((if counts.truncdropped then 0
        else max ((openView rel.key levels { rows := sys.rows }).rows -
          openDelta (opened.pending rel.key).trans) 0) + counts.deltaLiveTuples) 0 := by
  intro opened _
  have hreport := pgstatReportAnalyze_liveTuples args.autovacuumWorker args.ts henabled hplain
    (opened.pending rel.key) (openView rel.key levels { rows := sys.rows }).rows args.deadtuples
    args.resetcounter args.elapsedtime sys.tabentry
  unfold TableSystem.analyzeAndCommit
  rw [TableSystem.flush_tabentry, flushed_liveTuples]
  · rw [← hreport]
    rfl
  · exact (le_max_right _ _).trans_eq hreport.symm

theorem commitLevels_counts {key : RelKey} (h : Settled key sys)
    {levels : List (XactBody RowOp)} (hne : levels ≠ [])
    (hok : PossibleOpen key levels { rows := sys.rows }) :
    let pending := (sys.backend.pending key).counts
    let v := openView key levels { rows := sys.rows }
    let opened := sys.backend.runOpen levels
    let counts := ((opened.commitLevels levels.length).pending key).counts
    Describes sys.rows (opened.pending key).trans v ∧
      counts.truncdropped = (if v.touched then v.truncated else pending.truncdropped) ∧
      counts.deltaLiveTuples = if v.truncated then (v.rows : ℤ)
        else pending.deltaLiveTuples + (v.rows - sys.rows) := by
  intro _ v opened _
  obtain ⟨outer, hlen, hopen⟩ := (h.linked.follows h.level key sys.rows).runOpen levels hok
  cases outer with
  | nil => exact absurd (length_eq_zero_iff.mp (by simpa using hlen.symm)) hne
  | cons _ saved =>
    have hcommits : levels.length = saved.length + 1 := by simpa using hlen.symm
    obtain ⟨_, htop⟩ := hopen.commitLevels
    -- the outermost level is the transaction itself
    have hlast : opened.commitLevels levels.length =
        (opened.commitLevels saved.length).endXact true := by
      rw [hcommits]
      exact Function.iterate_succ_apply' _ _ _
    have hend := (htop.endTop true).2.2
    rw [← hlast] at hend
    exact ⟨hopen.sees.1, hend⟩

/-- What is left in the shared entry: the pending delta of earlier transactions comes on
top of the rows unless it is forgotten or is all there is. -/
theorem analyzeAndCommit_liveTuples (h : Settled rel.key sys) (henabled : rel.pgstatEnabled = true)
    (hplain : rel.isPartitionedTable = false) {levels : List (XactBody RowOp)}
    (hne : levels ≠ []) (hok : PossibleOpen rel.key levels { rows := sys.rows })
    (args : AnalyzeArgs) (stopTime : TimestampTz) :
    let pending := (sys.backend.pending rel.key).counts
    let v := openView rel.key levels { rows := sys.rows }
    (sys.analyzeAndCommit rel levels args stopTime).tabentry.liveTuples =
      if v.truncated || (!v.touched && pending.truncdropped) then (v.rows : ℤ)
      else max (v.rows + pending.deltaLiveTuples) 0 := by
  dsimp only
  obtain ⟨hdescribes, hflag, hdelta⟩ := commitLevels_counts h hne hok
  rw [analyzeAndCommit_tabentry sys henabled hplain levels args stopTime, hflag, hdelta]
  have hsettled := h.truncdropped
  generalize openView rel.key levels { rows := sys.rows } = v at hdescribes ⊢
  generalize ((sys.backend.runOpen levels).pending rel.key).trans = records at hdescribes ⊢
  generalize (sys.backend.pending rel.key).counts = pending at hsettled ⊢
  cases htouched : v.touched with
  | false =>
    obtain ⟨htruncated, hsame⟩ := hdescribes.of_not_touched htouched
    have hnil : records = [] := by
      have := hdescribes.touched
      rwa [htouched, eq_comm, Bool.not_eq_eq_eq_not, Bool.not_false, List.isEmpty_iff] at this
    cases hflag : pending.truncdropped with
    | true =>
      have hrows := hsettled hflag
      simp only [htruncated, Bool.false_eq_true, if_false, if_true, Bool.not_false,
        Bool.true_and, Bool.false_or]
      omega
    | false =>
      simp only [htruncated, hnil, openDelta, map_nil, sum_nil, Bool.false_eq_true,
        if_false, Bool.not_false, Bool.true_and, Bool.false_or]
      omega
  | true =>
    cases htruncated : v.truncated with
    | true => simp
    | false =>
      have hrows := hdescribes.rows
      rw [liveAfter_of_not_truncdropped _ (hdescribes.truncated ▸ htruncated)] at hrows
      simp only [Bool.false_eq_true, if_false, if_true, Bool.not_true, Bool.false_and,
        Bool.or_false]
      omega

/-- **ANALYZE with pending counts.** After any history of transactions, flushed or not, a
transaction that runs ANALYZE and commits leaves the exact number of rows if it has
truncated the table, if it has not changed the table and what is pending for it ends with a
truncation, if no live rows are pending for it from earlier transactions, or if the table
is empty and the pending delta is not positive; and in no other case. -/
theorem analyze_liveTuples_exact_iff (rel : RelationData) (henabled : rel.pgstatEnabled = true)
    (hplain : rel.isPartitionedTable = false) (start : TableSystem)
    (hstart : start.Start rel.key) (hist : List Xact)
    (hhist : PossibleHistory rel.key hist start.rows) (levels : List (XactBody RowOp))
    (hne : levels ≠ [])
    (hlevels : PossibleOpen rel.key levels { rows := (start.runHistory rel.key hist).rows })
    (args : AnalyzeArgs) (stopTime : TimestampTz) :
    let sys := start.runHistory rel.key hist
    let pending := (sys.backend.pending rel.key).counts
    let v := openView rel.key levels { rows := sys.rows }
    let done := sys.analyzeAndCommit rel levels args stopTime
    done.tabentry.liveTuples = done.rows ↔
      v.truncated = true ∨ (v.touched = false ∧ pending.truncdropped = true) ∨
        pending.deltaLiveTuples = 0 ∨ (v.rows = 0 ∧ pending.deltaLiveTuples ≤ 0) := by
  dsimp only
  have hsettled := (Settled.ofStart hstart).runHistory hist hhist
  rw [analyzeAndCommit_liveTuples hsettled henabled hplain hne hlevels]
  have hrows : ((start.runHistory rel.key hist).analyzeAndCommit rel levels args stopTime).rows =
      (openView rel.key levels { rows := (start.runHistory rel.key hist).rows }).rows :=
    TableSystem.flush_rows _ _ _
  rw [hrows]
  split_ifs with hexact
  · simp only [Bool.or_eq_true, Bool.and_eq_true, Bool.not_eq_true'] at hexact
    simp only [true_iff]
    tauto
  · simp only [Bool.or_eq_true, Bool.and_eq_true, Bool.not_eq_true', not_or] at hexact
    rw [or_iff_right hexact.1, or_iff_right hexact.2]
    omega

/-! ### Rows counted twice -/

/-- A committed insertion of one row whose counts are not flushed yet. -/
def unflushedInsert : List Xact :=
  [{ body := .act (.insert sampleRelation 1) .nil, commits := true, flushAt := none }]

/-- ANALYZE run by a client. -/
def sampleArgs : AnalyzeArgs where
  autovacuumWorker := false
  ts := 0
  deadtuples := 0
  resetcounter := true
  elapsedtime := 0

/-- With the insertion of an earlier transaction still pending, ANALYZE in a transaction of
its own leads to seven live rows where there are six. -/
theorem analyze_unflushedInsert :
    sampleSystem.Start sampleRelation.key ∧
      PossibleHistory sampleRelation.key unflushedInsert sampleSystem.rows ∧
      ((sampleSystem.runHistory sampleRelation.key unflushedInsert).analyzeAndCommit
        sampleRelation [.nil] sampleArgs 0).tabentry.liveTuples = 7 ∧
      ((sampleSystem.runHistory sampleRelation.key unflushedInsert).analyzeAndCommit
        sampleRelation [.nil] sampleArgs 0).rows = 6 := by
  refine ⟨sampleSystem_start, ?_, by decide, by decide⟩
  simp [PossibleHistory, unflushedInsert, XactBody.Admissible, RowOp.Possible, RowOp.rel,
    sampleRelation]

/-- With nothing pending from before, the rows of a transaction that runs ANALYZE in a
subtransaction are counted once. -/
theorem analyze_liveTuples_exact_subtransaction :
    let levels : List (XactBody RowOp) :=
      [.act (.insert sampleRelation 2) .nil, .act (.delete sampleRelation) .nil]
    let done := (sampleSystem.runHistory sampleRelation.key []).analyzeAndCommit sampleRelation
      levels sampleArgs 0
    sampleSystem.Start sampleRelation.key ∧
      PossibleOpen sampleRelation.key levels { rows := 5 } ∧
      done.tabentry.liveTuples = done.rows := by
  intro levels _
  have hlevels : PossibleOpen sampleRelation.key levels { rows := 5 } := by
    simp [levels, PossibleOpen, XactBody.Admissible, XactBody.denote, RowOp.Possible, RowOp.rel,
      sampleRelation, TableView.step]
  refine ⟨sampleSystem_start, hlevels, ?_⟩
  exact (analyze_liveTuples_exact_iff sampleRelation rfl rfl sampleSystem sampleSystem_start []
    trivial levels (cons_ne_nil _ _) hlevels sampleArgs 0).mpr
    (Or.inr (Or.inr (Or.inl rfl)))

end PgCutover.PgStat
