import PgCutover.PgStat.StackInvariant

/-!
# Live tuples across transactions and flushes

The purpose of the transactional counters is that `live_tuples` follows the number
of rows of the table. `TableView` is the table itself, as nested transactions see
it; the records of the levels are shown to describe it at every level, and the
pending counts to describe what happened since the last flush.

The flush is exact unless a truncation was forgotten. `AtEOXact_PgStat_Relations`
overwrites `counts.truncdropped` at every commit, so a committed truncation is lost
when a later transaction commits changes without truncating before the counts are
flushed. `KeepsTruncation` excludes just that, and `exactAtFlushes_iff` shows that
nothing else can go wrong.
-/

namespace PgCutover.PgStat

open Lib List

/-- A table as the current level sees it: its number of live rows, and whether the
transaction has changed or truncated it in work that has not been rolled back. -/
structure TableView where
  rows : ℕ
  touched : Bool := false
  truncated : Bool := false
  deriving DecidableEq, Repr

/-- The effect of a row operation on the view of a table. -/
def TableView.step (key : RelKey) (op : RowOp) (v : TableView) : TableView :=
  if op.rel.key = key then
    match op with
    | .insert _ n => { v with rows := v.rows + n, touched := true }
    | .update _ _ _ => { v with touched := true }
    | .delete _ => { v with rows := v.rows - 1, touched := true }
    | .truncate _ => { rows := 0, touched := true, truncated := true }
  else v

/-- Operations the executor can perform on a table whose statistics are counted: a
deleted row is a live one. -/
def RowOp.Possible (key : RelKey) (op : RowOp) (v : TableView) : Prop :=
  op.rel.key = key → op.rel.pgstatEnabled = true ∧
    match op with
    | .delete _ => 0 < v.rows
    | _ => True

theorem TableView.step_touched (v : TableView) (op : RowOp) :
    (v.step op.rel.key op).touched = true := by
  cases op <;> simp [step]

/-! ### Records describe what each level sees -/

/-- The live rows after the work of the records, innermost first, on a table that had
`base` rows. -/
def liveAfter (base : ℤ) (records : List PgStatTableXactStatus) : ℤ :=
  records.foldr (fun record live =>
    (if record.truncdropped then 0 else live) + (record.tuplesInserted - record.tuplesDeleted)) base

@[simp] theorem liveAfter_nil (base : ℤ) : liveAfter base [] = base := rfl

@[simp] theorem liveAfter_cons (base : ℤ) (record : PgStatTableXactStatus)
    (records : List PgStatTableXactStatus) :
    liveAfter base (record :: records) =
      (if record.truncdropped then 0 else liveAfter base records) +
        (record.tuplesInserted - record.tuplesDeleted) := rfl

/-- The records say what the view says. -/
structure Describes (base : ℤ) (records : List PgStatTableXactStatus) (v : TableView) :
    Prop where
  rows : (v.rows : ℤ) = liveAfter base records
  touched : v.touched = !records.isEmpty
  truncated : v.truncated = records.any (·.truncdropped)

/-- The records of the levels up to each open one describe what that level sees,
innermost first. The view at the head of `views` is that of level `views.length - 1`. -/
def Sees (base : ℤ) : List TableView → List PgStatTableXactStatus → Prop
  | [], _ => True
  | v :: outer, records =>
    Describes base records v ∧ Sees base outer (records.filter (·.nestLevel < outer.length))

variable {base : ℤ} {v : TableView} {tabstat : PgStatTableStatus} {s : Backend}
  {records : List PgStatTableXactStatus} {key : RelKey}

/-- Merging a committed record into its parent's changes nothing for the parent. -/
theorem Describes.mergeInto {record upper : PgStatTableXactStatus}
    (h : Describes base (record :: upper :: records) v) :
    Describes base (record.mergeInto upper :: records) v where
  rows := by
    rw [h.rows]
    cases ht : record.truncdropped with
    | true => simp [PgStatTableXactStatus.mergeInto, ht]
    | false =>
      simp only [PgStatTableXactStatus.mergeInto, ht, liveAfter_cons]
      simp only [Bool.false_eq_true, if_false]
      omega
  touched := by simpa using h.touched
  truncated := by
    rw [h.truncated]
    simp [PgStatTableXactStatus.mergeInto_truncdropped, Bool.or_assoc]

/-- Reusing a record for another level changes nothing either. -/
theorem Describes.relevel {record : PgStatTableXactStatus}
    (h : Describes base (record :: records) v) (n : ℕ) :
    Describes base ({ record with nestLevel := n } :: records) v :=
  ⟨h.rows, h.touched, h.truncated⟩

/-- A row operation on the record of the current level. -/
theorem describes_record (record : PgStatTableXactStatus)
    (records : List PgStatTableXactStatus) {op : RowOp}
    (hok : op.Possible op.rel.key v) (hrows : (v.rows : ℤ) = liveAfter base (record :: records))
    (htrunc : v.truncated = (record :: records).any (·.truncdropped)) :
    Describes base (op.record record :: records) (v.step op.rel.key op) := by
  rw [liveAfter_cons] at hrows
  cases op with
  | insert =>
    refine ⟨?_, v.step_touched _, by simpa [TableView.step, RowOp.record] using htrunc⟩
    simp only [TableView.step, if_true, RowOp.record, liveAfter_cons]
    omega
  | update =>
    refine ⟨?_, v.step_touched _, by simpa [TableView.step, RowOp.record] using htrunc⟩
    simpa only [TableView.step, if_true, RowOp.record, liveAfter_cons] using hrows
  | delete =>
    have hpos : 0 < v.rows := (hok rfl).2
    refine ⟨?_, v.step_touched _, by simpa [TableView.step, RowOp.record] using htrunc⟩
    simp only [TableView.step, if_true, RowOp.record, liveAfter_cons]
    omega
  | truncate =>
    refine ⟨?_, v.step_touched _, ?_⟩
    all_goals simp [TableView.step, RowOp.record, PgStatTableXactStatus.clearCounters]

/-- A row operation on a table, with a record of the current level or without. -/
theorem describes_onTable {op : RowOp}
    (h : Describes base tabstat.trans v) (hok : op.Possible op.rel.key v) (n : ℕ) :
    Describes base (op.onTable n tabstat).trans (v.step op.rel.key op) := by
  rcases tabstat with ⟨_ | ⟨newest, upper⟩, _⟩
  · have hnew := describes_record { nestLevel := n } [] hok (by simpa using h.rows)
      (by simpa using h.truncated)
    simpa [RowOp.onTable, PgStatTableStatus.ensureLevel, PgStatTableStatus.modifyNewest] using hnew
  · by_cases hlevel : newest.nestLevel = n
    · have hold := describes_record newest upper hok h.rows h.truncated
      simpa [RowOp.onTable, PgStatTableStatus.ensureLevel, PgStatTableStatus.modifyNewest,
        hlevel] using hold
    · have hnew := describes_record { nestLevel := n } (newest :: upper) hok (by simpa using h.rows)
        (by simpa using h.truncated)
      simpa [RowOp.onTable, PgStatTableStatus.ensureLevel, PgStatTableStatus.modifyNewest,
        hlevel] using hnew

/-- A row operation at level `n` leaves the records of the enclosing levels alone. -/
theorem filter_onTable (op : RowOp) (n : ℕ) (tabstat : PgStatTableStatus) :
    (op.onTable n tabstat).trans.filter (·.nestLevel < n) =
      tabstat.trans.filter (·.nestLevel < n) := by
  rcases tabstat with ⟨_ | ⟨newest, _⟩, _⟩
  · simp [RowOp.onTable, PgStatTableStatus.ensureLevel, PgStatTableStatus.modifyNewest]
  · by_cases hlevel : newest.nestLevel = n <;>
      simp [RowOp.onTable, PgStatTableStatus.ensureLevel, PgStatTableStatus.modifyNewest, hlevel]

/-- The records of the enclosing levels are what is left without the newest record,
if that is of the current level. -/
theorem filter_lt_level {n : ℕ}
    (hsorted : tabstat.levels.Pairwise (· > ·)) (hle : ∀ m ∈ tabstat.levels, m ≤ n) :
    tabstat.trans.filter (·.nestLevel < n) =
      if tabstat.AtLevel n then tabstat.trans.tail else tabstat.trans := by
  rcases tabstat with ⟨_ | ⟨newest, upper⟩, _⟩
  · simp
  · simp only [PgStatTableStatus.levels, map_cons, pairwise_cons, mem_map,
      forall_exists_index, and_imp, forall_apply_eq_imp_iff₂, mem_cons,
      forall_eq_or_imp] at hsorted hle
    have hupper : upper.filter (·.nestLevel < n) = upper :=
      filter_eq_self.mpr fun record hrecord => by
        have := hsorted.1 record hrecord
        simp only [decide_eq_true_eq]
        omega
    by_cases hlevel : newest.nestLevel = n
    · simp [hlevel, hupper]
    · have hlt : newest.nestLevel < n := lt_of_le_of_ne hle.1 hlevel
      simp [hlevel, hlt, hupper]

/-- Committing a subtransaction does not change what the records describe. -/
theorem Describes.endSub (h : Describes base tabstat.trans v) (nestDepth : ℕ) :
    Describes base (tabstat.endSub true nestDepth).trans v := by
  unfold PgStatTableStatus.endSub
  rcases tabstat with ⟨_ | ⟨_, _ | ⟨upper, _⟩⟩, _⟩
  · exact h
  · exact h.relevel _
  · by_cases hlevel : upper.nestLevel = nestDepth - 1
    · simpa [hlevel] using h.mergeInto
    · simpa [hlevel] using h.relevel (nestDepth - 1)

/-- Ending the level `d + 1` leaves the records below `d` alone. -/
theorem filter_endSub (isCommit : Bool) (d : ℕ) (tabstat : PgStatTableStatus) :
    (tabstat.endSub isCommit (d + 1)).trans.filter (·.nestLevel < d) =
      tabstat.trans.tail.filter (·.nestLevel < d) := by
  unfold PgStatTableStatus.endSub
  rcases tabstat with ⟨_ | ⟨_, _ | ⟨upper, _⟩⟩, _⟩
  · rfl
  · cases isCommit <;> simp
  · cases isCommit with
    | false => rfl
    | true => by_cases hlevel : upper.nestLevel = d <;> simp [hlevel]

/-- The state of a backend inside of a transaction follows one table: its records
describe the table at every open level, and the pending counts that matter for live
tuples are still those of earlier transactions. -/
structure Follows (key : RelKey) (base delta : ℤ) (flag : Bool) (views : List TableView)
    (s : Backend) : Prop where
  linked : s.WellLinked
  level : views.length = s.nestLevel + 1
  sees : Sees base views (s.pending key).trans
  delta : (s.pending key).counts.deltaLiveTuples = delta
  flag : (s.pending key).counts.truncdropped = flag

namespace Follows

variable {delta : ℤ} {flag : Bool} {v' v'' : TableView} {saved : List TableView}

theorem count {op : RowOp} (hok : op.Possible key v)
    (h : Follows key base delta flag (v :: v' :: saved) s) :
    Follows key base delta flag (v.step key op :: v' :: saved) (op.count s) := by
  have hlevel : (v' :: saved).length = s.nestLevel := by simpa using h.level
  have hpos : 1 ≤ s.nestLevel := by simp [← hlevel]
  have hlinked := h.linked.rowOp hpos op
  obtain ⟨hdescribes, houter⟩ := h.sees
  rw [hlevel] at houter
  by_cases hkey : op.rel.key = key
  · subst hkey
    have hcount := RowOp.count_pending (hok rfl).1 s
    refine ⟨hlinked, by simpa using h.level, ?_, ?_, ?_⟩
    · rw [hcount]
      refine ⟨describes_onTable hdescribes hok _, ?_⟩
      rw [hlevel, filter_onTable]
      exact houter
    · simpa [hcount] using h.delta
    · simpa [hcount] using h.flag
  · have hstep : v.step key op = v := if_neg hkey
    rw [hstep]
    refine ⟨hlinked, by simpa using h.level, ?_, ?_, ?_⟩ <;> rw [RowOp.count_pending_of_ne hkey]
    exacts [h.sees, h.delta, h.flag]

theorem beginXact (h : Follows key base delta flag (v :: saved) s) :
    Follows key base delta flag (v :: v :: saved) s.beginXact := by
  have hlevel : saved.length = s.nestLevel := by simpa using h.level
  have hall : (s.pending key).trans.filter (·.nestLevel < (v :: saved).length) =
      (s.pending key).trans := by
    refine filter_eq_self.mpr fun record hrecord => ?_
    have hmem : record.nestLevel ∈ s.levels key := mem_map_of_mem hrecord
    have hle := (h.linked.bounded _ (h.linked.mem_stackLevels hmem)).2
    simp only [length_cons, decide_eq_true_eq]
    omega
  refine ⟨h.linked.beginXact, by simp [Backend.beginXact, hlevel], ⟨h.sees.1, ?_⟩, h.delta, h.flag⟩
  exact hall.symm ▸ h.sees

theorem endXact (isCommit : Bool) (h : Follows key base delta flag (v :: v' :: v'' :: saved) s) :
    Follows key base delta flag ((if isCommit then v else v') :: v'' :: saved)
      (s.endXact isCommit) := by
  obtain ⟨d, hd⟩ : ∃ d, s.nestLevel = d + 1 := ⟨saved.length + 1, by simpa using h.level.symm⟩
  have hlen : (v'' :: saved).length = d := by
    have := h.level
    simp only [length_cons] at this ⊢
    omega
  have hd1 : 1 ≤ d := by simp [← hlen]
  have hpending := h.linked.endSub_pending hd hd1 isCommit key
  have hnest : (s.endXact isCommit).nestLevel = d := by rw [Backend.endXact_of_sub hd hd1]
  have hfilter := filter_lt_level (h.linked.levels_sorted key)
    (fun m hm => hd ▸ (h.linked.bounded m (h.linked.mem_stackLevels hm)).2)
  have hlen' : (v' :: v'' :: saved).length = d + 1 := by rw [length_cons, hlen]
  obtain ⟨hv, hv', houter⟩ := h.sees
  rw [hlen', hfilter] at hv' houter
  rw [hlen] at houter
  refine ⟨h.linked.endXact (by omega) isCommit, ?_, ?_, ?_, ?_⟩
  · rw [hnest, length_cons, hlen]
  · rw [hpending]
    unfold Sees
    rw [hlen]
    split_ifs at hv' houter ⊢ with hat hcommit
    · subst hcommit
      exact ⟨hv.endSub _, by rw [filter_endSub]; exact houter⟩
    · rw [Bool.not_eq_true] at hcommit
      subst hcommit
      rw [PgStatTableStatus.endSub_abort_trans]
      exact ⟨hv', houter⟩
    · exact ⟨hv, houter⟩
    · exact ⟨hv', houter⟩
  · rw [hpending, ← h.delta]
    split_ifs <;> simp
  · rw [hpending, ← h.flag]
    split_ifs <;> simp

end Follows

/-- **The records follow the table.** Executing a body at any level of a transaction
leads to records that describe the table as the atomic semantics of the body has it. -/
theorem Follows.run {delta : ℤ} {flag : Bool} {v' : TableView}
    {saved : List TableView} (body : XactBody RowOp)
    (hok : body.Admissible (TableView.step key) (RowOp.Possible key) v)
    (h : Follows key base delta flag (v :: v' :: saved) s) :
    Follows key base delta flag (body.denote (TableView.step key) v :: v' :: saved)
      (body.run (backendMachine RowOp.count) s) :=
  body.run_simulates (backendMachine RowOp.count) (TableView.step key) (RowOp.Possible key)
    (Follows key base delta flag)
    (fun _ _ _ _ _ hok h => h.count hok)
    (fun _ _ _ h => h.beginXact)
    (fun _ _ _ _ _ h => h.endXact true)
    (fun _ _ _ _ _ h => h.endXact false)
    hok h

/-! ### Transactions and flushes -/

/-- A top-level transaction of a backend with its outcome, and the flush of the table
that follows it, if any, with the stop timestamp it reads. -/
structure Xact where
  body : XactBody RowOp
  commits : Bool
  flushAt : Option TimestampTz

/-- A backend, the shared entry of one table, the pending database entry and the
number of rows really live in the table. -/
structure TableSystem where
  backend : Backend
  tabentry : PgStatStatTabEntry
  dbentry : PgStatStatDBEntry
  rows : ℕ

/-- The table at the end of the transaction, before its outcome is known. -/
def Xact.view (x : Xact) (key : RelKey) (rows : ℕ) : TableView :=
  x.body.denote (TableView.step key) { rows := rows }

/-- The rows of the table after the transaction. -/
def Xact.rowsAfter (x : Xact) (key : RelKey) (rows : ℕ) : ℕ :=
  if x.commits then (x.view key rows).rows else rows

/-- Execute the transaction. -/
def Backend.runXact (s : Backend) (x : Xact) : Backend :=
  (x.body.run (backendMachine RowOp.count) s.beginXact).endXact x.commits

/-- Flush the pending entry of the table; a flushed entry is deleted. -/
def TableSystem.flush (sys : TableSystem) (key : RelKey) (stopTime : TimestampTz) :
    TableSystem :=
  match pgstatRelationFlushCb true false stopTime (sys.backend.pending key).counts
      sys.tabentry sys.dbentry with
  | none => sys
  | some (tabentry, dbentry) =>
    { sys with backend := sys.backend.setPending key {}, tabentry := tabentry, dbentry := dbentry }

/-- Execute a transaction and the flush after it. -/
def TableSystem.after (sys : TableSystem) (key : RelKey) (x : Xact) : TableSystem :=
  let sys := { sys with backend := sys.backend.runXact x, rows := x.rowsAfter key sys.rows }
  match x.flushAt with
  | none => sys
  | some stopTime => sys.flush key stopTime

/-- After every flush of the history, `live_tuples` is the number of rows really live. -/
def ExactAtFlushes (key : RelKey) : List Xact → TableSystem → Prop
  | [], _ => True
  | x :: rest, sys =>
    (x.flushAt.isSome → (sys.after key x).tabentry.liveTuples = (sys.after key x).rows) ∧
      ExactAtFlushes key rest (sys.after key x)

/-- The executor can perform every operation of the history. -/
def PossibleHistory (key : RelKey) : List Xact → ℕ → Prop
  | [], _ => True
  | x :: rest, rows =>
    x.body.Admissible (TableView.step key) (RowOp.Possible key) { rows := rows } ∧
      PossibleHistory key rest (x.rowsAfter key rows)

/-- What committed transactions did to the table since the last flush: whether one of
them truncated it, whether the last one that changed it did, and how many rows it had
at that flush. -/
structure Window where
  flushedRows : ℕ
  truncated : Bool := false
  lastTruncated : Bool := false

/-- Account for a transaction that left the table in the given view. -/
def Window.next (w : Window) (commits : Bool) (v : TableView) : Window :=
  if commits && v.touched then
    { w with truncated := w.truncated || v.truncated, lastTruncated := v.truncated }
  else w

/-- At every flush of a table that was not empty at the previous one, a truncation
committed in between is followed by no committed change of a transaction that did not
truncate. -/
def KeepsTruncation (key : RelKey) : List Xact → ℕ → Window → Prop
  | [], _, _ => True
  | x :: rest, rows, w =>
    let w := w.next x.commits (x.view key rows)
    let rows := x.rowsAfter key rows
    match x.flushAt with
    | none => KeepsTruncation key rest rows w
    | some _ =>
      (w.truncated → w.lastTruncated ∨ w.flushedRows = 0) ∧
        KeepsTruncation key rest rows { flushedRows := rows }

/-- The shared `live_tuples` is exact, the pending entry of the table is empty and no
transaction is open. -/
structure TableSystem.Start (sys : TableSystem) (key : RelKey) : Prop where
  level : sys.backend.nestLevel = 0
  stack : sys.backend.pgStatXactStack = []
  records : ∀ rel, (sys.backend.pending rel).trans = []
  counts : (sys.backend.pending key).counts = {}
  exact : sys.tabentry.liveTuples = sys.rows

/-- Between transactions the pending counts describe the rows since the last flush. -/
structure Tracks (key : RelKey) (w : Window) (sys : TableSystem) : Prop where
  linked : sys.backend.WellLinked
  level : sys.backend.nestLevel = 0
  shared : sys.tabentry.liveTuples = w.flushedRows
  flag : (sys.backend.pending key).counts.truncdropped = w.lastTruncated
  rows : (sys.rows : ℤ) = (if w.truncated then 0 else (w.flushedRows : ℤ)) +
    (sys.backend.pending key).counts.deltaLiveTuples
  kept : w.lastTruncated = true → w.truncated = true

theorem flushed_liveTuples (tabentry : PgStatStatTabEntry) (counts : PgStatTableCounts)
    (stopTime : TimestampTz) (hpos : 0 ≤ tabentry.liveTuples) :
    (tabentry.flushed counts stopTime).liveTuples =
      max ((if counts.truncdropped then 0 else tabentry.liveTuples) +
        counts.deltaLiveTuples) 0 := by
  unfold PgStatStatTabEntry.flushed
  split_ifs with hzero htrunc htrunc
  · simp [hzero] at htrunc
  · simp [hzero, hpos]
  all_goals simp [PgStatStatTabEntry.addCounts, htrunc]

variable (sys : TableSystem)

theorem TableSystem.flush_eq (key : RelKey) (stopTime : TimestampTz) :
    ∃ dbentry, sys.flush key stopTime =
      { backend := sys.backend.setPending key {}
        tabentry := sys.tabentry.flushed (sys.backend.pending key).counts stopTime
        dbentry := dbentry
        rows := sys.rows } := by
  unfold flush pgstatRelationFlushCb PgStatStatTabEntry.flushed
  by_cases hzero : (sys.backend.pending key).counts = {}
  · rw [if_pos hzero, if_pos hzero]
    exact ⟨_, rfl⟩
  · rw [if_neg hzero, if_neg hzero]
    exact ⟨_, rfl⟩

@[simp] theorem TableSystem.flush_tabentry (key : RelKey)
    (stopTime : TimestampTz) : (sys.flush key stopTime).tabentry =
      sys.tabentry.flushed (sys.backend.pending key).counts stopTime := by
  obtain ⟨_, h⟩ := sys.flush_eq key stopTime
  rw [h]

@[simp] theorem TableSystem.flush_rows (key : RelKey)
    (stopTime : TimestampTz) : (sys.flush key stopTime).rows = sys.rows := by
  obtain ⟨_, h⟩ := sys.flush_eq key stopTime
  rw [h]

theorem TableSystem.flush_backend (key : RelKey) (stopTime : TimestampTz) :
    (sys.flush key stopTime).backend = sys.backend.setPending key {} := by
  obtain ⟨_, h⟩ := sys.flush_eq key stopTime
  rw [h]

/-- At the outermost level a table has at most one record. -/
theorem Backend.WellLinked.records_of_top (h : s.WellLinked) (hs : s.nestLevel = 1) (key : RelKey) :
    (s.pending key).trans = [] ∨ ∃ record, (s.pending key).trans = [record] := by
  have hone : ∀ record ∈ (s.pending key).trans, record.nestLevel = 1 := fun record hrecord => by
    have hmem : record.nestLevel ∈ s.levels key := mem_map_of_mem hrecord
    have := h.bounded _ (h.mem_stackLevels hmem)
    omega
  have hsorted := h.levels_sorted key
  match htrans : (s.pending key).trans with
  | [] => exact Or.inl rfl
  | [record] => exact Or.inr ⟨record, rfl⟩
  | first :: second :: rest =>
    simp only [Backend.levels, PgStatTableStatus.levels, htrans, map_cons,
      pairwise_cons, mem_cons, forall_eq_or_imp] at hsorted
    have hfirst := hone first (by simp [htrans])
    have hsecond := hone second (by simp [htrans])
    omega

/-- The counts of a table at the end of a transaction, in terms of what the transaction
did to it. -/
theorem endTop_counts (hrecords : tabstat.trans = [] ∨ ∃ record, tabstat.trans = [record])
    (h : Describes base tabstat.trans v) (isCommit : Bool) :
    (tabstat.endTop isCommit).counts.truncdropped =
        (if isCommit && v.touched then v.truncated else tabstat.counts.truncdropped) ∧
      (tabstat.endTop isCommit).counts.deltaLiveTuples =
        if isCommit then
          if v.truncated then (v.rows : ℤ) else tabstat.counts.deltaLiveTuples + (v.rows - base)
        else tabstat.counts.deltaLiveTuples := by
  obtain ⟨hrows, htouched, htruncated⟩ := h
  rcases tabstat with ⟨_, _⟩
  rcases hrecords with rfl | ⟨record, rfl⟩
  · simp only [liveAfter_nil, isEmpty_nil, Bool.not_true,
      any_nil] at hrows htouched htruncated
    simp [PgStatTableStatus.endTop, htouched, htruncated, hrows]
  · simp only [liveAfter_cons, liveAfter_nil, isEmpty_cons, Bool.not_false, any_cons,
      any_nil, Bool.or_false] at hrows htouched htruncated
    cases isCommit with
    | false => simp [PgStatTableStatus.endTop]
    | true =>
      simp only [PgStatTableStatus.endTop, htouched, htruncated, if_true, Bool.and_true,
        PgStatTableCounts.commitXact_truncdropped, PgStatTableCounts.commitXact_deltaLiveTuples,
        true_and]
      cases hrecord : record.truncdropped <;> simp [hrecord] at hrows ⊢ <;> omega

/-- A transaction that has no record of the table has left it as it was. -/
theorem Describes.of_not_touched (h : Describes base records v) (hnot : v.touched = false) :
    v.truncated = false ∧ (v.rows : ℤ) = base := by
  have hnil := h.touched
  rw [hnot, eq_comm, Bool.not_eq_eq_eq_not, Bool.not_false, List.isEmpty_iff] at hnil
  have hrows := h.rows
  have htruncated := h.truncated
  rw [hnil] at hrows htruncated
  exact ⟨htruncated, hrows⟩

/-- A backend outside of any transaction follows a table as it is. -/
theorem Backend.WellLinked.follows (h : s.WellLinked) (hlevel : s.nestLevel = 0)
    (key : RelKey) (rows : ℕ) :
    Follows key rows (s.pending key).counts.deltaLiveTuples (s.pending key).counts.truncdropped
      [{ rows := rows }] s := by
  have htrans := (h.idle hlevel).2 key
  refine ⟨h, by simp [hlevel], ⟨⟨?_, ?_, ?_⟩, trivial⟩, rfl, rfl⟩
  all_goals simp [htrans]

/-- The end of a transaction: the counts it leaves, in terms of what it did. -/
theorem Follows.endTop {delta : ℤ} {flag : Bool} {v' : TableView}
    (h : Follows key base delta flag [v, v'] s) (isCommit : Bool) :
    (s.endXact isCommit).WellLinked ∧ (s.endXact isCommit).nestLevel = 0 ∧
      ((s.endXact isCommit).pending key).counts.truncdropped =
        (if isCommit && v.touched then v.truncated else flag) ∧
      ((s.endXact isCommit).pending key).counts.deltaLiveTuples =
        if isCommit then if v.truncated then (v.rows : ℤ) else delta + (v.rows - base)
        else delta := by
  have hlevel : s.nestLevel = 1 := by simpa using h.level.symm
  have hcounts := endTop_counts (h.linked.records_of_top hlevel key) h.sees.1 isCommit
  rw [← h.linked.endTop_pending hlevel isCommit key, h.flag, h.delta] at hcounts
  refine ⟨h.linked.endXact hlevel.ge isCommit, ?_, hcounts⟩
  rw [Backend.endXact_of_top hlevel]

namespace Tracks

variable {w : Window} {sys : TableSystem}

theorem ofStart (h : sys.Start key) : Tracks key { flushedRows := sys.rows } sys where
  linked := Backend.wellLinked_of_idle h.level h.stack h.records
  level := h.level
  shared := h.exact
  flag := by rw [h.counts]
  rows := by simp [h.counts]
  kept := by simp

/-- A transaction keeps the pending counts in step with the table. -/
theorem runXact (h : Tracks key w sys) {x : Xact}
    (hok : x.body.Admissible (TableView.step key) (RowOp.Possible key) { rows := sys.rows }) :
    Tracks key (w.next x.commits (x.view key sys.rows))
      { sys with backend := sys.backend.runXact x, rows := x.rowsAfter key sys.rows } := by
  have hrun : Follows key sys.rows _ _ [x.view key sys.rows, _] _ :=
    (h.linked.follows h.level key sys.rows).beginXact.run x.body hok
  obtain ⟨hlinked, hnest, hflag, hdelta⟩ := hrun.endTop x.commits
  refine ⟨hlinked, hnest, ?_, ?_, ?_, ?_⟩
  · unfold Window.next
    split_ifs <;> exact h.shared
  · refine hflag.trans ?_
    rw [h.flag]
    unfold Window.next
    split_ifs <;> rfl
  · refine Eq.trans ?_ (congrArg _ hdelta.symm)
    have hrows := h.rows
    unfold Xact.rowsAfter Window.next
    cases hc : x.commits with
    | false => simpa using hrows
    | true =>
      cases ht : (x.view key sys.rows).touched with
      | false =>
        obtain ⟨htruncated, hsame⟩ := hrun.sees.1.of_not_touched ht
        simp [htruncated, hsame, hrows]
      | true =>
        cases htr : (x.view key sys.rows).truncated with
        | true => simp
        | false =>
          simp only [Bool.and_self, if_true, Bool.or_false, Bool.false_eq_true, if_false]
          omega
  · have hkept := h.kept
    unfold Window.next
    split_ifs
    · exact fun ht => Bool.or_eq_true _ _ ▸ Or.inr ht
    · exact hkept

/-- A flush is exact unless a truncation of a table with rows was forgotten. -/
theorem flush_exact_iff (h : Tracks key w sys) (stopTime : TimestampTz) :
    (sys.flush key stopTime).tabentry.liveTuples = (sys.flush key stopTime).rows ↔
      (w.truncated = true → w.lastTruncated = true ∨ w.flushedRows = 0) := by
  have hpos : 0 ≤ sys.tabentry.liveTuples := by rw [h.shared]; omega
  have hrows := h.rows
  have hkept := h.kept
  rw [TableSystem.flush_tabentry, TableSystem.flush_rows, flushed_liveTuples _ _ _ hpos, h.flag,
    h.shared]
  cases htr : w.truncated <;> cases hlast : w.lastTruncated <;>
    simp only [htr, hlast, Bool.false_eq_true, if_false, if_true] at hrows hkept ⊢
  · simp [← hrows]
  · exact absurd hkept (by simp)
  · simp only [forall_const, false_or]
    omega
  · simp [← hrows]

/-- An exact flush starts the next window. -/
theorem flush (h : Tracks key w sys) {stopTime : TimestampTz}
    (hexact : (sys.flush key stopTime).tabentry.liveTuples = (sys.flush key stopTime).rows) :
    Tracks key { flushedRows := sys.rows } (sys.flush key stopTime) := by
  obtain ⟨hstack, htrans⟩ := h.linked.idle h.level
  rw [TableSystem.flush_rows] at hexact
  have hbackend := sys.flush_backend key stopTime
  refine ⟨?_, ?_, hexact, ?_, ?_, by simp⟩
  · rw [hbackend]
    refine Backend.wellLinked_of_idle h.level hstack fun rel => ?_
    by_cases hrel : rel = key
    · simp [Backend.setPending, hrel]
    · simpa [Backend.setPending, hrel] using htrans rel
  · rw [hbackend]
    exact h.level
  · simp [hbackend, Backend.setPending]
  · simp [hbackend, Backend.setPending, TableSystem.flush_rows]

end Tracks

/-- Exactness of a history that starts in the middle of a window. -/
theorem Tracks.exactAtFlushes_iff_keepsTruncation (hist : List Xact) {w : Window}
    {sys : TableSystem} (h : Tracks key w sys) (hok : PossibleHistory key hist sys.rows) :
    ExactAtFlushes key hist sys ↔ KeepsTruncation key hist sys.rows w := by
  induction hist generalizing w sys with
  | nil => exact Iff.rfl
  | cons x _ ih =>
    have hx := h.runXact hok.1
    cases hflush : x.flushAt with
    | none =>
      have hafter : sys.after key x =
          { sys with backend := sys.backend.runXact x, rows := x.rowsAfter key sys.rows } := by
        simp only [TableSystem.after, hflush]
      simp only [ExactAtFlushes, KeepsTruncation, hflush, hafter, Option.isSome_none,
        Bool.false_eq_true, false_implies, true_and]
      exact ih hx hok.2
    | some stopTime =>
      have hafter : sys.after key x = TableSystem.flush
          { sys with backend := sys.backend.runXact x, rows := x.rowsAfter key sys.rows }
          key stopTime := by
        simp only [TableSystem.after, hflush]
      simp only [ExactAtFlushes, KeepsTruncation, hflush, hafter, Option.isSome_some, forall_const]
      rw [← hx.flush_exact_iff stopTime]
      refine and_congr_right fun hexact => ?_
      rw [ih (hx.flush hexact) (by rw [TableSystem.flush_rows]; exact hok.2),
        TableSystem.flush_rows]

/-- **Exactness of `live_tuples`.** From an exact shared entry and an empty pending one,
every flush of a history of transactions finds the number of rows really live exactly
when no flush window forgets a truncation. -/
theorem liveTuples_exactAtFlushes_iff (key : RelKey) (hist : List Xact) (sys : TableSystem)
    (hstart : sys.Start key) (hok : PossibleHistory key hist sys.rows) :
    ExactAtFlushes key hist sys ↔
      KeepsTruncation key hist sys.rows { flushedRows := sys.rows } :=
  (Tracks.ofStart hstart).exactAtFlushes_iff_keepsTruncation hist hok

/-! ### A forgotten truncation -/

/-- A plain table. -/
def sampleRelation : RelationData where
  key := { id := 16384, shared := false }
  pgstatEnabled := true
  isPartitionedTable := false

/-- A table with five rows, exactly accounted for, and an idle backend. -/
def sampleSystem : TableSystem where
  backend := {}
  tabentry := { liveTuples := 5 }
  dbentry := {}
  rows := 5

theorem sampleSystem_start : sampleSystem.Start sampleRelation.key :=
  ⟨rfl, rfl, fun _ => rfl, rfl, rfl⟩

/-- An aborted truncation in a subtransaction, then a committed one that a flush
follows. -/
def keptTruncation : List Xact :=
  [ { body := .act (.insert sampleRelation 2)
        (.sub (.act (.truncate sampleRelation) .nil) false (.act (.delete sampleRelation) .nil))
      commits := true
      flushAt := none },
    { body := .act (.truncate sampleRelation) (.act (.insert sampleRelation 3) .nil)
      commits := true
      flushAt := some 0 } ]

theorem liveTuples_exactAtFlushes_keptTruncation :
    sampleSystem.Start sampleRelation.key ∧
      PossibleHistory sampleRelation.key keptTruncation sampleSystem.rows ∧
      ExactAtFlushes sampleRelation.key keptTruncation sampleSystem := by
  have hok : PossibleHistory sampleRelation.key keptTruncation sampleSystem.rows := by
    simp [PossibleHistory, keptTruncation, XactBody.Admissible, RowOp.Possible, RowOp.rel,
      sampleRelation, sampleSystem, TableView.step]
  refine ⟨sampleSystem_start, hok, ?_⟩
  rw [liveTuples_exactAtFlushes_iff _ _ _ sampleSystem_start hok]
  refine ⟨fun _ => Or.inl rfl, trivial⟩

/-- A committed truncation, then a committed insertion before the counts are flushed. -/
def lostTruncation : List Xact :=
  [ { body := .act (.truncate sampleRelation) .nil, commits := true, flushAt := none },
    { body := .act (.insert sampleRelation 1) .nil, commits := true, flushAt := some 0 } ]

/-- The flush reports six live rows where there is one. -/
theorem not_exactAtFlushes_lostTruncation :
    sampleSystem.Start sampleRelation.key ∧
      PossibleHistory sampleRelation.key lostTruncation sampleSystem.rows ∧
      ¬ ExactAtFlushes sampleRelation.key lostTruncation sampleSystem := by
  refine ⟨sampleSystem_start, ?_, fun h => ?_⟩
  · simp [PossibleHistory, lostTruncation, XactBody.Admissible, RowOp.Possible, RowOp.rel,
      sampleRelation]
  · exact absurd (h.2.1 rfl) (by decide)

/-- The entry of the current level is the top of the stack. -/
theorem Linked.head?_eq {d : ℕ} {stack : List PgStatSubXactStatus} {levels : RelKey → List ℕ}
    {entry : PgStatSubXactStatus} (h : Linked d stack levels) (hmem : entry ∈ stack)
    (hlevel : entry.nestLevel = d) : stack.head? = some entry := by
  cases stack with
  | nil => exact absurd hmem List.not_mem_nil
  | cons top rest =>
    rcases List.mem_cons.mp hmem with rfl | hrest
    · rfl
    · -- a level above the current one
      have hlt := List.rel_of_pairwise_cons h.sorted (List.mem_map_of_mem hrest)
      have hle := (h.bounded _ List.mem_cons_self).2
      omega

/-- In every reachable state a record belongs to a level that is still open, no two records of a
table to one level, and the level's stack entry lists the table; the entry of the level that ends
next is the top of the stack. -/
theorem Backend.Reachable.records_open {s : Backend} (h : s.Reachable) (rel : RelKey) :
    (s.levels rel).Pairwise (· > ·) ∧
      (∀ n ∈ s.levels rel, 1 ≤ n ∧ n ≤ s.nestLevel ∧
        ∃ entry ∈ s.pgStatXactStack, entry.nestLevel = n ∧ rel ∈ entry.first) ∧
      ∀ entry ∈ s.pgStatXactStack, entry.nestLevel = s.nestLevel →
        s.pgStatXactStack.head? = some entry := by
  have hlinked := h.wellLinked
  refine ⟨hlinked.levels_sorted rel, fun n hn => ?_, fun entry hmem => hlinked.head?_eq hmem⟩
  have hcarries := (hlinked.carries_iff rel n).mpr hn
  obtain ⟨hpos, hle⟩ := hlinked.bounded n (hlinked.mem_stackLevels hn)
  exact ⟨hpos, hle, hcarries⟩

/-- An insertion inside a subtransaction: the top entry lists the table. -/
theorem records_open_insert :
    ∃ top ∈ ((RowOp.insert sampleRelation 2).count
        ({} : Backend).beginXact.beginXact).pgStatXactStack.head?,
      top.nestLevel = 2 ∧ sampleRelation.key ∈ top.first := by
  have hreach : ((RowOp.insert sampleRelation 2).count
      ({} : Backend).beginXact.beginXact).Reachable :=
    .count (.beginXact (.beginXact (.idle rfl rfl fun _ => rfl))) (by decide)
      (.row (.insert sampleRelation 2))
  obtain ⟨-, hopen, htop⟩ := Backend.Reachable.records_open hreach sampleRelation.key
  obtain ⟨-, -, entry, hmem, hlevel, hfirst⟩ := hopen 2 (by decide)
  exact ⟨entry, htop entry hmem hlevel, hlevel, hfirst⟩

end PgCutover.PgStat
