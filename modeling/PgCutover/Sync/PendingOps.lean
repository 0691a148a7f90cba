import PgCutover.Lib.Loops
import PgCutover.Sync.RequestQueue

/-!
# Pending sync operations

The checkpointer keeps one entry for each file with sync requests, with the cycle of the oldest
request.
-/

namespace PgCutover.Sync

open Function List

open Lib (replay replay_cons)

/-- `PendingFsyncEntry`. -/
structure PendingFsyncEntry where
  tag : FileTag
  cycleCtr : UInt16
  canceled : Bool

/-- `PendingUnlinkEntry`. -/
structure PendingUnlinkEntry where
  tag : FileTag
  cycleCtr : UInt16
  canceled : Bool

/-- The hash table, which has one entry for each tag. -/
structure PendingOps where
  entries : List PendingFsyncEntry
  nodup : (entries.map PendingFsyncEntry.tag).Nodup

namespace PendingOps

/-- No operation is pending. -/
def empty : PendingOps := ⟨[], nodup_nil⟩

/-- The entry of a file. -/
def find? (ops : PendingOps) (tag : FileTag) : Option PendingFsyncEntry :=
  ops.entries.find? fun entry => entry.tag = tag

/-- New contents for every entry. -/
def mapEntries (ops : PendingOps) (f : PendingFsyncEntry → UInt16 × Bool) : PendingOps where
  entries := ops.entries.map fun entry => ⟨entry.tag, (f entry).1, (f entry).2⟩
  nodup := by
    rw [map_map]
    exact ops.nodup

/-- A new entry for a tag that has none. -/
def insert (ops : PendingOps) (tag : FileTag) (cycleCtr : UInt16)
    (h : tag ∉ ops.entries.map PendingFsyncEntry.tag) : PendingOps where
  entries := ⟨tag, cycleCtr, false⟩ :: ops.entries
  nodup := nodup_cons.2 ⟨h, ops.nodup⟩

/-- The table without the entry of a file. -/
def remove (ops : PendingOps) (tag : FileTag) : PendingOps where
  entries := ops.entries.filter fun entry => entry.tag ≠ tag
  nodup := ops.nodup.sublist (filter_sublist.map _)

/-- `HASH_ENTER`; an entry that is new or was canceled is initialized. -/
def enter (ops : PendingOps) (tag : FileTag) (cycleCtr : UInt16) : PendingOps :=
  if h : tag ∈ ops.entries.map PendingFsyncEntry.tag then
    ops.mapEntries fun entry =>
      if entry.tag = tag ∧ entry.canceled then (cycleCtr, false)
      else (entry.cycleCtr, entry.canceled)
  else ops.insert tag cycleCtr h

/-- The table with the entries of the matching files canceled. -/
def cancel (ops : PendingOps) (p : FileTag → Bool) : PendingOps :=
  ops.mapEntries fun entry => (entry.cycleCtr, entry.canceled || p entry.tag)

/-- The file has a request that is not canceled. -/
def live (ops : PendingOps) (f : FileTag) : Bool :=
  ops.entries.any fun entry => entry.tag = f && !entry.canceled

end PendingOps

/-- `sync_filetagmatches`, which only the handler for magnetic disk has. -/
def filetagmatches (ftag candidate : FileTag) : Bool :=
  match ftag.handler with
  | .md => ftag.rlocator.dbOid = candidate.rlocator.dbOid
  | _ => false

/-- A filter request matches a file. -/
def filterMatches (ftag candidate : FileTag) : Bool :=
  candidate.handler = ftag.handler && filetagmatches ftag candidate

/-- The checkpointer's own variables. -/
structure SyncState where
  pendingOps : PendingOps
  pendingUnlinks : List PendingUnlinkEntry
  syncCycleCtr : UInt16
  checkpointCycleCtr : UInt16

/-- `RememberSyncRequest`. -/
def rememberSyncRequest (s : SyncState) (request : CheckpointerRequest) : SyncState :=
  match request.type with
  | .forgetRequest =>
    { s with pendingOps := s.pendingOps.cancel fun tag => tag = request.ftag }
  | .filterRequest =>
    { s with
      pendingOps := s.pendingOps.cancel fun tag => filterMatches request.ftag tag
      pendingUnlinks := s.pendingUnlinks.map fun entry =>
        if filterMatches request.ftag entry.tag then { entry with canceled := true } else entry }
  | .unlinkRequest =>
    { s with
      pendingUnlinks := s.pendingUnlinks ++ [⟨request.ftag, s.checkpointCycleCtr, false⟩] }
  | .request => { s with pendingOps := s.pendingOps.enter request.ftag s.syncCycleCtr }

/-! ### What becomes of one file -/

/-- A request after which the file need not be synced. -/
def CheckpointerRequest.covers (request : CheckpointerRequest) (f : FileTag) : Bool :=
  match request.type with
  | .forgetRequest => f = request.ftag
  | .filterRequest => filterMatches request.ftag f
  | _ => false

/-- Whether the request asks for a sync of the file or takes it back. -/
def CheckpointerRequest.act (f : FileTag) (request : CheckpointerRequest) : Option Bool :=
  if request.covers f then some false
  else if request = ⟨f, .request⟩ then some true
  else none

namespace PendingOps

variable {ops : PendingOps} {f tag : FileTag} {c : UInt16}

theorem live_iff : ops.live f = true ↔ ∃ e ∈ ops.entries, e.tag = f ∧ e.canceled = false := by
  simp [live]

theorem live_cancel (p : FileTag → Bool) :
    (ops.cancel p).live f = (ops.live f && !p f) := by
  rw [live, cancel, mapEntries, any_map, live, Bool.eq_iff_iff]
  simp only [any_eq_true, Function.comp_apply, Bool.and_eq_true, decide_eq_true_eq,
    Bool.not_eq_true', Bool.or_eq_false_iff]
  constructor
  · rintro ⟨e, he, rfl, hcanceled, hp⟩
    exact ⟨⟨e, he, rfl, hcanceled⟩, hp⟩
  · rintro ⟨⟨e, he, rfl, hcanceled⟩, hp⟩
    exact ⟨e, he, rfl, hcanceled, hp⟩

/-- An entry of the table after a sync request was there before or is that of the request. -/
theorem mem_enter {e : PendingFsyncEntry} (h : e ∈ (ops.enter tag c).entries) :
    e ∈ ops.entries ∨ e = ⟨tag, c, false⟩ := by
  rw [enter] at h
  split_ifs at h with hmem
  · obtain ⟨_, he', rfl⟩ := mem_map.1 h
    dsimp only
    split_ifs with htag
    · exact Or.inr (by rw [htag.1])
    · exact Or.inl he'
  · rcases mem_cons.1 h with rfl | h
    · exact Or.inr rfl
    · exact Or.inl h

theorem mem_enter_of_not_canceled {e : PendingFsyncEntry} (he : e ∈ ops.entries)
    (hcanceled : e.canceled = false) : e ∈ (ops.enter tag c).entries := by
  rw [enter]
  split_ifs
  · refine mem_map.2 ⟨e, he, ?_⟩
    dsimp only
    rw [if_neg (by rw [hcanceled]; simp)]
  · exact mem_cons_of_mem _ he

theorem live_enter_self : (ops.enter tag c).live tag = true := by
  rw [live_iff]
  by_cases hmem : tag ∈ ops.entries.map PendingFsyncEntry.tag
  · obtain ⟨e, he, rfl⟩ := mem_map.1 hmem
    by_cases hcanceled : e.canceled = true
    · refine ⟨⟨e.tag, c, false⟩, ?_, rfl, rfl⟩
      rw [enter, dif_pos hmem]
      refine mem_map.2 ⟨e, he, ?_⟩
      dsimp only
      rw [if_pos ⟨rfl, hcanceled⟩]
    · rw [Bool.not_eq_true] at hcanceled
      exact ⟨e, mem_enter_of_not_canceled he hcanceled, rfl, hcanceled⟩
  · refine ⟨⟨tag, c, false⟩, ?_, rfl, rfl⟩
    rw [enter, dif_neg hmem]
    exact mem_cons_self

theorem live_enter : (ops.enter tag c).live f = (ops.live f || decide (f = tag)) := by
  rw [Bool.eq_iff_iff, Bool.or_eq_true, decide_eq_true_eq]
  constructor
  · intro h
    obtain ⟨e, he, htag, hcanceled⟩ := live_iff.1 h
    rcases mem_enter he with he | rfl
    · exact Or.inl (live_iff.2 ⟨e, he, htag, hcanceled⟩)
    · exact Or.inr htag.symm
  · rintro (h | rfl)
    · obtain ⟨e, he, htag, hcanceled⟩ := live_iff.1 h
      exact live_iff.2 ⟨e, mem_enter_of_not_canceled he hcanceled, htag, hcanceled⟩
    · exact live_enter_self

end PendingOps

variable {s : SyncState} {f : FileTag} {request : CheckpointerRequest}

theorem live_rememberSyncRequest :
    (rememberSyncRequest s request).pendingOps.live f =
      (request.act f).getD (s.pendingOps.live f) := by
  obtain ⟨ftag, type⟩ := request
  cases type with
  | forgetRequest =>
    rw [rememberSyncRequest, CheckpointerRequest.act, CheckpointerRequest.covers,
      PendingOps.live_cancel]
    by_cases hf : f = ftag <;> simp [hf]
  | filterRequest =>
    rw [rememberSyncRequest, CheckpointerRequest.act, CheckpointerRequest.covers,
      PendingOps.live_cancel]
    cases hf : filterMatches ftag f <;> simp
  | unlinkRequest => simp [rememberSyncRequest, CheckpointerRequest.act, CheckpointerRequest.covers]
  | request =>
    rw [rememberSyncRequest, CheckpointerRequest.act, CheckpointerRequest.covers,
      PendingOps.live_enter]
    by_cases hf : f = ftag
    · simp [hf]
    · simp [hf, Ne.symm hf]

/-- `RememberSyncRequest` for each request. -/
def rememberAll (s : SyncState) (requests : List CheckpointerRequest) : SyncState :=
  requests.foldl rememberSyncRequest s

theorem live_rememberAll (requests : List CheckpointerRequest) :
    (rememberAll s requests).pendingOps.live f =
      replay (CheckpointerRequest.act f) (s.pendingOps.live f) requests := by
  induction requests generalizing s with
  | nil => rfl
  | cons _ _ ih =>
    rw [replay_cons, ← live_rememberSyncRequest, ← ih]
    rfl

/-! ### Cycles -/

theorem syncCycleCtr_rememberSyncRequest :
    (rememberSyncRequest s request).syncCycleCtr = s.syncCycleCtr := by
  rw [rememberSyncRequest]
  split <;> rfl

theorem syncCycleCtr_rememberAll (requests : List CheckpointerRequest) :
    (rememberAll s requests).syncCycleCtr = s.syncCycleCtr := by
  induction requests generalizing s with
  | nil => rfl
  | cons _ _ ih => exact (ih ..).trans syncCycleCtr_rememberSyncRequest

variable {e : PendingFsyncEntry} {requests : List CheckpointerRequest}

theorem old_rememberSyncRequest (he : e ∈ (rememberSyncRequest s request).pendingOps.entries)
    (hcycle : e.cycleCtr ≠ s.syncCycleCtr) :
    ∃ e' ∈ s.pendingOps.entries, e'.tag = e.tag ∧ e'.cycleCtr = e.cycleCtr := by
  rw [rememberSyncRequest] at he
  split at he
  case h_1 | h_2 =>
    obtain ⟨e', he', rfl⟩ := mem_map.1 he
    exact ⟨e', he', rfl, rfl⟩
  · exact ⟨e, he, rfl, rfl⟩
  · rcases PendingOps.mem_enter he with he | rfl
    · exact ⟨e, he, rfl, rfl⟩
    · exact absurd rfl hcycle

theorem old_rememberAll (he : e ∈ (rememberAll s requests).pendingOps.entries)
    (hcycle : e.cycleCtr ≠ s.syncCycleCtr) :
    ∃ e' ∈ s.pendingOps.entries, e'.tag = e.tag ∧ e'.cycleCtr = e.cycleCtr := by
  induction requests generalizing s with
  | nil => exact ⟨e, he, rfl, rfl⟩
  | cons _ _ ih =>
    obtain ⟨_, he', htag, hcycle'⟩ := ih he (by rwa [syncCycleCtr_rememberSyncRequest])
    obtain ⟨e'', he'', htag', hcycle''⟩ := old_rememberSyncRequest he' (by rwa [hcycle'])
    exact ⟨e'', he'', htag'.trans htag, hcycle''.trans hcycle'⟩

/-- An entry that is not canceled stays as it is. -/
theorem mem_rememberSyncRequest (he : e ∈ s.pendingOps.entries)
    (hcanceled : e.canceled = false) (hcovers : request.covers e.tag = false) :
    e ∈ (rememberSyncRequest s request).pendingOps.entries := by
  obtain ⟨ftag, type⟩ := request
  cases type with
  | forgetRequest =>
    refine mem_map.2 ⟨e, he, ?_⟩
    have hne : decide (e.tag = ftag) = false := hcovers
    dsimp only
    rw [hne, Bool.or_false]
  | filterRequest =>
    refine mem_map.2 ⟨e, he, ?_⟩
    have hne : filterMatches ftag e.tag = false := hcovers
    dsimp only
    rw [hne, Bool.or_false]
  | unlinkRequest => exact he
  | request => exact PendingOps.mem_enter_of_not_canceled he hcanceled

theorem mem_rememberAll (he : e ∈ s.pendingOps.entries) (hcanceled : e.canceled = false)
    (hcovers : ∀ r ∈ requests, CheckpointerRequest.covers r e.tag = false) :
    e ∈ (rememberAll s requests).pendingOps.entries := by
  induction requests generalizing s with
  | nil => exact he
  | cons _ _ ih =>
    rw [forall_mem_cons] at hcovers
    exact ih (mem_rememberSyncRequest he hcanceled hcovers.1) hcovers.2

end PgCutover.Sync
