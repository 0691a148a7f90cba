import PgCutover.Lib.Loops
import PgCutover.Lib.Runs
import PgCutover.Sync.Checkpoints

/-!
# Files are synced by the next checkpoint

The requests in the queue and the table of pending operations say together whether a file is still
to be synced; what is accepted, absorbed or compacted does not change the answer but for requests
about the file.
-/

namespace PgCutover.Sync

open Function List Lib

variable {request : CheckpointerRequest} {e : PendingFsyncEntry}

variable {maxRequests : ℕ} {s t : State} {f tag : FileTag}

/-! ### Entries -/

variable {ops : PendingOps} {event : Event} {l : List Event}
  {requests requests' : List CheckpointerRequest}

theorem PendingOps.eq_of_tag {e e' : PendingFsyncEntry} (he : e ∈ ops.entries)
    (he' : e' ∈ ops.entries) (h : e.tag = e'.tag) : e = e' :=
  inj_on_of_nodup_map ops.nodup he he' h

theorem PendingOps.mem_remove {e : PendingFsyncEntry} :
    e ∈ (ops.remove tag).entries ↔ e ∈ ops.entries ∧ e.tag ≠ tag := by
  rw [PendingOps.remove, mem_filter, decide_eq_true_iff]

/-- The removal of an entry changes nothing for other files. -/
theorem PendingOps.live_remove (h : f = tag → ops.live f = false) :
    (ops.remove tag).live f = ops.live f := by
  rw [Bool.eq_iff_iff, PendingOps.live_iff, PendingOps.live_iff]
  constructor
  · rintro ⟨e, he, htag, hcanceled⟩
    exact ⟨e, (PendingOps.mem_remove.1 he).1, htag, hcanceled⟩
  · rintro ⟨e, he, rfl, hcanceled⟩
    refine ⟨e, PendingOps.mem_remove.2 ⟨he, fun htag => ?_⟩, rfl, hcanceled⟩
    have hlive : ops.live e.tag = true := PendingOps.live_iff.2 ⟨e, he, rfl, hcanceled⟩
    rw [h htag] at hlive
    cases hlive

/-! ### Cycles -/

/-- The entries the scan has still to deal with. -/
def Pc.todo : Pc → List FileTag
  | .idle => []
  | .scanning todo _ => todo
  | .syncing tag _ todo _ => tag :: todo

/-- Where the scan has been, and after a scan that completed, there is no entry of an older
cycle. -/
structure Cycles (s : State) : Prop where
  inProgress : s.pc ≠ .idle → s.syncInProgress = true
  old : ∀ e ∈ s.sync.pendingOps.entries, e.cycleCtr ≠ s.sync.syncCycleCtr →
    s.syncInProgress = true ∧ (s.pc ≠ .idle → e.tag ∈ s.pc.todo)

theorem cycles_init : Cycles State.init :=
  ⟨fun h => absurd rfl h, nofun⟩

/-- Absorbed requests are of the current cycle. -/
theorem Cycles.absorb (h : Cycles s) : Cycles s.absorbSyncRequests := by
  refine ⟨h.inProgress, fun e he hcycle => ?_⟩
  rw [State.absorbSyncRequests, syncCycleCtr_rememberAll] at hcycle
  obtain ⟨e', he', htag, hcycle'⟩ := old_rememberAll he hcycle
  rw [← htag]
  exact h.old e' he' (by rwa [hcycle'])

/-- The program counter moves on and the entries stay. -/
theorem Cycles.setPc (h : Cycles s) {pc : Pc} (hpc : pc ≠ .idle → s.pc ≠ .idle)
    (htodo : pc ≠ .idle → ∀ e ∈ s.sync.pendingOps.entries,
      e.cycleCtr ≠ s.sync.syncCycleCtr → e.tag ∈ s.pc.todo → e.tag ∈ pc.todo) :
    Cycles { s with pc := pc } := by
  refine ⟨fun hidle => h.inProgress (hpc hidle), fun e he hcycle => ?_⟩
  obtain ⟨hprogress, htag⟩ := h.old e he hcycle
  exact ⟨hprogress, fun hidle => htodo hidle e he hcycle (htag (hpc hidle))⟩

/-- A file that is done leaves the scan and the table. -/
theorem Cycles.removeEntry {failures absorbCounter absorbCounter' : ℕ} {todo : List FileTag}
    (h : Cycles s) (hpc : s.pc = .syncing tag failures todo absorbCounter) :
    Cycles { s.setPendingOps (s.sync.pendingOps.remove tag) with
      pc := .scanning todo absorbCounter' } := by
  have hidle : s.pc ≠ .idle := by rw [hpc]; nofun
  refine ⟨fun _ => h.inProgress hidle, fun e he hcycle => ?_⟩
  obtain ⟨he, htag⟩ := PendingOps.mem_remove.1 he
  obtain ⟨hprogress, hmem⟩ := h.old e he hcycle
  have hmem := hmem hidle
  rw [hpc] at hmem
  exact ⟨hprogress, fun _ => (mem_cons.1 hmem).resolve_left htag⟩

theorem mem_todo_syncing {todo : List FileTag} {x : FileTag} {absorbCounter : ℕ}
    (h : x ∈ todo) : x ∈ (Pc.syncing tag 0 (todo.filter (· ≠ tag)) absorbCounter).todo := by
  by_cases hx : x = tag
  · rw [hx]
    exact mem_cons_self
  · exact mem_cons_of_mem _ (mem_filter.2 ⟨h, decide_eq_true hx⟩)

theorem find?_mem {entry : PendingFsyncEntry}
    (h : ops.find? tag = some entry) : entry ∈ ops.entries ∧ entry.tag = tag :=
  ⟨mem_of_find?_eq_some h, by simpa using List.find?_some h⟩

/-- What the scan does at an entry. -/
theorem visit_spec (hstep : s.visit tag = some t) :
    ∃ todo absorbCounter entry, s.pc = .scanning todo absorbCounter ∧
      entry ∈ s.sync.pendingOps.entries ∧ entry.tag = tag ∧
      (entry.cycleCtr = s.sync.syncCycleCtr ∧
          t = { s with pc := .scanning (todo.filter (· ≠ tag)) absorbCounter } ∨
        t = { s.absorbSyncRequests with
          pc := .syncing tag 0 (todo.filter (· ≠ tag)) fsyncsPerAbsorb } ∨
        t = { s with pc := .syncing tag 0 (todo.filter (· ≠ tag)) (absorbCounter - 1) }) := by
  rw [State.visit] at hstep
  cases hpc : s.pc with rw [hpc] at hstep
  | idle | syncing => cases hstep
  | scanning todo absorbCounter =>
    simp only at hstep
    cases hfind : s.sync.pendingOps.find? tag with
    | none => rw [hfind] at hstep; cases hstep
    | some entry =>
      simp only [hfind] at hstep
      obtain ⟨hentry, htag⟩ := find?_mem hfind
      refine ⟨todo, absorbCounter, entry, rfl, hentry, htag, ?_⟩
      split_ifs at hstep with hnew hcounter
      · exact Or.inl ⟨hnew, (Option.some.inj hstep).symm⟩
      · exact Or.inr (Or.inl (Option.some.inj hstep).symm)
      · exact Or.inr (Or.inr (Option.some.inj hstep).symm)

/-- A visit takes an old entry out of those that are left. -/
theorem Cycles.visit (h : Cycles s) (hstep : s.visit tag = some t) : Cycles t := by
  obtain ⟨todo, absorbCounter, entry, hpc, hentry, htag, ht⟩ := visit_spec hstep
  have hidle : s.pc ≠ .idle := by rw [hpc]; nofun
  rcases ht with ⟨hnew, rfl⟩ | rfl | rfl
  · refine h.setPc (fun _ => hidle) fun _ e he hcycle hmem => ?_
    rw [hpc] at hmem
    refine mem_filter.2 ⟨hmem, decide_eq_true fun hetag => ?_⟩
    -- the entry that is passed over is of the current cycle
    rw [PendingOps.eq_of_tag he hentry (hetag.trans htag.symm)] at hcycle
    exact hcycle hnew
  · refine h.absorb.setPc (fun _ => hidle) fun _ e _ _ hmem => mem_todo_syncing ?_
    rwa [State.absorbSyncRequests, hpc] at hmem
  · refine h.setPc (fun _ => hidle) fun _ e _ _ hmem => mem_todo_syncing ?_
    rwa [hpc] at hmem

/-- The ways in which a try to sync a file ends. -/
theorem fsync_spec {result : FsyncResult} (hstep : s.fsync tag result = some t) :
    ∃ failures todo absorbCounter, s.pc = .syncing tag failures todo absorbCounter ∧
      s.sync.pendingOps.live tag = true ∧
      (result = .success ∧ t = { s.setPendingOps (s.sync.pendingOps.remove tag) with
          pc := .scanning todo absorbCounter } ∨
        t = { s with pc := .idle } ∨
        t = { s.absorbSyncRequests with
          pc := .syncing tag (failures + 1) todo fsyncsPerAbsorb }) := by
  rw [State.fsync] at hstep
  cases hpc : s.pc with rw [hpc] at hstep
  | idle | scanning => cases hstep
  | syncing current failures todo absorbCounter =>
    simp only at hstep
    by_cases hcur : current = tag ∧ s.sync.pendingOps.live tag = true
    · rw [if_pos hcur] at hstep
      obtain ⟨rfl, hlive⟩ := hcur
      refine ⟨failures, todo, absorbCounter, rfl, hlive, ?_⟩
      cases result with
      | success => exact Or.inl ⟨rfl, (Option.some.inj hstep).symm⟩
      | possiblyDeleted =>
        split_ifs at hstep
        · exact Or.inr (Or.inl (Option.some.inj hstep).symm)
        · exact Or.inr (Or.inr (Option.some.inj hstep).symm)
      | failure => exact Or.inr (Or.inl (Option.some.inj hstep).symm)
    · rw [if_neg hcur] at hstep
      cases hstep

theorem Cycles.fsync {result : FsyncResult} (h : Cycles s) (hstep : s.fsync tag result = some t) :
    Cycles t := by
  obtain ⟨failures, todo, absorbCounter, hpc, _, ht⟩ := fsync_spec hstep
  rcases ht with ⟨_, rfl⟩ | rfl | rfl
  · exact h.removeEntry hpc
  · exact h.setPc (fun h => absurd rfl h) fun h => absurd rfl h
  · have hidle : s.pc ≠ .idle := by rw [hpc]; nofun
    refine h.absorb.setPc (fun _ => hidle) fun _ e _ _ hmem => ?_
    rwa [State.absorbSyncRequests, hpc] at hmem

/-- A canceled entry is dropped in the retry loop. -/
theorem dropCanceled_spec (hstep : s.dropCanceled = some t) :
    ∃ tag failures todo absorbCounter, s.pc = .syncing tag failures todo absorbCounter ∧
      s.sync.pendingOps.live tag = false ∧
      t = { s.setPendingOps (s.sync.pendingOps.remove tag) with
        pc := .scanning todo absorbCounter } := by
  rw [State.dropCanceled] at hstep
  cases hpc : s.pc with rw [hpc] at hstep
  | idle | scanning => cases hstep
  | syncing tag failures todo absorbCounter =>
    simp only at hstep
    split_ifs at hstep with hlive
    rw [Bool.not_eq_true] at hlive
    exact ⟨tag, failures, todo, absorbCounter, rfl, hlive, (Option.some.inj hstep).symm⟩

theorem Cycles.dropCanceled (h : Cycles s) (hstep : s.dropCanceled = some t) : Cycles t := by
  obtain ⟨tag, failures, todo, absorbCounter, hpc, _, rfl⟩ := dropCanceled_spec hstep
  exact h.removeEntry hpc

theorem Cycles.beginSync (hstep : s.beginSync = some t) : Cycles t := by
  rw [State.beginSync] at hstep
  cases hpc : s.pc with rw [hpc] at hstep
  | scanning | syncing => cases hstep
  | idle =>
    cases hstep
    exact ⟨fun _ => rfl, fun e he _ => ⟨rfl, fun _ => mem_map_of_mem he⟩⟩

/-- The scan ends when all old entries are done. -/
theorem Cycles.complete (h : Cycles s) (hstep : s.complete = some t) : Cycles t := by
  rw [State.complete] at hstep
  split at hstep
  · rename_i absorbCounter hpc
    cases hstep
    refine ⟨fun h => absurd rfl h, fun e he hcycle => ?_⟩
    -- an older entry would still be to be visited
    have hmem := (h.old e he hcycle).2 (by rw [hpc]; nofun)
    rw [hpc] at hmem
    cases hmem
  · cases hstep

/-- Every step keeps the cycles of the entries. -/
theorem Cycles.step (h : Cycles s) (hstep : Sync.step maxRequests s event = some t) : Cycles t := by
  cases event with
  | forward =>
    obtain ⟨requests, _, rfl⟩ := Option.map_eq_some_iff.1 hstep
    exact ⟨h.inProgress, h.old⟩
  | absorb =>
    rw [Sync.step, State.absorb] at hstep
    split at hstep
    · cases hstep
      exact h.absorb
    · cases hstep
  | preCheckpoint =>
    rw [Sync.step, State.preCheckpoint] at hstep
    split at hstep
    · cases hstep
      exact ⟨h.absorb.inProgress, h.absorb.old⟩
    · cases hstep
  | beginSync => exact Cycles.beginSync hstep
  | visit => exact h.visit hstep
  | fsync => exact h.fsync hstep
  | dropCanceled => exact h.dropCanceled hstep
  | fail =>
    rw [Sync.step, State.fail] at hstep
    split at hstep
    · cases hstep
    · cases hstep
      exact h.setPc (fun h => absurd rfl h) fun h => absurd rfl h
  | complete => exact h.complete hstep

/-! ### Files that are still to be synced -/

/-- A request for the file is in the queue or in the table, and none after it covers the file. -/
def Owed (f : FileTag) (s : State) : Prop :=
  replay (CheckpointerRequest.act f) (s.sync.pendingOps.live f) s.requests = true

/-- The file has an entry that the scan has to process. -/
structure InScan (f : FileTag) (s : State) : Prop where
  entry : ∃ e ∈ s.sync.pendingOps.entries, e.tag = f ∧ e.canceled = false ∧
    e.cycleCtr ≠ s.sync.syncCycleCtr
  uncovered : ∀ r ∈ s.requests, r.covers f = false

/-- What an event does to the requests for the file, if it neither adds any nor syncs the file. -/
inductive Moved (f : FileTag) (s t : State) : Prop where
  | same (hrequests : t.requests = s.requests)
      (hops : t.sync.pendingOps = s.sync.pendingOps)
      (hctr : t.sync.syncCycleCtr = s.sync.syncCycleCtr)
  | absorbed (hrequests : t.requests = [])
      (hops : t.sync.pendingOps = (rememberAll s.sync s.requests).pendingOps)
      (hctr : t.sync.syncCycleCtr = s.sync.syncCycleCtr)
  | removed (tag : FileTag) (hlive : f = tag → s.sync.pendingOps.live f = false)
      (hrequests : t.requests = s.requests)
      (hops : t.sync.pendingOps = s.sync.pendingOps.remove tag)
      (hctr : t.sync.syncCycleCtr = s.sync.syncCycleCtr)

/-- A file is still owed a sync after a step that is not about it. -/
theorem Owed.moved (h : Owed f s) (hm : Moved f s t) : Owed f t := by
  rw [Owed] at h ⊢
  cases hm with
  | same hrequests hops _ => rwa [hrequests, hops]
  | absorbed hrequests hops _ =>
    rw [hrequests, hops, live_rememberAll]
    exact h
  | removed _ hlive hrequests hops => rwa [hrequests, hops, PendingOps.live_remove hlive]

/-- A file stays in the scan after a step that is not about it. -/
theorem InScan.moved (h : InScan f s) (hm : Moved f s t) : InScan f t := by
  obtain ⟨⟨e, he, rfl, hcanceled, hcycle⟩, huncovered⟩ := h
  cases hm with
  | same hrequests hops hctr =>
    refine ⟨⟨e, by rwa [hops], rfl, hcanceled, by rwa [hctr]⟩, ?_⟩
    rwa [hrequests]
  | absorbed hrequests hops hctr =>
    refine ⟨⟨e, ?_, rfl, hcanceled, by rwa [hctr]⟩, ?_⟩
    · rw [hops]
      exact mem_rememberAll he hcanceled huncovered
    · rw [hrequests]
      exact nofun
  | removed _ hlive hrequests hops hctr =>
    refine ⟨⟨e, ?_, rfl, hcanceled, by rwa [hctr]⟩, by rwa [hrequests]⟩
    rw [hops]
    refine PendingOps.mem_remove.2 ⟨he, fun htag => ?_⟩
    have hentry := PendingOps.live_iff.2 ⟨e, he, rfl, hcanceled⟩
    rw [hlive htag] at hentry
    cases hentry

/-- The events of the checkpointer other than the start of `ProcessSyncRequests`. -/
theorem moved_of_step (hstep : Sync.step maxRequests s event = some t)
    (hforward : ∀ request running inCritSection, event ≠ .forward request running inCritSection)
    (hbegin : event ≠ .beginSync) (hsync : event ≠ .fsync f .success) :
    Moved f s t ∧ (t.pc ≠ .idle → s.pc ≠ .idle) := by
  cases event with
  | forward request running inCritSection =>
    exact absurd rfl (hforward request running inCritSection)
  | absorb =>
    rw [Sync.step, State.absorb] at hstep
    split at hstep
    · cases hstep
      exact ⟨.absorbed rfl rfl (syncCycleCtr_rememberAll _), fun h => h⟩
    · cases hstep
  | preCheckpoint =>
    rw [Sync.step, State.preCheckpoint] at hstep
    split at hstep
    · cases hstep
      exact ⟨.absorbed rfl rfl (syncCycleCtr_rememberAll _), fun h => h⟩
    · cases hstep
  | beginSync => exact absurd rfl hbegin
  | visit =>
    obtain ⟨todo, absorbCounter, entry, hpc, _, _, ht⟩ := visit_spec hstep
    have hidle : s.pc ≠ .idle := by rw [hpc]; nofun
    rcases ht with ⟨_, rfl⟩ | rfl | rfl
    · exact ⟨.same rfl rfl rfl, fun _ => hidle⟩
    · exact ⟨.absorbed rfl rfl (syncCycleCtr_rememberAll _), fun _ => hidle⟩
    · exact ⟨.same rfl rfl rfl, fun _ => hidle⟩
  | fsync tag =>
    obtain ⟨failures, todo, absorbCounter, hpc, _, ht⟩ := fsync_spec hstep
    have hidle : s.pc ≠ .idle := by rw [hpc]; nofun
    rcases ht with ⟨rfl, rfl⟩ | rfl | rfl
    · refine ⟨.removed tag (fun htag => ?_) rfl rfl rfl, fun _ => hidle⟩
      exact absurd (by rw [htag]) hsync
    · exact ⟨.same rfl rfl rfl, fun h => absurd rfl h⟩
    · exact ⟨.absorbed rfl rfl (syncCycleCtr_rememberAll _), fun _ => hidle⟩
  | dropCanceled =>
    obtain ⟨tag, failures, todo, absorbCounter, hpc, hlive, rfl⟩ := dropCanceled_spec hstep
    have hidle : s.pc ≠ .idle := by rw [hpc]; nofun
    exact ⟨.removed tag (fun htag => by rw [htag, hlive]) rfl rfl rfl, fun _ => hidle⟩
  | fail =>
    rw [Sync.step, State.fail] at hstep
    split at hstep
    · cases hstep
    · cases hstep
      exact ⟨.same rfl rfl rfl, fun h => absurd rfl h⟩
  | complete =>
    rw [Sync.step, State.complete] at hstep
    split at hstep
    · cases hstep
      exact ⟨.same rfl rfl rfl, fun h => absurd rfl h⟩
    · cases hstep

/-! ### Requests and the start of `ProcessSyncRequests` -/

/-- A request that is accepted is the last one of the queue. -/
theorem forwardSyncRequest_spec {request : CheckpointerRequest} {running inCritSection : Bool}
    (h : forwardSyncRequest maxRequests running inCritSection requests request = some requests') :
    requests' = requests ++ [request] ∨ requests' = requests.dedup ++ [request] := by
  rw [forwardSyncRequest] at h
  split_ifs at h
  · obtain ⟨compacted, hcompacted, rfl⟩ := Option.map_eq_some_iff.1 h
    rw [compactCheckpointerRequestQueue_eq hcompacted]
    exact Or.inr rfl
  · exact Or.inl (Option.some.inj h).symm

/-- What the requests say about a file once one more is accepted. -/
theorem replay_forwardSyncRequest
    {request : CheckpointerRequest} {running inCritSection : Bool} (b : Bool)
    (h : forwardSyncRequest maxRequests running inCritSection requests request = some requests') :
    replay (CheckpointerRequest.act f) b requests' =
      (request.act f).getD (replay (CheckpointerRequest.act f) b requests) := by
  rcases forwardSyncRequest_spec h with rfl | rfl
  · rw [replay_append]
    rfl
  · rw [replay_append, replay_dedup]
    rfl

section Forward

variable {request : CheckpointerRequest} {running inCritSection : Bool}

/-- An accepted request makes the file owed a sync. -/
theorem owed_of_forward
    (h : Sync.step maxRequests s (.forward ⟨f, .request⟩ running inCritSection) = some t) :
    Owed f t := by
  obtain ⟨requests, hrequests, rfl⟩ := Option.map_eq_some_iff.1 h
  rw [Owed, replay_forwardSyncRequest _ hrequests, CheckpointerRequest.act,
    if_neg (by simp [CheckpointerRequest.covers]), if_pos rfl, Option.getD_some]

theorem Owed.forward (h : Owed f s) (hcovers : request.covers f = false)
    (hstep : Sync.step maxRequests s (.forward request running inCritSection) = some t) :
    Owed f t := by
  obtain ⟨requests, hrequests, rfl⟩ := Option.map_eq_some_iff.1 hstep
  rw [Owed, replay_forwardSyncRequest _ hrequests, h, CheckpointerRequest.act, hcovers]
  by_cases hrequest : request = ⟨f, .request⟩ <;> simp [hrequest]

theorem InScan.forward (h : InScan f s) (hcovers : request.covers f = false)
    (hstep : Sync.step maxRequests s (.forward request running inCritSection) = some t) :
    InScan f t := by
  obtain ⟨requests, hrequests, rfl⟩ := Option.map_eq_some_iff.1 hstep
  refine ⟨h.entry, fun r hr => ?_⟩
  have hmem : r ∈ s.requests ∨ r = request := by
    rcases forwardSyncRequest_spec hrequests with rfl | rfl
    · simpa using hr
    · simpa using hr
  rcases hmem with hmem | rfl
  · exact h.uncovered r hmem
  · exact hcovers

end Forward

/-- When the main loop starts, all entries are of the cycle that has just ended. -/
theorem updateStale_cycleCtr (h : Cycles s) :
    ∀ e ∈ s.updateStale.sync.pendingOps.entries, e.cycleCtr = s.sync.syncCycleCtr := by
  intro e he
  rw [State.updateStale] at he
  split_ifs at he with hprogress
  · obtain ⟨e', _, rfl⟩ := mem_map.1 he
    rfl
  · by_contra hcycle
    exact hprogress (h.old e he hcycle).1

theorem live_updateStale : s.updateStale.sync.pendingOps.live f = s.sync.pendingOps.live f := by
  rw [State.updateStale]
  split_ifs
  · rw [State.setPendingOps, PendingOps.live, PendingOps.mapEntries, any_map]
    rfl
  · rfl

theorem uint16_succ_ne (c : UInt16) : c ≠ c + 1 := by
  intro h
  have htoNat := congrArg UInt16.toNat h
  rw [UInt16.toNat_add] at htoNat
  have hone : (1 : UInt16).toNat = 1 := rfl
  omega

/-- A checkpoint that begins has every file that is owed a sync in its scan. -/
theorem inScan_of_beginSync (hc : Cycles s) (h : Owed f s) (hstep : s.beginSync = some t) :
    Owed f t ∧ InScan f t := by
  rw [State.beginSync] at hstep
  cases hpc : s.pc with rw [hpc] at hstep
  | scanning | syncing => cases hstep
  | idle =>
    cases hstep
    have hlive : s.absorbSyncRequests.updateStale.sync.pendingOps.live f = true := by
      rw [live_updateStale, State.absorbSyncRequests, live_rememberAll]
      exact h
    have hempty : s.absorbSyncRequests.updateStale.requests = [] := by
      rw [State.updateStale]
      split_ifs <;> rfl
    have hctr : s.absorbSyncRequests.updateStale.sync.syncCycleCtr =
        s.absorbSyncRequests.sync.syncCycleCtr := by
      rw [State.updateStale]
      split_ifs <;> rfl
    obtain ⟨e, he, htag, hcanceled⟩ := PendingOps.live_iff.1 hlive
    refine ⟨?_, ⟨e, he, htag, hcanceled, ?_⟩, ?_⟩
    · rw [Owed]
      rw [hempty]
      exact hlive
    · dsimp only
      rw [updateStale_cycleCtr hc.absorb e he, hctr]
      exact uint16_succ_ne _
    · dsimp only
      rw [hempty]
      exact nofun

/-! ### Runs -/

/-- The file has been synced, or a request that covers it has been accepted. -/
def Discharged (f : FileTag) (l : List Event) : Prop :=
  .fsync f .success ∈ l ∨
    ∃ request running inCritSection,
      .forward request running inCritSection ∈ l ∧ request.covers f = true

theorem Discharged.mono {l' : List Event} (h : Discharged f l) (hl : l ⊆ l') :
    Discharged f l' := by
  rcases h with h | ⟨request, running, inCritSection, h, hcovers⟩
  · exact Or.inl (hl h)
  · exact Or.inr ⟨request, running, inCritSection, hl h, hcovers⟩

/-- A file that is to be synced stays so, and if it has an entry that the scan has to process, it
keeps it. -/
theorem owed_step (hc : Cycles s) (h : Owed f s) (hstep : Sync.step maxRequests s event = some t) :
    Discharged f [event] ∨
      Owed f t ∧ ((s.pc ≠ .idle → InScan f s) → t.pc ≠ .idle → InScan f t) := by
  by_cases hsync : event = .fsync f .success
  · exact Or.inl (Or.inl (by rw [hsync]; exact mem_singleton.2 rfl))
  by_cases hbegin : event = .beginSync
  · subst hbegin
    obtain ⟨howed, hscan⟩ := inScan_of_beginSync hc h hstep
    exact Or.inr ⟨howed, fun _ _ => hscan⟩
  by_cases hforward : ∃ request running inCritSection,
      event = .forward request running inCritSection
  · obtain ⟨request, running, inCritSection, rfl⟩ := hforward
    cases hcovers : request.covers f with
    | true => exact Or.inl (Or.inr ⟨request, running, inCritSection, mem_singleton.2 rfl,
        hcovers⟩)
    | false =>
      have hpc : t.pc = s.pc := by
        obtain ⟨requests, _, rfl⟩ := Option.map_eq_some_iff.1 hstep
        rfl
      refine Or.inr ⟨h.forward hcovers hstep, fun hscan hidle => ?_⟩
      rw [hpc] at hidle
      exact (hscan hidle).forward hcovers hstep
  · obtain ⟨hm, hidle⟩ := moved_of_step hstep
      (fun request running inCritSection heq =>
        hforward ⟨request, running, inCritSection, heq⟩) hbegin hsync
    exact Or.inr ⟨h.moved hm, fun hscan htidle => (hscan (hidle htidle)).moved hm⟩

/-- A file that is to be synced stays so until it is synced or covered. -/
theorem owed_trace (h : trace (step maxRequests) s l = some t) (hc : Cycles s)
    (howed : Owed f s) : Cycles t ∧ (Discharged f l ∨
      Owed f t ∧ ((s.pc ≠ .idle → InScan f s) → t.pc ≠ .idle → InScan f t)) := by
  refine @trace_history _ _ (step maxRequests) s t l
    (fun l t => Cycles t ∧ (Discharged f l ∨
      Owed f t ∧ ((s.pc ≠ .idle → InScan f s) → t.pc ≠ .idle → InScan f t)))
    (fun l u event t hu hstep => ?_) ⟨hc, Or.inr ⟨howed, fun hscan => hscan⟩⟩ h
  obtain ⟨hcu, hu⟩ := hu
  refine ⟨hcu.step hstep, ?_⟩
  rcases hu with hdone | ⟨howed, hscan⟩
  · exact Or.inl (hdone.mono (subset_append_left l [event]))
  · rcases owed_step hcu howed hstep with hdone | ⟨howed, hkeep⟩
    · exact Or.inl (hdone.mono (subset_append_right l [event]))
    · exact Or.inr ⟨howed, fun hs => hkeep (hscan hs)⟩

/-- The cycles of the entries are right in every run. -/
theorem cycles_trace (h : trace (step maxRequests) State.init l = some s) :
    Cycles s :=
  trace_invariant (fun _ _ _ hc hstep => hc.step hstep) cycles_init h

/-- Let a sync request for a file be accepted before `ProcessSyncRequests` begins. When it
completes, the file has been synced since the request was accepted, unless a request to forget
the file has been accepted since. -/
theorem processSyncRequests_spec {maxRequests : ℕ} {f : FileTag} {running inCritSection : Bool}
    {l₁ l₂ l₃ : List Event} {s : State}
    (h : trace (step maxRequests) State.init (l₁ ++ (.forward ⟨f, .request⟩ running inCritSection ::
      (l₂ ++ (.beginSync :: (l₃ ++ [.complete]))))) = some s) :
    .fsync f .success ∈ l₂ ++ l₃ ∨
      ∃ request running inCritSection,
        .forward request running inCritSection ∈ l₂ ++ l₃ ∧ request.covers f = true := by
  obtain ⟨s₁, h₁, h⟩ := trace_append_eq_some.1 h
  obtain ⟨s₂, hforward, h⟩ := trace_cons_eq_some.1 h
  obtain ⟨s₃, h₂, h⟩ := trace_append_eq_some.1 h
  obtain ⟨s₄, hbegin, h⟩ := trace_cons_eq_some.1 h
  obtain ⟨s₅, h₃, h⟩ := trace_append_eq_some.1 h
  obtain ⟨s₆, hcomplete, _⟩ := trace_cons_eq_some.1 h
  obtain ⟨hc₃, hdone | ⟨howed, _⟩⟩ :=
    owed_trace h₂ ((cycles_trace h₁).step hforward) (owed_of_forward hforward)
  · exact hdone.mono (subset_append_left l₂ l₃)
  obtain ⟨howed, hscan⟩ := inScan_of_beginSync hc₃ howed hbegin
  obtain ⟨hc₅, hdone | ⟨_, hkeep⟩⟩ := owed_trace h₃ (hc₃.step hbegin) howed
  · exact hdone.mono (subset_append_right l₂ l₃)
  -- the scan would have to visit the entry of the file
  rw [Sync.step, State.complete] at hcomplete
  split at hcomplete
  · rename_i absorbCounter hpc
    have hidle : s₅.pc ≠ .idle := by rw [hpc]; nofun
    obtain ⟨e, he, _, _, hcycle⟩ := (hkeep (fun _ => hscan) hidle).entry
    have hmem := (hc₅.old e he hcycle).2 hidle
    rw [hpc] at hmem
    cases hmem
  · cases hcomplete

/-! A file whose first sync fails, with a queue that is compacted before. -/

/-- The first segment of a table. -/
def relationFile : FileTag := ⟨.md, 0, ⟨1663, 5, 16384⟩, 0⟩

/-- A backend asks for a sync of the file. -/
def forwardEvent : Event := .forward ⟨relationFile, .request⟩ true false

/-- A checkpoint in which the first sync of the file fails. -/
def retryEvents : List Event :=
  [.visit relationFile, .fsync relationFile .failure, .beginSync, .visit relationFile,
    .fsync relationFile .success]

theorem processSyncRequests_spec_retry :
    ∃ s, trace (step 2) State.init ([forwardEvent, forwardEvent] ++ (forwardEvent ::
        ([] ++ (.beginSync :: (retryEvents ++ [.complete]))))) = some s ∧
      (.fsync relationFile .success ∈ [] ++ retryEvents ∨
        ∃ request running inCritSection, .forward request running inCritSection ∈
          [] ++ retryEvents ∧ request.covers relationFile = true) := by
  obtain ⟨s, h⟩ : ∃ s, trace (step 2) State.init ([forwardEvent, forwardEvent] ++ (forwardEvent ::
      ([] ++ (.beginSync :: (retryEvents ++ [.complete]))))) = some s := ⟨_, rfl⟩
  exact ⟨s, h, processSyncRequests_spec h⟩

end PgCutover.Sync
