import Mathlib.Data.List.DropRight
import Mathlib.Data.List.GetD
import PgCutover.Lib.Runs
import PgCutover.Wal.Insert

/-!
# Waiting for synchronous standbys

Each walsender publishes the positions that its standby reported. On a reply it computes, among
the candidate standbys, the position that enough of them have reached: the oldest one of the
chosen standbys by priority, or the n-th latest one of a quorum. It publishes this position for
each wait mode and wakes the backends that wait for it. The entries of the walsenders are read one
by one, while the others go on writing theirs.

`Confirmed` is what a released backend may rely on.
-/

namespace PgCutover.Replication

open Wal Lib Function List

/-- What a backend waits for. -/
inductive SyncRepWaitMode
  | write
  | flush
  | apply
  deriving DecidableEq, Repr

/-- `FIRST` and `ANY`. -/
inductive SyncRepMethod
  | priority
  | quorum
  deriving DecidableEq, Repr

/-- `synchronous_standby_names`. The parser refuses a number that is not positive. -/
structure SyncRepConfig where
  method : SyncRepMethod
  numSync : ℕ
  numSync_pos : 0 < numSync

/-- The states of a walsender. -/
inductive WalSndState
  | startup
  | backup
  | catchup
  | streaming
  | stopping
  deriving DecidableEq, Repr

/-- The entry of a walsender in shared memory. -/
structure WalSnd where
  /-- Is a walsender process using this entry? -/
  active : Bool
  state : WalSndState
  write : ℕ
  flush : ℕ
  apply : ℕ
  syncStandbyPriority : ℕ
  deriving DecidableEq, Repr

/-- The position that counts for a mode. -/
def WalSnd.position (s : WalSnd) : SyncRepWaitMode → ℕ
  | .write => s.write
  | .flush => s.flush
  | .apply => s.apply

/-- Streaming or stopping, listed as a synchronous standby, and with a valid flush position. -/
def WalSnd.isPotentialSync (s : WalSnd) : Bool :=
  (s.state = .streaming || s.state = .stopping) && s.syncStandbyPriority ≠ 0 &&
    s.flush ≠ invalidXLogRecPtr

/-- The tests that `SyncRepGetCandidateStandbys` makes for an entry. -/
def WalSnd.isCandidate (s : WalSnd) : Bool := s.active && s.isPotentialSync

/-- A backend in a wait queue. -/
structure Waiter where
  proc : ℕ
  waitLSN : ℕ
  deriving DecidableEq, Repr

/-- `SyncRepReleaseWaiters` of the walsender `me`, which holds `SyncRepLock` and reads the entries
in order. `before` is what stands in memory before the array of positions. -/
structure Scan (n : ℕ) where
  me : Fin n
  before : ℕ
  /-- The entries that were read so far. -/
  copies : List WalSnd

/-- The shared state, with `n` entries for walsenders. -/
structure WalSndCtl (n : ℕ) where
  walsnds : Fin n → WalSnd
  /-- The holder of `SyncRepLock`, unless it is a backend. -/
  scan : Option (Scan n)
  lsn : SyncRepWaitMode → ℕ
  syncRepQueue : SyncRepWaitMode → List Waiter
  /-- The entries of the walsenders at every moment so far. -/
  history : List (Fin n → WalSnd)
  /-- The waits that ended because the position was confirmed. -/
  released : List (SyncRepWaitMode × ℕ)

variable {n : ℕ}

/-! ### The candidates -/

/-- `standby_priority_comparator`. -/
def standbyPriorityLe (walsnds : Fin n → WalSnd) (a b : Fin n) : Bool :=
  (walsnds a).syncStandbyPriority < (walsnds b).syncStandbyPriority ||
    (walsnds a).syncStandbyPriority = (walsnds b).syncStandbyPriority && a ≤ b

/-- `SyncRepGetCandidateStandbys`, from the entries as they were read. -/
def syncRepGetCandidateStandbys (config : SyncRepConfig) (walsnds : Fin n → WalSnd) :
    List (Fin n) :=
  let standbys := (List.finRange n).filter fun i => (walsnds i).isCandidate
  if config.method = .priority ∧ standbys.length > config.numSync then
    (standbys.mergeSort (standbyPriorityLe walsnds)).take config.numSync
  else standbys

/-- `SyncRepGetOldestSyncRecPtr` for one kind of position. -/
def syncRepGetOldestSyncRecPtr (positions : List ℕ) : ℕ :=
  positions.foldl (fun ptr position =>
    if ptr = invalidXLogRecPtr ∨ ptr > position then position else ptr) invalidXLogRecPtr

/-- `SyncRepGetNthLatestSyncRecPtr` for one kind of position. `nth` is an unsigned byte; for
`nth = 0` what is read is the memory before the array. -/
def syncRepGetNthLatestSyncRecPtr (before : ℕ) (positions : List ℕ) (nth : UInt8) : ℕ :=
  if nth = 0 then before
  else (positions.mergeSort fun a b => b ≤ a).getD (nth.toNat - 1) invalidXLogRecPtr

/-- `SyncRepGetSyncRecPtr` of the walsender `me`. -/
def syncRepGetSyncRecPtr (config : SyncRepConfig) (before : ℕ) (walsnds : Fin n → WalSnd)
    (me : Fin n) : Option (SyncRepWaitMode → ℕ) :=
  let standbys := syncRepGetCandidateStandbys config walsnds
  if ¬ standbys.contains me ∨ standbys.length < config.numSync then none
  else some fun mode =>
    let positions := standbys.map fun i => (walsnds i).position mode
    match config.method with
    | .priority => syncRepGetOldestSyncRecPtr positions
    | .quorum => syncRepGetNthLatestSyncRecPtr before positions (UInt8.ofNat config.numSync)

/-- The entries as they were read; an entry that was not is taken for one that is not in use. -/
def Scan.entries (scan : Scan n) (i : Fin n) : WalSnd :=
  scan.copies.getD i ⟨false, .startup, invalidXLogRecPtr, invalidXLogRecPtr, invalidXLogRecPtr, 0⟩

/-! ### Waits and releases -/

/-- The steps of walsenders and of backends. -/
inductive SyncRepAction (n : ℕ)
  /-- A walsender starts, with the priority of its standby's name. -/
  | start (i : Fin n) (priority : ℕ)
  | setState (i : Fin n) (state : WalSndState)
  | exit (i : Fin n)
  /-- A reply from the standby. -/
  | reply (i : Fin n) (write flush apply : ℕ)
  /-- A walsender begins `SyncRepReleaseWaiters`. -/
  | beginScan (me : Fin n) (before : ℕ)
  /-- It reads the next entry, under the spinlock of that entry. -/
  | readEntry
  /-- It has read all entries, publishes the positions and wakes the queues. -/
  | endScan
  /-- `SyncRepWaitForLSN`, under the lock. -/
  | waitForLSN (proc : ℕ) (lsn : ℕ) (waitMode : SyncRepWaitMode) (commit : Bool)
  | cancelWait (proc : ℕ)

namespace WalSndCtl

/-- From the tail, stop at the element to insert after. -/
def syncRepQueueInsert (queue : List Waiter) (waiter : Waiter) : List Waiter :=
  let after := fun proc : Waiter => !decide (proc.waitLSN < waiter.waitLSN)
  queue.rdropWhile after ++ waiter :: queue.rtakeWhile after

/-- `SyncRepWakeQueue(false, mode)`. -/
def syncRepWakeQueue (ctl : WalSndCtl n) (mode : SyncRepWaitMode) : WalSndCtl n :=
  let done := fun proc : Waiter => !decide (ctl.lsn mode < proc.waitLSN)
  { ctl with
    syncRepQueue := update ctl.syncRepQueue mode ((ctl.syncRepQueue mode).dropWhile done)
    released := ((ctl.syncRepQueue mode).takeWhile done).map (fun proc => (mode, proc.waitLSN)) ++
      ctl.released }

/-- Publish a position for one mode and wake its queue. -/
def advanceLsn (ctl : WalSndCtl n) (mode : SyncRepWaitMode) (ptr : ℕ) : WalSndCtl n :=
  if ctl.lsn mode < ptr then
    { ctl with lsn := update ctl.lsn mode ptr }.syncRepWakeQueue mode
  else ctl

/-- `SyncRepReleaseWaiters`, up to the lock. -/
def beginScan (ctl : WalSndCtl n) (me : Fin n) (before : ℕ) : WalSndCtl n :=
  if ctl.scan.isSome ∨ (ctl.walsnds me).isPotentialSync = false then ctl
  else { ctl with scan := some ⟨me, before, []⟩ }

/-- One turn of the loop of `SyncRepGetCandidateStandbys`. -/
def readEntry (ctl : WalSndCtl n) : WalSndCtl n :=
  match ctl.scan with
  | none => ctl
  | some scan =>
    if h : scan.copies.length < n then
      { ctl with scan := some { scan with copies := scan.copies ++ [ctl.walsnds ⟨_, h⟩] } }
    else ctl

/-- The rest of `SyncRepReleaseWaiters`, with the positions of the entries as they were read. -/
def publish (config : SyncRepConfig) (ctl : WalSndCtl n) (scan : Scan n) : WalSndCtl n :=
  match syncRepGetSyncRecPtr config scan.before scan.entries scan.me with
  | none => ctl
  | some ptr =>
    ((ctl.advanceLsn .write (ptr .write)).advanceLsn .flush (ptr .flush)).advanceLsn .apply
      (ptr .apply)

def endScan (config : SyncRepConfig) (ctl : WalSndCtl n) : WalSndCtl n :=
  match ctl.scan with
  | none => ctl
  | some scan =>
    if scan.copies.length < n then ctl else { ctl.publish config scan with scan := none }

/-- The level for anything other than commit is capped to remote flush. -/
def waitModeFor (waitMode : SyncRepWaitMode) (commit : Bool) : SyncRepWaitMode :=
  if commit then waitMode else
    match waitMode with
    | .write => .write
    | .flush => .flush
    | .apply => .flush

/-- `SyncRepWaitForLSN`: the position is published already, or the backend queues. -/
def syncRepWaitForLSN (ctl : WalSndCtl n) (proc lsn : ℕ) (waitMode : SyncRepWaitMode)
    (commit : Bool) : WalSndCtl n :=
  let mode := waitModeFor waitMode commit
  if lsn ≤ ctl.lsn mode then { ctl with released := (mode, lsn) :: ctl.released }
  else
    { ctl with
      syncRepQueue := update ctl.syncRepQueue mode
        (syncRepQueueInsert (ctl.syncRepQueue mode) ⟨proc, lsn⟩) }

/-- A walsender writes its entry. -/
def setWalSnd (ctl : WalSndCtl n) (i : Fin n) (walsnd : WalSnd) : WalSndCtl n :=
  { ctl with walsnds := update ctl.walsnds i walsnd }

/-- What an action does. -/
def act (config : SyncRepConfig) (ctl : WalSndCtl n) : SyncRepAction n → WalSndCtl n
  | .start i priority => ctl.setWalSnd i ⟨true, .startup, invalidXLogRecPtr, invalidXLogRecPtr,
      invalidXLogRecPtr, priority⟩
  | .setState i state => ctl.setWalSnd i { ctl.walsnds i with state }
  | .exit i => ctl.setWalSnd i { ctl.walsnds i with active := false }
  | .reply i write flush apply => ctl.setWalSnd i { ctl.walsnds i with write, flush, apply }
  | .beginScan me before => ctl.beginScan me before
  | .readEntry => ctl.readEntry
  | .endScan => ctl.endScan config
  -- a backend needs the lock
  | .waitForLSN proc lsn waitMode commit =>
    if ctl.scan.isSome then ctl else ctl.syncRepWaitForLSN proc lsn waitMode commit
  | .cancelWait proc =>
    if ctl.scan.isSome then ctl
    else { ctl with syncRepQueue := fun mode => (ctl.syncRepQueue mode).filter (·.proc ≠ proc) }

/-- An action, after which the entries are recorded. -/
def step (config : SyncRepConfig) (ctl : WalSndCtl n) (a : SyncRepAction n) : WalSndCtl n :=
  { ctl.act config a with history := (ctl.act config a).walsnds :: ctl.history }

end WalSndCtl

/-! ### What a released backend relies on -/

/-- At a moment, at least `num_sync` candidates have reported the position; in priority mode these
are the `num_sync` candidates of highest priority. -/
def Confirmed (config : SyncRepConfig) (walsnds : Fin n → WalSnd) (mode : SyncRepWaitMode)
    (lsn : ℕ) : Prop :=
  ∃ standbys : List (Fin n), standbys.Nodup ∧ config.numSync ≤ standbys.length ∧
    (∀ i ∈ standbys, (walsnds i).isCandidate = true ∧ lsn ≤ (walsnds i).position mode) ∧
    (config.method = .priority → standbys.length = config.numSync ∧
      ∀ i ∈ standbys, ∀ j ∉ standbys, (walsnds j).isCandidate = true →
        (walsnds i).syncStandbyPriority ≤ (walsnds j).syncStandbyPriority)

/-! ### The chosen position -/

/-- The oldest position is no later than any of them, if all are valid. -/
theorem oldest_le {positions : List ℕ} (h : ∀ p ∈ positions, p ≠ invalidXLogRecPtr) :
    ∀ p ∈ positions, syncRepGetOldestSyncRecPtr positions ≤ p := by
  -- once the pointer is valid it only goes down
  have hfold (l : List ℕ) (ptr : ℕ) (hptr : ptr ≠ invalidXLogRecPtr)
      (hl : ∀ p ∈ l, p ≠ invalidXLogRecPtr) :
      (∀ p ∈ l, l.foldl (fun ptr position =>
        if ptr = invalidXLogRecPtr ∨ ptr > position then position else ptr) ptr ≤ p) ∧
      l.foldl (fun ptr position =>
        if ptr = invalidXLogRecPtr ∨ ptr > position then position else ptr) ptr ≤ ptr := by
    induction l generalizing ptr with
    | nil => exact ⟨nofun, le_rfl⟩
    | cons position l ih =>
      rw [forall_mem_cons] at hl
      rw [foldl_cons, forall_mem_cons]
      split_ifs with hlower
      · have hlt : position < ptr := hlower.resolve_left hptr
        obtain ⟨hmem, hle⟩ := ih position hl.1 hl.2
        exact ⟨⟨hle, hmem⟩, hle.trans hlt.le⟩
      · rw [not_or, not_lt] at hlower
        obtain ⟨hmem, hle⟩ := ih ptr hptr hl.2
        exact ⟨⟨hle.trans hlower.2, hmem⟩, hle⟩
  cases positions with
  | nil => exact nofun
  | cons position l =>
    rw [forall_mem_cons] at h
    have hrest := hfold l position h.1 h.2
    rw [forall_mem_cons]
    exact ⟨hrest.2, hrest.1⟩

/-- So many positions are at least the n-th latest one. -/
theorem le_countP_nthLatest (before : ℕ) {positions : List ℕ} {nth : UInt8} (hpos : nth ≠ 0)
    (hlen : nth.toNat ≤ positions.length) :
    nth.toNat ≤ positions.countP fun p =>
      syncRepGetNthLatestSyncRecPtr before positions nth ≤ p := by
  have hperm := mergeSort_perm positions fun a b => decide (b ≤ a)
  have hsorted : (positions.mergeSort fun a b => decide (b ≤ a)).Pairwise
      fun a b => decide (b ≤ a) = true :=
    pairwise_mergeSort (by simp; omega) (by simp; omega) positions
  rw [syncRepGetNthLatestSyncRecPtr, if_neg hpos, ← hperm.countP_eq]
  rw [← hperm.length_eq] at hlen
  generalize (positions.mergeSort fun a b => decide (b ≤ a)) = sorted at *
  have hnth : 0 < nth.toNat := by
    rw [Nat.pos_iff_ne_zero, ne_eq, ← UInt8.toNat_zero, UInt8.toNat_inj]
    exact hpos
  -- all of the first `nth` entries count
  have hall : ∀ p ∈ sorted.take nth.toNat, sorted.getD (nth.toNat - 1) invalidXLogRecPtr ≤ p := by
    intro p hp
    obtain ⟨k, hk, rfl⟩ := mem_take_iff_getElem.1 hp
    rw [getD_eq_getElem _ _ (by omega)]
    rcases Nat.lt_or_ge k (nth.toNat - 1) with hlt | hge
    · exact of_decide_eq_true (pairwise_iff_getElem.1 hsorted k _ (by omega) (by omega) hlt)
    · obtain rfl : k = nth.toNat - 1 := by omega
      exact le_rfl
  calc nth.toNat = (sorted.take nth.toNat).length := by rw [length_take]; omega
    _ = (sorted.take nth.toNat).countP fun p =>
        sorted.getD (nth.toNat - 1) invalidXLogRecPtr ≤ p := by
      rw [eq_comm, countP_eq_length]
      simpa using hall
    _ ≤ _ := (take_sublist _ _).countP_le

section Candidates

variable {config : SyncRepConfig} {walsnds : Fin n → WalSnd}

/-- Only candidates are chosen. -/
theorem isCandidate_of_mem {i : Fin n} (h : i ∈ syncRepGetCandidateStandbys config walsnds) :
    (walsnds i).isCandidate = true := by
  rw [syncRepGetCandidateStandbys] at h
  split_ifs at h with hmany
  · have hmem := mem_mergeSort.1 (mem_of_mem_take h)
    exact (mem_filter.1 hmem).2
  · exact (mem_filter.1 h).2

/-- No standby is chosen twice. -/
theorem nodup_candidateStandbys : (syncRepGetCandidateStandbys config walsnds).Nodup := by
  have hnodup : ((List.finRange n).filter fun i => (walsnds i).isCandidate).Nodup :=
    (nodup_finRange n).filter _
  rw [syncRepGetCandidateStandbys]
  split_ifs with hmany
  · exact ((mergeSort_perm _ _).nodup_iff.2 hnodup).sublist (take_sublist _ _)
  · exact hnodup

/-- In priority mode the standbys are the `num_sync` ones of highest priority. -/
theorem highest_candidateStandbys (hmethod : config.method = .priority)
    (hlen : config.numSync ≤ (syncRepGetCandidateStandbys config walsnds).length) :
    (syncRepGetCandidateStandbys config walsnds).length = config.numSync ∧
      ∀ i ∈ syncRepGetCandidateStandbys config walsnds,
        ∀ j ∉ syncRepGetCandidateStandbys config walsnds, (walsnds j).isCandidate = true →
          (walsnds i).syncStandbyPriority ≤ (walsnds j).syncStandbyPriority := by
  rw [syncRepGetCandidateStandbys] at *
  have hmem (j : Fin n) (hj : (walsnds j).isCandidate = true) :
      j ∈ (List.finRange n).filter fun i => (walsnds i).isCandidate :=
    mem_filter.2 ⟨mem_finRange j, hj⟩
  generalize ((List.finRange n).filter fun i => (walsnds i).isCandidate) = standbys at *
  split_ifs at * with hmany
  · have hperm := mergeSort_perm standbys (standbyPriorityLe walsnds)
    have hsorted : (standbys.mergeSort (standbyPriorityLe walsnds)).Pairwise
        fun a b => standbyPriorityLe walsnds a b = true :=
      pairwise_mergeSort (by simp [standbyPriorityLe]; omega)
        (by simp [standbyPriorityLe]; omega) standbys
    generalize standbys.mergeSort (standbyPriorityLe walsnds) = sorted at *
    refine ⟨by rw [length_take, hperm.length_eq]; omega, fun i hi j hj hcand => ?_⟩
    -- a candidate that was cut off stands behind every one that was kept
    have hdrop : j ∈ sorted.drop config.numSync := by
      have hsorted_mem := hperm.mem_iff.2 (hmem j hcand)
      rw [← take_append_drop config.numSync sorted] at hsorted_mem
      exact (mem_append.1 hsorted_mem).resolve_left hj
    rw [← take_append_drop config.numSync sorted, pairwise_append] at hsorted
    have hle := hsorted.2.2 i hi j hdrop
    simp only [standbyPriorityLe, Bool.or_eq_true, decide_eq_true_eq, Bool.and_eq_true] at hle
    omega
  · have hfew : standbys.length ≤ config.numSync := by
      by_contra hlt
      exact hmany ⟨hmethod, by omega⟩
    exact ⟨le_antisymm hfew hlen, fun i _ j hj hcand => absurd (hmem j hcand) hj⟩

/-- The configuration fits the code: the number of a quorum is an unsigned byte. -/
def SyncRepConfig.Fits (config : SyncRepConfig) : Prop :=
  config.method = .quorum → config.numSync < 2 ^ 8

/-- Several standbys are chosen by priority, so that an oldest position is looked for. -/
def SyncRepConfig.TakesOldest (config : SyncRepConfig) : Prop :=
  config.method = .priority ∧ 1 < config.numSync

/-- The chosen positions are confirmed by the entries that they were computed from. -/
theorem confirmed_of_syncRecPtr (hfits : config.Fits)
    (hvalid : config.TakesOldest → ∀ i, (walsnds i).isCandidate = true →
      ∀ mode, (walsnds i).position mode ≠ invalidXLogRecPtr)
    {before : ℕ} {me : Fin n} {ptr : SyncRepWaitMode → ℕ}
    (h : syncRepGetSyncRecPtr config before walsnds me = some ptr) (mode : SyncRepWaitMode) :
    Confirmed config walsnds mode (ptr mode) := by
  rw [syncRepGetSyncRecPtr] at h
  split_ifs at h with hfew
  rw [not_or, not_lt] at hfew
  cases h
  have hcand (i) (hi : i ∈ syncRepGetCandidateStandbys config walsnds) := isCandidate_of_mem hi
  cases hmethod : config.method with
  | priority =>
    obtain ⟨hlength, hhighest⟩ := highest_candidateStandbys hmethod hfew.2
    refine ⟨_, nodup_candidateStandbys, hfew.2, fun i hi => ⟨hcand i hi, ?_⟩,
      fun _ => ⟨hlength, hhighest⟩⟩
    by_cases hone : 1 < config.numSync
    · apply oldest_le
      · intro p hp
        obtain ⟨j, hj, rfl⟩ := mem_map.1 hp
        exact hvalid ⟨hmethod, hone⟩ j (hcand j hj) mode
      · exact mem_map_of_mem hi
    · -- the oldest position of one standby is its own
      have hpos := config.numSync_pos
      obtain ⟨j, hj⟩ := length_eq_one_iff.1 (hlength.trans (by omega))
      rw [hj] at hi ⊢
      rw [mem_singleton.1 hi]
      simp [syncRepGetOldestSyncRecPtr]
  | quorum =>
    have hbyte : (UInt8.ofNat config.numSync).toNat = config.numSync :=
      UInt8.toNat_ofNat_of_lt' (hfits hmethod)
    have hpos : UInt8.ofNat config.numSync ≠ 0 := by
      intro hzero
      have hnum := config.numSync_pos
      rw [← hbyte, hzero] at hnum
      exact absurd hnum (by decide)
    have hlength : (UInt8.ofNat config.numSync).toNat ≤ ((syncRepGetCandidateStandbys config
        walsnds).map fun i => (walsnds i).position mode).length := by
      rw [hbyte, length_map]
      exact hfew.2
    have hcount := le_countP_nthLatest before hpos hlength
    rw [hbyte, countP_map, countP_eq_length_filter] at hcount
    refine ⟨_, nodup_candidateStandbys.filter _, hcount, fun i hi => ?_,
      fun h => nomatch hmethod.symm.trans h⟩
    rw [mem_filter] at hi
    exact ⟨hcand i hi.1, of_decide_eq_true hi.2⟩

/-- An earlier position is confirmed, too. -/
theorem Confirmed.mono {mode : SyncRepWaitMode} {lsn lsn' : ℕ}
    (h : Confirmed config walsnds mode lsn) (hle : lsn' ≤ lsn) :
    Confirmed config walsnds mode lsn' := by
  obtain ⟨standbys, hnodup, hlength, hall, hhighest⟩ := h
  exact ⟨standbys, hnodup, hlength, fun i hi => ⟨(hall i hi).1, hle.trans (hall i hi).2⟩, hhighest⟩

/-- The standby is a candidate after a change of its entry if and only if it was one before, and a
candidate keeps its priority and does not go back. -/
structure WalSnd.Grows (old new : WalSnd) : Prop where
  isCandidate : new.isCandidate = old.isCandidate
  priority : old.isCandidate = true → new.syncStandbyPriority = old.syncStandbyPriority
  write : old.isCandidate = true → old.write ≤ new.write
  flush : old.isCandidate = true → old.flush ≤ new.flush
  apply : old.isCandidate = true → old.apply ≤ new.apply

theorem WalSnd.Grows.refl (s : WalSnd) : s.Grows s :=
  ⟨rfl, fun _ => rfl, fun _ => le_rfl, fun _ => le_rfl, fun _ => le_rfl⟩

theorem WalSnd.Grows.trans {s t u : WalSnd} (h : s.Grows t) (h' : t.Grows u) : s.Grows u := by
  have hcand (hs : s.isCandidate = true) : t.isCandidate = true := h.isCandidate.trans hs
  exact ⟨h'.isCandidate.trans h.isCandidate,
    fun hs => (h'.priority (hcand hs)).trans (h.priority hs),
    fun hs => (h.write hs).trans (h'.write (hcand hs)),
    fun hs => (h.flush hs).trans (h'.flush (hcand hs)),
    fun hs => (h.apply hs).trans (h'.apply (hcand hs))⟩

/-- What was confirmed stays so while the entries grow. -/
theorem Confirmed.grows {walsnds' : Fin n → WalSnd} {mode : SyncRepWaitMode} {lsn : ℕ}
    (h : Confirmed config walsnds mode lsn) (hgrows : ∀ i, (walsnds i).Grows (walsnds' i)) :
    Confirmed config walsnds' mode lsn := by
  obtain ⟨standbys, hnodup, hlength, hall, hhighest⟩ := h
  refine ⟨standbys, hnodup, hlength, fun i hi => ?_, fun hmethod => ?_⟩
  · obtain ⟨hcand, hle⟩ := hall i hi
    refine ⟨(hgrows i).isCandidate.trans hcand, hle.trans ?_⟩
    cases mode with
    | write => exact (hgrows i).write hcand
    | flush => exact (hgrows i).flush hcand
    | apply => exact (hgrows i).apply hcand
  · obtain ⟨heq, hle⟩ := hhighest hmethod
    refine ⟨heq, fun i hi j hj hcand => ?_⟩
    rw [(hgrows j).isCandidate] at hcand
    rw [(hgrows i).priority (hall i hi).1, (hgrows j).priority hcand]
    exact hle i hi j hj hcand

end Candidates

/-- A valid flush position comes with valid write and apply positions. -/
def WalSnd.Complete (s : WalSnd) : Prop :=
  s.flush ≠ invalidXLogRecPtr → s.write ≠ invalidXLogRecPtr ∧ s.apply ≠ invalidXLogRecPtr

theorem WalSnd.Complete.position_ne {s : WalSnd} (h : s.Complete) (hcand : s.isCandidate = true)
    (mode : SyncRepWaitMode) : s.position mode ≠ invalidXLogRecPtr := by
  have hflush : s.flush ≠ invalidXLogRecPtr := by
    simp only [WalSnd.isCandidate, WalSnd.isPotentialSync, Bool.and_eq_true] at hcand
    exact of_decide_eq_true hcand.2.2
  cases mode with
  | write => exact (h hflush).1
  | flush => exact hflush
  | apply => exact (h hflush).2

/-! ### Runs -/

namespace WalSndCtl

/-- Every published position and every released wait was confirmed at a moment of `history`. -/
structure Sound (config : SyncRepConfig) (history : List (Fin n → WalSnd)) (ctl : WalSndCtl n) :
    Prop where
  lsn : ∀ mode, 0 < ctl.lsn mode → ∃ walsnds ∈ history, Confirmed config walsnds mode (ctl.lsn mode)
  released : ∀ wait ∈ ctl.released, 0 < wait.2 →
    ∃ walsnds ∈ history, Confirmed config walsnds wait.1 wait.2

variable {config : SyncRepConfig} {history : List (Fin n → WalSnd)} {ctl : WalSndCtl n}

/-- The backends that are woken wait for what is published. -/
theorem Sound.wakeQueue (h : ctl.Sound config history) (mode : SyncRepWaitMode) :
    (ctl.syncRepWakeQueue mode).Sound config history where
  lsn := h.lsn
  released := by
    intro wait hwait hpos
    rcases mem_append.1 hwait with hnew | hold
    · obtain ⟨_, hproc, rfl⟩ := mem_map.1 hnew
      -- the loop stops at the first backend that waits for a later position
      have hdone := mem_takeWhile_imp hproc
      rw [Bool.not_eq_true', decide_eq_false_iff_not, not_lt] at hdone
      obtain ⟨walsnds, hmem, hconf⟩ := h.lsn mode (hpos.trans_le hdone)
      exact ⟨walsnds, hmem, hconf.mono hdone⟩
    · exact h.released wait hold hpos

/-- A confirmed position may be published. -/
theorem Sound.advanceLsn (h : ctl.Sound config history) {walsnds : Fin n → WalSnd}
    (hmem : walsnds ∈ history) {mode : SyncRepWaitMode} {ptr : ℕ}
    (hconf : Confirmed config walsnds mode ptr) :
    (ctl.advanceLsn mode ptr).Sound config history := by
  rw [WalSndCtl.advanceLsn]
  split_ifs
  · apply Sound.wakeQueue
    refine ⟨fun mode' hpos => ?_, h.released⟩
    dsimp only at hpos ⊢
    by_cases hmode : mode' = mode
    · subst hmode
      rw [update_self]
      exact ⟨walsnds, hmem, hconf⟩
    · rw [update_of_ne hmode] at hpos ⊢
      exact h.lsn mode' hpos
  · exact h

/-- A backend that does not wait relies on what is published. -/
theorem Sound.waitForLSN (h : ctl.Sound config history) (proc lsn : ℕ)
    (waitMode : SyncRepWaitMode) (commit : Bool) :
    (ctl.syncRepWaitForLSN proc lsn waitMode commit).Sound config history := by
  rw [syncRepWaitForLSN]
  split_ifs with hreached
  · refine ⟨h.lsn, fun wait hwait hpos => ?_⟩
    rcases mem_cons.1 hwait with rfl | hold
    · obtain ⟨walsnds, hmem, hconf⟩ := h.lsn _ (Nat.lt_of_lt_of_le hpos hreached)
      exact ⟨walsnds, hmem, hconf.mono hreached⟩
    · exact h.released wait hold hpos
  · exact ⟨h.lsn, h.released⟩

/-- What was confirmed at a moment stays confirmed at that moment. -/
theorem Sound.mono {history' : List (Fin n → WalSnd)} (h : ctl.Sound config history)
    (hsub : history ⊆ history') : ctl.Sound config history' where
  lsn mode hpos :=
    let ⟨walsnds, hmem, hconf⟩ := h.lsn mode hpos
    ⟨walsnds, hsub hmem, hconf⟩
  released wait hwait hpos :=
    let ⟨walsnds, hmem, hconf⟩ := h.released wait hwait hpos
    ⟨walsnds, hsub hmem, hconf⟩

/-- Where an oldest position is looked for, a reply with a valid flush position has valid write and
apply positions. -/
def ValidReply (config : SyncRepConfig) : SyncRepAction n → Prop
  | .reply _ write flush apply => config.TakesOldest → flush ≠ invalidXLogRecPtr →
      write ≠ invalidXLogRecPtr ∧ apply ≠ invalidXLogRecPtr
  | _ => True

/-- While a walsender reads the entries, no standby becomes a candidate or ceases to be one, and no
candidate goes back. -/
def Undisturbed (config : SyncRepConfig) (ctl : WalSndCtl n) (a : SyncRepAction n) : Prop :=
  ctl.scan.isSome = true → ∀ i, (ctl.walsnds i).Grows ((ctl.act config a).walsnds i)

/-- The condition on each step of a run. -/
def Steady (config : SyncRepConfig) (ctl : WalSndCtl n) (a : SyncRepAction n) : Prop :=
  ValidReply config a ∧ ctl.Undisturbed config a

/-- The invariant of the runs: also what was read of an entry holds of it still. -/
structure Valid (config : SyncRepConfig) (ctl : WalSndCtl n) : Prop where
  sound : ctl.Sound config ctl.history
  complete : config.TakesOldest → ∀ i, (ctl.walsnds i).Complete
  complete_copies : ∀ scan ∈ ctl.scan, config.TakesOldest → ∀ copy ∈ scan.copies, copy.Complete
  grows : ∀ scan ∈ ctl.scan, ∀ i : Fin n, i < scan.copies.length →
    (scan.entries i).Grows (ctl.walsnds i)

/-- The next state is recorded, and neither the entries nor the scan have changed. -/
theorem Valid.of_sound {ctl' : WalSndCtl n} (h : ctl.Valid config)
    (hwalsnds : ctl'.walsnds = ctl.walsnds) (hscan : ctl'.scan = ctl.scan)
    (hsound : ctl'.Sound config (ctl'.walsnds :: ctl.history)) :
    WalSndCtl.Valid config { ctl' with history := ctl'.walsnds :: ctl.history } where
  sound := ⟨hsound.lsn, hsound.released⟩
  complete := hwalsnds ▸ h.complete
  complete_copies := hscan ▸ h.complete_copies
  grows := hscan ▸ hwalsnds ▸ h.grows

/-- A walsender writes its entry. -/
theorem Valid.setWalSnd (h : ctl.Valid config) (i : Fin n) (walsnd : WalSnd)
    (hcomplete : config.TakesOldest → walsnd.Complete)
    (hgrows : ctl.scan.isSome = true → ∀ j,
      (ctl.walsnds j).Grows ((ctl.setWalSnd i walsnd).walsnds j))
    {walsnds : Fin n → WalSnd} :
    WalSndCtl.Valid config { ctl.setWalSnd i walsnd with history := walsnds :: ctl.history } where
  sound :=
    have hsound := h.sound.mono (subset_cons_self walsnds ctl.history)
    ⟨hsound.lsn, hsound.released⟩
  complete holdest := (forall_update_iff ctl.walsnds fun _ s => s.Complete).2
    ⟨hcomplete holdest, fun j _ => h.complete holdest j⟩
  complete_copies := h.complete_copies
  grows scan hscan j hj := (h.grows scan hscan j hj).trans
    (hgrows (Option.isSome_iff_exists.2 ⟨scan, hscan⟩) j)

/-- The walsender that scans reads the next entry. -/
theorem Valid.readEntry (h : ctl.Valid config) :
    WalSndCtl.Valid config
      { ctl.readEntry with history := ctl.readEntry.walsnds :: ctl.history } := by
  have hsound {walsnds : Fin n → WalSnd} := h.sound.mono (subset_cons_self walsnds ctl.history)
  rw [WalSndCtl.readEntry]
  split
  · exact h.of_sound rfl rfl hsound
  rename_i scan hscan
  split_ifs with hlen
  · refine ⟨⟨hsound.lsn, hsound.released⟩, h.complete, ?_, ?_⟩
    · rintro _ ⟨⟩ holdest copy hcopy
      rcases mem_append.1 hcopy with hcopy | hcopy
      · exact h.complete_copies scan hscan holdest copy hcopy
      · exact mem_singleton.1 hcopy ▸ h.complete holdest _
    · rintro _ ⟨⟩ i hi
      rw [Scan.entries]
      rcases Nat.lt_or_ge i scan.copies.length with hlt | hge
      · rw [getD_append _ _ _ _ hlt]
        exact h.grows scan hscan i hlt
      · obtain rfl : i = ⟨_, hlen⟩ := Fin.ext (show i.val = scan.copies.length by simp at hi; omega)
        simp [WalSnd.Grows.refl]
  · exact h.of_sound rfl rfl hsound

theorem walsnds_advanceLsn (mode : SyncRepWaitMode) (ptr : ℕ) :
    (ctl.advanceLsn mode ptr).walsnds = ctl.walsnds := by
  rw [advanceLsn]
  split_ifs <;> rfl

theorem walsnds_publish (scan : Scan n) : (ctl.publish config scan).walsnds = ctl.walsnds := by
  rw [publish]
  split
  · rfl
  · rw [walsnds_advanceLsn, walsnds_advanceLsn, walsnds_advanceLsn]

/-- The published positions are confirmed at the end of the scan, as the entries only grew. -/
theorem Valid.publish (h : ctl.Valid config) (hfits : config.Fits) {scan : Scan n}
    (hscan : scan ∈ ctl.scan) (hlen : n ≤ scan.copies.length)
    (hsound : ctl.Sound config history) (hmem : ctl.walsnds ∈ history) :
    (ctl.publish config scan).Sound config history := by
  rw [WalSndCtl.publish]
  split
  · exact hsound
  · rename_i ptr hptr
    have hconf (mode : SyncRepWaitMode) : Confirmed config ctl.walsnds mode (ptr mode) := by
      refine (confirmed_of_syncRecPtr hfits (fun holdest i => ?_) hptr mode).grows fun i =>
        h.grows scan hscan i (i.isLt.trans_le hlen)
      refine (h.complete_copies scan hscan holdest _ ?_).position_ne
      rw [Scan.entries, getD_eq_getElem _ _ (i.isLt.trans_le hlen)]
      exact getElem_mem _
    exact ((hsound.advanceLsn hmem (hconf .write)).advanceLsn hmem (hconf .flush)).advanceLsn
      hmem (hconf .apply)

/-- One action of a steady run. -/
theorem Valid.step (h : ctl.Valid config) (hfits : config.Fits) {a : SyncRepAction n}
    (ha : ctl.Steady config a) : (ctl.step config a).Valid config := by
  have hsound {walsnds : Fin n → WalSnd} := h.sound.mono (subset_cons_self walsnds ctl.history)
  cases a with
  | start i => exact h.setWalSnd i _ (fun _ hne => absurd rfl hne) ha.2
  | setState i state | exit i =>
    refine h.setWalSnd i _ ?_ ha.2
    exact fun holdest => h.complete holdest i
  | reply i =>
    refine h.setWalSnd i _ ?_ ha.2
    exact ha.1
  | beginScan me before =>
    rw [WalSndCtl.step, act, beginScan]
    split_ifs
    · exact h.of_sound rfl rfl hsound
    · refine ⟨⟨hsound.lsn, hsound.released⟩, h.complete, ?_, ?_⟩
      · rintro _ ⟨⟩ _ _ hcopy
        exact absurd hcopy not_mem_nil
      · rintro _ ⟨⟩ i hi
        exact absurd hi (Nat.not_lt_zero i)
  | readEntry => exact h.readEntry
  | endScan =>
    rw [WalSndCtl.step, act, endScan]
    split
    · exact h.of_sound rfl rfl hsound
    · rename_i scan hscan
      split_ifs with hlen
      · exact h.of_sound rfl rfl hsound
      · have hpublish := h.publish hfits hscan (Nat.not_lt.1 hlen) hsound mem_cons_self
        dsimp only
        rw [walsnds_publish]
        exact ⟨⟨hpublish.lsn, hpublish.released⟩, h.complete, nofun, nofun⟩
  | waitForLSN proc lsn waitMode commit =>
    rw [WalSndCtl.step, act]
    split_ifs
    · exact h.of_sound rfl rfl hsound
    · refine h.of_sound ?_ ?_ (hsound.waitForLSN proc lsn waitMode commit)
      all_goals
        rw [syncRepWaitForLSN]
        split_ifs <;> rfl
  | cancelWait =>
    rw [WalSndCtl.step, act]
    split_ifs
    · exact h.of_sound rfl rfl hsound
    · exact h.of_sound rfl rfl ⟨hsound.lsn, hsound.released⟩

/-- The state at server start. -/
structure Initial (ctl : WalSndCtl n) : Prop where
  walsnds : ∀ i, (ctl.walsnds i).flush = invalidXLogRecPtr
  scan : ctl.scan = none
  lsn : ∀ mode, ctl.lsn mode = invalidXLogRecPtr
  released : ctl.released = []

theorem Initial.valid (h : ctl.Initial) : ctl.Valid config where
  sound := ⟨fun mode hpos => absurd (h.lsn mode) (Nat.pos_iff_ne_zero.1 hpos),
    fun _ hwait => absurd (h.released ▸ hwait) not_mem_nil⟩
  complete _ i hne := absurd (h.walsnds i) hne
  complete_copies _ hscan := by cases h.scan.symm.trans hscan
  grows _ hscan := by cases h.scan.symm.trans hscan

/-- **Synchronous replication.** In every run whose replies are valid and whose scans are not
disturbed, with a configuration that fits, each wait that was released was confirmed at that or an
earlier moment. -/
theorem released_confirmed (h : ctl.Initial) (hfits : config.Fits)
    {actions : List (SyncRepAction n)}
    (hsteady : EveryStep (WalSndCtl.step config) (Steady config) ctl actions) :
    ∀ wait ∈ (run (WalSndCtl.step config) ctl actions).released, 0 < wait.2 →
      ∃ walsnds ∈ (run (WalSndCtl.step config) ctl actions).history,
        Confirmed config walsnds wait.1 wait.2 := by
  have hvalid : (run (WalSndCtl.step config) ctl actions).Valid config :=
    run_invariant (fun _ _ hctl ha => hctl.step hfits ha) h.valid hsteady
  exact hvalid.sound.released

/-- No walsenders, no waits. -/
def atStart (n : ℕ) : WalSndCtl n where
  walsnds _ := ⟨false, .startup, 0, 0, 0, 0⟩
  scan := none
  lsn _ := invalidXLogRecPtr
  syncRepQueue _ := []
  history := []
  released := []

theorem initial_atStart (n : ℕ) : (atStart n).Initial := ⟨fun _ => rfl, rfl, fun _ => rfl, rfl⟩

/-- The first standby. -/
def s1 : Fin 2 := ⟨0, Nat.two_pos⟩

/-- The second standby. -/
def s2 : Fin 2 := Fin.last 1

/-- Two synchronous standbys, the first two entries. -/
def connected : List (SyncRepAction 2) :=
  [.start s1 1, .start s2 2, .setState s1 .streaming, .setState s2 .streaming]

/-- A backend waits until both have flushed position 80. The first standby replies once more while
the walsender of the second one reads the entries. -/
def replyDuringScan : List (SyncRepAction 2) :=
  connected ++ [.waitForLSN 7 80 .flush true, .reply s1 100 90 70, .reply s2 100 100 60,
    .beginScan s2 0, .readEntry, .reply s1 120 110 90, .readEntry, .endScan]

theorem released_confirmed_replyDuringScan :
    ∃ walsnds ∈ (run (WalSndCtl.step ⟨.priority, 2, Nat.two_pos⟩) (atStart 2)
        replyDuringScan).history,
      Confirmed ⟨.priority, 2, Nat.two_pos⟩ walsnds .flush 80 := by
  have hgrows :
      WalSnd.Grows ⟨true, .streaming, 100, 90, 70, 1⟩ ⟨true, .streaming, 120, 110, 90, 1⟩ :=
    ⟨rfl, fun _ => rfl, fun _ => by decide, fun _ => by decide, fun _ => by decide⟩
  have hsteady : EveryStep (WalSndCtl.step ⟨.priority, 2, Nat.two_pos⟩)
      (Steady ⟨.priority, 2, Nat.two_pos⟩) (atStart 2) replyDuringScan :=
    ⟨⟨trivial, nofun⟩, ⟨trivial, nofun⟩, ⟨trivial, nofun⟩, ⟨trivial, nofun⟩, ⟨trivial, nofun⟩,
      ⟨fun _ _ => by decide, nofun⟩, ⟨fun _ _ => by decide, nofun⟩, ⟨trivial, nofun⟩,
      ⟨trivial, fun _ _ => .refl _⟩,
      ⟨fun _ _ => by decide, fun _ => Fin.forall_fin_two.2 ⟨hgrows, .refl _⟩⟩,
      ⟨trivial, fun _ _ => .refl _⟩, ⟨trivial, fun _ _ => .refl _⟩, trivial⟩
  exact released_confirmed (initial_atStart 2) (fun h => absurd h (by decide)) hsteady (.flush, 80)
    (by decide) (by decide)

/-- The first standby reports no apply position. -/
def noApplyPosition : List (SyncRepAction 2) :=
  connected ++ [.waitForLSN 7 80 .apply true, .reply s1 100 100 invalidXLogRecPtr,
    .reply s2 100 100 100, .beginScan s2 0, .readEntry, .readEntry, .endScan]

/-- The backend is released although the first standby never reported an apply position. -/
theorem not_confirmed_noApplyPosition :
    (SyncRepWaitMode.apply, 80) ∈
        (run (WalSndCtl.step ⟨.priority, 2, Nat.two_pos⟩) (atStart 2) noApplyPosition).released ∧
      ∀ walsnds ∈
        (run (WalSndCtl.step ⟨.priority, 2, Nat.two_pos⟩) (atStart 2) noApplyPosition).history,
        ¬ Confirmed ⟨.priority, 2, Nat.two_pos⟩ walsnds .apply 80 := by
  refine ⟨by decide, fun walsnds hmem hconf => ?_⟩
  have hfirst : ∀ walsnds ∈ (run (WalSndCtl.step ⟨.priority, 2, Nat.two_pos⟩) (atStart 2)
      noApplyPosition).history, (walsnds 0).apply = 0 := by decide
  obtain ⟨standbys, hnodup, hlength, hall, -⟩ := hconf
  -- two different standbys are all of them
  have hzero : (0 : Fin 2) ∈ standbys := by
    by_contra hzero
    have hsub : standbys ⊆ [1] := fun i hi => by
      have hne : i ≠ 0 := fun h => hzero (h ▸ hi)
      exact mem_singleton.2 (by omega)
    have hle := (subperm_of_subset hnodup hsub).length_le
    exact absurd (hlength.trans hle) (by decide)
  have hle := (hall 0 hzero).2
  rw [WalSnd.position, hfirst walsnds hmem] at hle
  exact absurd hle (by decide)

end WalSndCtl

end PgCutover.Replication
