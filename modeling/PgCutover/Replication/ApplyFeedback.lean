import PgCutover.Transam.TransactionId
import PgCutover.Wal.Insert

/-!
# What a leader apply worker reports as flushed

The worker remembers, for each remote transaction that it committed, the end of the local commit
record.
-/

namespace PgCutover.Replication

open Transam Lib Wal List

/-- The ends of a commit record here and of the transaction there. -/
structure FlushPosition where
  localEnd : ℕ
  remoteEnd : ℕ
  deriving DecidableEq, Repr

/-- What `get_flush_position` returns, with the list it leaves behind. -/
structure FlushState where
  write : ℕ
  flush : ℕ
  havePendingTxes : Bool
  lsnMapping : List FlushPosition
  deriving DecidableEq, Repr

/-- The loop of `get_flush_position`, with the values of `*write` and `*flush` so far. -/
def flushLoop (localFlush : ℕ) : List FlushPosition → ℕ → ℕ → FlushState
  | [], write, flush => ⟨write, flush, false, []⟩
  | pos :: rest, _, flush =>
    if pos.localEnd ≤ localFlush then flushLoop localFlush rest pos.remoteEnd pos.remoteEnd
    else ⟨((pos :: rest).getLast (cons_ne_nil _ _)).remoteEnd, flush, true, pos :: rest⟩

/-- `get_flush_position`. -/
def getFlushPosition (localFlush : ℕ) (lsnMapping : List FlushPosition) : FlushState :=
  flushLoop localFlush lsnMapping invalidXLogRecPtr invalidXLogRecPtr

/-- What a remote transaction did locally until its commit message. -/
inductive LocalEffect
  /-- No local transaction was started. -/
  | empty
  /-- A local transaction that wrote nothing: there is no commit record. -/
  | readOnly
  /-- The end of the local commit record. -/
  | wrote (commitEnd : ℕ)
  deriving DecidableEq, Repr

/-- A remote transaction and what its application does here. -/
structure RemoteXact where
  remoteEnd : ℕ
  effect : LocalEffect
  deriving DecidableEq, Repr

/-- The positions that the worker reports. -/
structure StatusUpdate where
  write : ℕ
  flush : ℕ
  apply : ℕ
  deriving DecidableEq, Repr

/-- The worker, and the ends of the transactions that it has applied. -/
structure ApplyWorker where
  lsnMapping : List FlushPosition
  lastRecvpos : ℕ
  lastWritepos : ℕ
  lastFlushpos : ℕ
  xactLastCommitEnd : ℕ
  /-- How far the local log is flushed. -/
  localFlush : ℕ
  /-- The latest position of a message or commit so far. -/
  received : ℕ
  /-- The remote transactions applied so far. -/
  applied : List RemoteXact
  /-- The status updates sent so far, the last one first. -/
  sent : List StatusUpdate
  deriving DecidableEq, Repr

/-- The arguments of `send_feedback` and what it reads of the configuration and the clock. -/
structure Feedback where
  recvpos : ℕ
  force : Bool
  /-- `wal_receiver_status_interval <= 0`. -/
  statusDisabled : Bool
  /-- The status interval has passed since the last update. -/
  intervalPassed : Bool
  deriving DecidableEq, Repr

/-- What the worker does, and what happens to the local log. -/
inductive ApplyAction
  /-- A message arrives. -/
  | message (position : ℕ)
  /-- The commit message of a remote transaction. -/
  | commit (xact : RemoteXact)
  /-- The local log is flushed. -/
  | walFlush (position : ℕ)
  | feedback (args : Feedback)
  deriving DecidableEq, Repr

namespace ApplyWorker

/-- `store_flush_position`. -/
def storeFlushPosition (w : ApplyWorker) (remoteLsn localLsn : ℕ) : ApplyWorker :=
  { w with lsnMapping := w.lsnMapping ++ [⟨localLsn, remoteLsn⟩] }

/-- `apply_handle_commit_internal`. -/
def applyHandleCommitInternal (w : ApplyWorker) (xact : RemoteXact) : ApplyWorker :=
  match xact.effect with
  | .empty => w
  | .readOnly => w.storeFlushPosition xact.remoteEnd w.xactLastCommitEnd
  | .wrote commitEnd =>
    { w with xactLastCommitEnd := commitEnd }.storeFlushPosition xact.remoteEnd commitEnd

/-- The message of `send_feedback`, and the positions it remembers. -/
def sendUpdate (w : ApplyWorker) (recvpos writepos flushpos : ℕ) : ApplyWorker :=
  { w with
    sent := ⟨recvpos, flushpos, writepos⟩ :: w.sent
    lastRecvpos := if recvpos > w.lastRecvpos then recvpos else w.lastRecvpos
    lastWritepos := if writepos > w.lastWritepos then writepos else w.lastWritepos
    lastFlushpos := if flushpos > w.lastFlushpos then flushpos else w.lastFlushpos }

/-- `send_feedback`. -/
def sendFeedback (w : ApplyWorker) (args : Feedback) : ApplyWorker :=
  if !args.force && args.statusDisabled then w
  else
    let recvpos := if args.recvpos < w.lastRecvpos then w.lastRecvpos else args.recvpos
    let pos := getFlushPosition w.localFlush w.lsnMapping
    let w := { w with lsnMapping := pos.lsnMapping }
    let writepos := if pos.havePendingTxes then pos.write else recvpos
    let flushpos := if pos.havePendingTxes then pos.flush else recvpos
    let writepos := if writepos < w.lastWritepos then w.lastWritepos else writepos
    let flushpos := if flushpos < w.lastFlushpos then w.lastFlushpos else flushpos
    if !args.force && writepos = w.lastWritepos && flushpos = w.lastFlushpos &&
        !args.intervalPassed then w
    else w.sendUpdate recvpos writepos flushpos

/-- A message with the given end position arrives. -/
def receive (w : ApplyWorker) (position : ℕ) : ApplyWorker :=
  { w with received := max w.received position }

/-- One action of the worker. -/
def step (w : ApplyWorker) : ApplyAction → ApplyWorker
  | .message position => w.receive position
  | .commit xact =>
    let w := (w.receive xact.remoteEnd).applyHandleCommitInternal xact
    { w with applied := xact :: w.applied }
  | .walFlush position => { w with localFlush := max w.localFlush position }
  | .feedback args => (w.receive args.recvpos).sendFeedback args

end ApplyWorker

/-! ### The loop over the list -/

/-- The loop drops flushed entries from the front and stops before the first one that is not. -/
structure Advanced (localFlush : ℕ) (lsnMapping : List FlushPosition) (flush : ℕ)
    (r : FlushState) : Prop where
  suffix : r.lsnMapping <:+ lsnMapping
  dropped : ∀ pos ∈ lsnMapping, pos ∈ r.lsnMapping ∨ pos.localEnd ≤ localFlush
  pending : r.havePendingTxes = false → r.lsnMapping = []
  flush_lt : ∀ pos ∈ r.lsnMapping, r.flush < pos.remoteEnd
  flush_le : ∀ bound, flush ≤ bound → (∀ pos ∈ lsnMapping, pos.remoteEnd ≤ bound) →
    r.flush ≤ bound

theorem advanced_flushLoop {localFlush : ℕ} {lsnMapping : List FlushPosition} {write flush : ℕ}
    (hends : lsnMapping.Pairwise fun a b => a.remoteEnd < b.remoteEnd)
    (hlt : ∀ pos ∈ lsnMapping, flush < pos.remoteEnd) :
    Advanced localFlush lsnMapping flush (flushLoop localFlush lsnMapping write flush) := by
  induction lsnMapping generalizing write flush with
  | nil => exact ⟨suffix_rfl, fun _ h => .inl h, fun _ => rfl, nofun, fun _ h _ => h⟩
  | cons pos rest ih =>
    rw [pairwise_cons] at hends
    rw [flushLoop]
    split_ifs with hflushed
    · -- the entry is dropped, and its remote end is the flush position so far
      have hrest : Advanced localFlush rest pos.remoteEnd
          (flushLoop localFlush rest pos.remoteEnd pos.remoteEnd) := ih hends.2 hends.1
      refine ⟨hrest.suffix.trans (suffix_cons pos rest), fun other hother => ?_,
        hrest.pending, hrest.flush_lt, fun bound _ hbound => ?_⟩
      · rcases mem_cons.1 hother with rfl | hother
        · exact .inr hflushed
        · exact hrest.dropped other hother
      · exact hrest.flush_le bound (hbound pos mem_cons_self)
          fun other hother => hbound other (mem_cons_of_mem pos hother)
    · exact ⟨suffix_rfl, fun _ h => .inl h, nofun, hlt, fun _ h _ => h⟩

namespace ApplyWorker

/-! ### What every step keeps -/

structure Valid (w : ApplyWorker) : Prop where
  ends : w.lsnMapping.Pairwise fun a b => a.remoteEnd < b.remoteEnd
  received : ∀ pos ∈ w.lsnMapping, pos.remoteEnd ≤ w.received
  recvpos : w.lastRecvpos ≤ w.received
  flushpos : w.lastFlushpos ≤ w.received
  /-- What was reported as flushed is before every entry of the list. -/
  outstanding : ∀ pos ∈ w.lsnMapping, w.lastFlushpos < pos.remoteEnd
  /-- A local commit is flushed or still in the list. -/
  tracked : ∀ xact ∈ w.applied, ∀ commitEnd, xact.effect = .wrote commitEnd →
    commitEnd ≤ w.localFlush ∨ ⟨commitEnd, xact.remoteEnd⟩ ∈ w.lsnMapping
  sent : ∀ update ∈ w.sent, update.flush ≤ w.lastFlushpos
  sorted : w.sent.Pairwise fun later earlier => earlier.flush ≤ later.flush

variable {w : ApplyWorker}

theorem Valid.receive (h : w.Valid) (position : ℕ) : (w.receive position).Valid :=
  { h with
    received := fun pos hpos => le_max_of_le_left (h.received pos hpos)
    recvpos := le_max_of_le_left h.recvpos
    flushpos := le_max_of_le_left h.flushpos }

theorem Valid.walFlush (h : w.Valid) (position : ℕ) :
    { w with localFlush := max w.localFlush position }.Valid :=
  { h with
    tracked := fun xact hxact commitEnd hwrote =>
      (h.tracked xact hxact commitEnd hwrote).imp_left le_max_of_le_left }

/-- A transaction that ends after everything received is added to the end of the list. -/
theorem Valid.storeFlushPosition (h : w.Valid) {remoteLsn : ℕ} (localLsn : ℕ)
    (hlsn : ∀ pos ∈ w.lsnMapping, pos.remoteEnd < remoteLsn) (hflush : w.lastFlushpos < remoteLsn)
    (hreceived : remoteLsn ≤ w.received) :
    (w.storeFlushPosition remoteLsn localLsn).Valid :=
  { h with
    ends := by
      refine pairwise_append.2 ⟨h.ends, pairwise_singleton _ _, fun pos hpos new hnew => ?_⟩
      rw [mem_singleton.1 hnew]
      exact hlsn pos hpos
    received := by
      intro pos hpos
      rcases mem_append.1 hpos with hpos | hnew
      · exact h.received pos hpos
      · rw [mem_singleton.1 hnew]
        exact hreceived
    outstanding := by
      intro pos hpos
      rcases mem_append.1 hpos with hpos | hnew
      · exact h.outstanding pos hpos
      · rw [mem_singleton.1 hnew]
        exact hflush
    tracked := fun xact hxact commitEnd hwrote =>
      (h.tracked xact hxact commitEnd hwrote).imp_right fun hmem => mem_append_left _ hmem }

theorem Valid.commit (h : w.Valid) (xact : RemoteXact)
    (horder : w.received < xact.remoteEnd) : (w.step (.commit xact)).Valid := by
  have hreceived := h.receive xact.remoteEnd
  have hlsn (pos : FlushPosition) (hpos : pos ∈ w.lsnMapping) : pos.remoteEnd < xact.remoteEnd :=
    (h.received pos hpos).trans_lt horder
  have hflush : w.lastFlushpos < xact.remoteEnd := h.flushpos.trans_lt horder
  have hle : xact.remoteEnd ≤ (w.receive xact.remoteEnd).received := le_max_right _ _
  rw [step, applyHandleCommitInternal]
  cases heffect : xact.effect with
  | empty =>
    refine { hreceived with tracked := ?_ }
    intro other hother commitEnd hwrote
    rcases mem_cons.1 hother with rfl | hother
    · exact absurd (heffect.symm.trans hwrote) nofun
    · exact h.tracked other hother commitEnd hwrote
  | readOnly =>
    have hstored := hreceived.storeFlushPosition w.xactLastCommitEnd hlsn hflush hle
    refine { hstored with tracked := ?_ }
    intro other hother commitEnd hwrote
    rcases mem_cons.1 hother with rfl | hother
    · exact absurd (heffect.symm.trans hwrote) nofun
    · exact hstored.tracked other hother commitEnd hwrote
  | wrote commitEnd =>
    have hstored := hreceived.storeFlushPosition commitEnd hlsn hflush hle
    refine { hstored with tracked := ?_ }
    intro other hother otherEnd hwrote
    rcases mem_cons.1 hother with rfl | hother
    · -- the new entry is the last one of the list
      obtain rfl : commitEnd = otherEnd := LocalEffect.wrote.inj (heffect.symm.trans hwrote)
      exact .inr (mem_append_right _ mem_cons_self)
    · exact hstored.tracked other hother otherEnd hwrote

/-- Dropping flushed entries. -/
theorem Valid.prune (h : w.Valid) {flush : ℕ} {r : FlushState}
    (hr : Advanced w.localFlush w.lsnMapping flush r) :
    { w with lsnMapping := r.lsnMapping }.Valid :=
  { h with
    ends := h.ends.sublist hr.suffix.sublist
    received := fun pos hpos => h.received pos (hr.suffix.subset hpos)
    outstanding := fun pos hpos => h.outstanding pos (hr.suffix.subset hpos)
    tracked := by
      intro xact hxact commitEnd hwrote
      rcases h.tracked xact hxact commitEnd hwrote with hflushed | hmem
      · exact .inl hflushed
      · exact (hr.dropped _ hmem).symm }

/-- A status update that reports at least what was reported before, and nothing outstanding. -/
theorem Valid.sendUpdate (h : w.Valid) {recvpos writepos flushpos : ℕ}
    (hrecv : recvpos ≤ w.received) (hflush : flushpos ≤ w.received)
    (hlast : w.lastFlushpos ≤ flushpos) (hnew : ∀ pos ∈ w.lsnMapping, flushpos < pos.remoteEnd) :
    (w.sendUpdate recvpos writepos flushpos).Valid := by
  have hmax : (if flushpos > w.lastFlushpos then flushpos else w.lastFlushpos) = flushpos := by
    split_ifs <;> omega
  rw [ApplyWorker.sendUpdate, hmax]
  refine { h with recvpos := ?_, flushpos := hflush, outstanding := hnew, sent := ?_, sorted := ?_ }
  · dsimp only
    split_ifs
    · exact hrecv
    · exact h.recvpos
  · intro update hupdate
    rcases mem_cons.1 hupdate with rfl | hupdate
    · exact le_rfl
    · exact (h.sent update hupdate).trans hlast
  · exact pairwise_cons.2 ⟨fun update hupdate => (h.sent update hupdate).trans hlast, h.sorted⟩

theorem Valid.sendFeedback (h : w.Valid) (args : Feedback)
    (hargs : args.recvpos ≤ w.received) : (w.sendFeedback args).Valid := by
  have hadvanced : Advanced w.localFlush w.lsnMapping invalidXLogRecPtr
      (getFlushPosition w.localFlush w.lsnMapping) :=
    advanced_flushLoop h.ends fun pos hpos => (Nat.zero_le _).trans_lt (h.outstanding pos hpos)
  have hpruned := h.prune hadvanced
  have hrecv : (if args.recvpos < w.lastRecvpos then w.lastRecvpos else args.recvpos) ≤
      w.received := by
    split_ifs
    · exact h.recvpos
    · exact hargs
  rw [ApplyWorker.sendFeedback]
  by_cases hdisabled : (!args.force && args.statusDisabled) = true
  · rw [if_pos hdisabled]
    exact h
  rw [if_neg hdisabled]
  dsimp only
  generalize (if args.recvpos < w.lastRecvpos then w.lastRecvpos else args.recvpos) = recvpos at *
  generalize getFlushPosition w.localFlush w.lsnMapping = r at *
  -- what is reported is received, and before everything in the list
  have hflush : (if r.havePendingTxes then r.flush else recvpos) ≤ w.received := by
    split_ifs
    · exact hadvanced.flush_le _ (Nat.zero_le _) h.received
    · exact hrecv
  have hnew : ∀ pos ∈ r.lsnMapping, (if r.havePendingTxes then r.flush else recvpos) <
      pos.remoteEnd := by
    intro pos hpos
    split_ifs with hpending
    · exact hadvanced.flush_lt pos hpos
    · rw [hadvanced.pending (Bool.eq_false_iff.2 hpending)] at hpos
      exact absurd hpos not_mem_nil
  generalize (if r.havePendingTxes then r.flush else recvpos) = flushpos at *
  refine iteInduction (fun _ => hpruned) fun _ => ?_
  refine hpruned.sendUpdate hrecv ?_ ?_ fun pos hpos => ?_
  · split_ifs
    · exact h.flushpos
    · exact hflush
  · dsimp only
    split_ifs <;> omega
  · split_ifs
    · exact h.outstanding pos (hadvanced.suffix.subset hpos)
    · exact hnew pos hpos

/-! ### Runs -/

/-- The stream is in the order of the commits: until its commit message, every position received
is below the end of a transaction. -/
def InOrder (w : ApplyWorker) : ApplyAction → Prop
  | .commit xact => w.received < xact.remoteEnd
  | _ => True

theorem Valid.step (h : w.Valid) {a : ApplyAction} (horder : w.InOrder a) :
    (w.step a).Valid := by
  cases a with
  | message position => exact h.receive position
  | commit xact => exact h.commit xact horder
  | walFlush position => exact h.walFlush position
  | feedback args => exact (h.receive args.recvpos).sendFeedback args (le_max_right _ _)

/-- A worker that has just started. -/
structure Initial (w : ApplyWorker) : Prop where
  lsnMapping : w.lsnMapping = []
  lastRecvpos : w.lastRecvpos = invalidXLogRecPtr
  lastFlushpos : w.lastFlushpos = invalidXLogRecPtr
  applied : w.applied = []
  sent : w.sent = []

theorem Initial.valid (h : w.Initial) : w.Valid where
  ends := h.lsnMapping ▸ List.Pairwise.nil
  received := by simp [h.lsnMapping]
  recvpos := h.lastRecvpos ▸ Nat.zero_le _
  flushpos := h.lastFlushpos ▸ Nat.zero_le _
  outstanding := by simp [h.lsnMapping]
  tracked := by simp [h.applied]
  sent := by simp [h.sent]
  sorted := h.sent ▸ List.Pairwise.nil

/-- The reported flush position never decreases, and a remote transaction that ends at or below it
and wrote data has its local commit record flushed. -/
theorem sent_flush_sound {w : ApplyWorker} (h : w.Initial) {actions : List ApplyAction}
    (horder : EveryStep ApplyWorker.step InOrder w actions) :
    (run ApplyWorker.step w actions).sent.Pairwise
        (fun later earlier => earlier.flush ≤ later.flush) ∧
      ∀ update ∈ (run ApplyWorker.step w actions).sent,
        ∀ xact ∈ (run ApplyWorker.step w actions).applied, ∀ commitEnd,
          xact.effect = .wrote commitEnd → xact.remoteEnd ≤ update.flush →
            commitEnd ≤ (run ApplyWorker.step w actions).localFlush := by
  have hvalid : (run ApplyWorker.step w actions).Valid :=
    run_invariant (fun _ _ hw ha => hw.step ha) h.valid horder
  refine ⟨hvalid.sorted, fun update hupdate xact hxact commitEnd hwrote hle => ?_⟩
  rcases hvalid.tracked xact hxact commitEnd hwrote with hflushed | hpending
  · exact hflushed
  · -- an entry of the list ends after everything that was reported
    have hlast := hvalid.sent update hupdate
    have hafter := hvalid.outstanding _ hpending
    exact absurd hle (Nat.not_le_of_lt (hlast.trans_lt hafter))

/-- A worker that has just started. -/
def startedWorker : ApplyWorker := ⟨[], 0, 0, 0, 0, 0, 0, [], []⟩

/-- Two transactions are applied, and the worker reports after each flush of the local log. -/
def twoReports : List ApplyAction :=
  [.message 90, .commit ⟨100, .wrote 10⟩, .commit ⟨200, .wrote 20⟩, .walFlush 15,
    .feedback ⟨200, true, false, false⟩, .walFlush 25, .feedback ⟨200, true, false, false⟩]

theorem sent_flush_sound_startedWorker :
    (run ApplyWorker.step startedWorker twoReports).sent.map (·.flush) = [200, 100] ∧
      (run ApplyWorker.step startedWorker twoReports).sent.Pairwise
        (fun later earlier => earlier.flush ≤ later.flush) ∧
      ∀ update ∈ (run ApplyWorker.step startedWorker twoReports).sent,
        200 ≤ update.flush → 20 ≤ (run ApplyWorker.step startedWorker twoReports).localFlush := by
  have horder : EveryStep ApplyWorker.step InOrder startedWorker twoReports := by
    refine ⟨trivial, ?_, ?_, trivial, trivial, trivial, trivial, trivial⟩
    · exact (by decide : 90 < 100)
    · exact (by decide : 100 < 200)
  obtain ⟨hsorted, hflushed⟩ := sent_flush_sound ⟨rfl, rfl, rfl, rfl, rfl⟩ horder
  exact ⟨by decide, hsorted, fun update hupdate hle =>
    hflushed update hupdate ⟨200, .wrote 20⟩ (by decide) 20 rfl hle⟩

end ApplyWorker

end PgCutover.Replication
