import PgCutover.Lib.Processes

/-!
# Lightweight locks

The model of one lightweight lock and of the processes that use it. Each step of a process is one
atomic access to shared memory: to the lock's state word, to the wait list under its spinlock, to
a process's `lwWaiting` or to a semaphore. A compare-and-exchange loop is the one exchange that
succeeds, and a process that spins or waits for a semaphore does nothing.
-/

namespace PgCutover.Storage

open Function

/-- The two modes in which a lock is held. -/
inductive LockMode where
  | exclusive
  | shared
  deriving DecidableEq

/-- `lwWaitMode`: the mode a process waits for, or `LW_WAIT_UNTIL_FREE`. -/
inductive WaitMode where
  | lock (mode : LockMode)
  | untilFree
  deriving DecidableEq

/-- `LWLockWaitState`. -/
inductive LWWaitState where
  | notWaiting
  | waiting
  | pendingWakeup
  deriving DecidableEq

/-- `LW_VAL_EXCLUSIVE` and `LW_VAL_SHARED`. -/
def lwVal : LockMode → ℕ
  | .exclusive => 2 ^ 24
  | .shared => 1

/-- The calls that can sleep. -/
inductive Waiter where
  | acquire (mode : LockMode)
  | acquireOrWait (mode : LockMode)
  | waitForVar (oldval : ℕ)

/-- The mode in which the call queues itself. -/
def Waiter.waitMode : Waiter → WaitMode
  | .acquire mode => .lock mode
  | .acquireOrWait _ | .waitForVar _ => .untilFree

/-- What a process does next. -/
inductive Pc (n : ℕ) where
  | idle
  /-- The first test of the lock, or the second one, after queueing. -/
  | test (w : Waiter) (queued : Bool)
  /-- `LWLockConflictsWithVar`, after it has found the lock held. -/
  | testVar (w : Waiter) (oldval : ℕ) (queued : Bool)
  | conditional (mode : LockMode)
  -- `LWLockQueueSelf`
  | queueLock (w : Waiter)
  | queue (w : Waiter)
  | queueUnlock (w : Waiter)
  /-- `LWLockWaitForVar` sets `LW_FLAG_RELEASE_OK` after queueing. -/
  | queuedReleaseOk (w : Waiter)
  -- the wait for a wakeup
  | sleep (w : Waiter)
  | awake (w : Waiter)
  | retryReleaseOk (w : Waiter)
  -- `LWLockDequeueSelf`
  | dequeueLock (w : Waiter)
  | dequeue (w : Waiter)
  | dequeueUnlock (w : Waiter) (onWaitlist : Bool)
  | dequeueClear
  | dequeueReleaseOk (w : Waiter)
  | dequeueSleep (extraWaits : ℕ)
  | dequeueAwake (extraWaits : ℕ)
  | dequeueFix (extraWaits : ℕ)
  /-- The end of a waiting call, which gives back the absorbed wakeups. -/
  | finish
  -- `LWLockUpdateVar`
  | setVar (val : ℕ)
  | updateLock
  | updateCollect
  | updateUnlock (wakeup : List (Fin n))
  -- `LWLockRelease` and `LWLockWakeup`
  | release
  | wakeupLock
  | wakeupCollect
  | wakeupUnlock (newReleaseOk : Bool) (wakeup : List (Fin n))
  /-- Awaken the processes removed from the queue. -/
  | wake (wakeup : List (Fin n))
  | wakeSem (q : Fin n) (wakeup : List (Fin n))
  /-- `LWLockQueueSelf` found the process already waiting. -/
  | panic

/-- What a process has in shared memory, and where it is. -/
structure PGProc (n : ℕ) where
  pc : Pc n
  lwWaiting : LWWaitState
  lwWaitMode : WaitMode
  sem : ℕ
  extraWaits : ℕ
  /-- The process's entry for the lock in `held_lwlocks`. -/
  held : Option LockMode

/-- The lock, its variable and the processes. `lockVal` is the part of the state word under
`LW_LOCK_MASK`; the three flags are bits of the same word. -/
structure Sys (n : ℕ) where
  lockVal : ℕ
  locked : Bool
  hasWaiters : Bool
  releaseOk : Bool
  waiters : List (Fin n)
  var : ℕ
  procs : Fin n → PGProc n

/-- The loop of `LWLockWakeup`: the processes to wake up, the ones that stay in the queue, and
`new_release_ok`. -/
def collectWakeup {n : ℕ} (mode : Fin n → WaitMode) :
    Bool → List (Fin n) → List (Fin n) × List (Fin n) × Bool
  | _, [] => ([], [], true)
  | wokeupSomebody, q :: rest =>
    if wokeupSomebody = true ∧ mode q = .lock .exclusive then
      let (wakeup, stay, ok) := collectWakeup mode wokeupSomebody rest
      (wakeup, q :: stay, ok)
    else
      match mode q with
      | .untilFree =>
        let (wakeup, stay, ok) := collectWakeup mode wokeupSomebody rest
        (q :: wakeup, stay, ok)
      | .lock .exclusive => ([q], rest, false)
      | .lock .shared =>
        let (wakeup, stay, _) := collectWakeup mode true rest
        (q :: wakeup, stay, false)

section CollectWakeup

variable {n : ℕ} (mode : Fin n → WaitMode) (somebody : Bool) (l : List (Fin n))

theorem collectWakeup_perm :
    ((collectWakeup mode somebody l).1 ++ (collectWakeup mode somebody l).2.1).Perm l := by
  fun_induction collectWakeup mode somebody l with
  | case1 | case4 => exact .refl _
  | case2 _ q _ _ _ _ _ heq ih =>
    rw [heq] at ih
    exact List.perm_middle.trans (ih.cons q)
  | case3 _ q _ _ _ _ _ _ heq ih | case5 _ q _ _ _ _ _ _ heq ih =>
    rw [heq] at ih
    exact ih.cons q

/-- A process that waits for the lock itself is woken whenever `new_release_ok` is cleared. -/
theorem exists_lock_of_collectWakeup (hok : (collectWakeup mode somebody l).2.2 = false) :
    ∃ q ∈ (collectWakeup mode somebody l).1, ∃ m, mode q = .lock m := by
  fun_induction collectWakeup mode somebody l with
  | case1 => nomatch hok
  | case2 _ _ _ _ _ _ _ heq ih =>
    rw [heq] at ih
    exact ih hok
  | case3 _ q _ _ _ _ _ _ heq ih =>
    rw [heq] at ih
    obtain ⟨r, hr, hlock⟩ := ih hok
    exact ⟨r, List.mem_cons_of_mem q hr, hlock⟩
  | case4 somebody q rest hskip hmode | case5 somebody q rest hskip hmode =>
    exact ⟨q, List.mem_cons_self, _, hmode⟩

/-- If somebody stays in the queue, `new_release_ok` is cleared. -/
theorem collectWakeup_ok_of_stay (hstay : (collectWakeup mode somebody l).2.1 ≠ []) :
    somebody = true ∨ (collectWakeup mode somebody l).2.2 = false := by
  fun_induction collectWakeup mode somebody l with
  | case1 => exact absurd rfl hstay
  | case2 _ _ _ hskip => exact .inl hskip.1
  | case3 _ _ _ _ _ _ _ _ heq ih =>
    rw [heq] at ih
    exact ih hstay
  | case4 | case5 => exact .inr rfl

/-- The first process in the queue is always woken. -/
theorem eq_nil_of_collectWakeup (hwakeup : (collectWakeup mode false l).1 = []) : l = [] := by
  cases l with
  | nil => rfl
  | cons =>
    rw [collectWakeup, if_neg fun hskip => Bool.false_ne_true hskip.1] at hwakeup
    split at hwakeup <;> nomatch hwakeup

end CollectWakeup

namespace Sys

variable {n : ℕ} (s : Sys n) (p : Fin n)

/-- The state after a change of one process. -/
def set (f : PGProc n → PGProc n) : Sys n :=
  { s with procs := update s.procs p (f (s.procs p)) }

/-- The process goes to the given place. -/
def goto (pc : Pc n) : Sys n := s.set p fun pr => { pr with pc := pc }

/-- The lock can be had in the mode. -/
def Free (lockVal : ℕ) : LockMode → Prop
  | .exclusive => lockVal % 2 ^ 25 = 0
  | .shared => lockVal / 2 ^ 24 % 2 = 0

instance (lockVal : ℕ) : (mode : LockMode) → Decidable (Free lockVal mode)
  | .exclusive => inferInstanceAs (Decidable (_ = _))
  | .shared => inferInstanceAs (Decidable (_ = _))

/-- `LWLockAttemptLock`: the process goes on at one of two places. -/
def attemptLock (mode : LockMode) (acquired mustwait : Pc n) : Sys n :=
  if Free s.lockVal mode then
    { s with lockVal := s.lockVal + lwVal mode }.set p fun pr =>
      { pr with held := some mode, pc := acquired }
  else s.goto p mustwait

/-- `LWLockWaitListLock`: the process goes on only if the list is not locked. -/
def waitListLock (pc : Pc n) : Sys n :=
  if s.locked then s else { s with locked := true }.goto p pc

/-- `LWLockWaitListUnlock`. -/
def waitListUnlock (pc : Pc n) : Sys n := { s with locked := false }.goto p pc

/-- `PGSemaphoreLock`. -/
def semaphoreLock (pc : Pc n) : Sys n :=
  if 0 < (s.procs p).sem then s.set p fun pr => { pr with sem := pr.sem - 1, pc := pc } else s

/-- The processes of the list are no longer in the queue. -/
def markPending (wakeup : List (Fin n)) : Sys n :=
  { s with
    procs := fun q =>
      if q ∈ wakeup then { s.procs q with lwWaiting := .pendingWakeup } else s.procs q }

/-- Where a test of the lock goes on. -/
def tested (w : Waiter) (queued mustwait : Bool) : Pc n :=
  match queued, mustwait with
  | false, false => .finish
  | false, true => .queueLock w
  | true, false => .dequeueLock w
  | true, true => .sleep w

/-- The next step of a process. -/
def step : Sys n :=
  let pr := s.procs p
  match pr.pc with
  | .idle | .panic => s
  | .test w queued =>
    match w with
    | .acquire mode | .acquireOrWait mode =>
      s.attemptLock p mode (tested w queued false) (tested w queued true)
    | .waitForVar oldval =>
      if s.lockVal / 2 ^ 24 % 2 = 0 then s.goto p (tested w queued false)
      else s.goto p (.testVar w oldval queued)
  | .testVar w oldval queued => s.goto p (tested w queued (s.var = oldval))
  | .conditional mode => s.attemptLock p mode .idle .idle
  | .queueLock w =>
    if pr.lwWaiting ≠ .notWaiting then s.goto p .panic else s.waitListLock p (.queue w)
  | .queue w =>
    let waiters := if w.waitMode = .untilFree then p :: s.waiters else s.waiters ++ [p]
    { s with hasWaiters := true, waiters := waiters }.set p fun pr =>
      { pr with lwWaiting := .waiting, lwWaitMode := w.waitMode, pc := .queueUnlock w }
  | .queueUnlock w =>
    s.waitListUnlock p (match w with
      | .waitForVar _ => .queuedReleaseOk w
      | _ => .test w true)
  | .queuedReleaseOk w => { s with releaseOk := true }.goto p (.test w true)
  | .sleep w => s.semaphoreLock p (.awake w)
  | .awake w =>
    if pr.lwWaiting = .notWaiting then
      s.goto p (match w with
        | .acquire _ => .retryReleaseOk w
        | .acquireOrWait _ => .finish
        | .waitForVar _ => .test w false)
    else s.set p fun pr => { pr with extraWaits := pr.extraWaits + 1, pc := .sleep w }
  | .retryReleaseOk w => { s with releaseOk := true }.goto p (.test w false)
  | .dequeueLock w => s.waitListLock p (.dequeue w)
  | .dequeue w =>
    let onWaitlist : Bool := pr.lwWaiting = .waiting
    let waiters := if onWaitlist then s.waiters.erase p else s.waiters
    { s with waiters := waiters, hasWaiters := s.hasWaiters && !waiters.isEmpty }.goto p
      (.dequeueUnlock w onWaitlist)
  | .dequeueUnlock w onWaitlist =>
    s.waitListUnlock p (if onWaitlist then .dequeueClear else .dequeueReleaseOk w)
  | .dequeueClear => s.set p fun pr => { pr with lwWaiting := .notWaiting, pc := .finish }
  | .dequeueReleaseOk _ => { s with releaseOk := true }.goto p (.dequeueSleep 0)
  | .dequeueSleep extraWaits => s.semaphoreLock p (.dequeueAwake extraWaits)
  | .dequeueAwake extraWaits =>
    if pr.lwWaiting = .notWaiting then s.goto p (.dequeueFix extraWaits)
    else s.goto p (.dequeueSleep (extraWaits + 1))
  | .dequeueFix 0 => s.goto p .finish
  | .dequeueFix (extraWaits + 1) =>
    s.set p fun pr => { pr with sem := pr.sem + 1, pc := .dequeueFix extraWaits }
  | .finish =>
    if 0 < pr.extraWaits then
      s.set p fun pr => { pr with sem := pr.sem + 1, extraWaits := pr.extraWaits - 1 }
    else s.goto p .idle
  | .setVar val => { s with var := val }.goto p .updateLock
  | .updateLock => s.waitListLock p .updateCollect
  | .updateCollect =>
    -- the waiters for a free lock are at the front of the queue
    let wakeup := s.waiters.takeWhile fun q => (s.procs q).lwWaitMode = .untilFree
    let stay := s.waiters.dropWhile fun q => (s.procs q).lwWaitMode = .untilFree
    ({ s with waiters := stay }.markPending wakeup).goto p (.updateUnlock wakeup)
  | .updateUnlock wakeup => s.waitListUnlock p (.wake wakeup)
  | .release =>
    match pr.held with
    | none => s.goto p .idle
    | some mode =>
      let lockVal := s.lockVal - lwVal mode
      let checkWaiters : Bool := s.hasWaiters && s.releaseOk && lockVal % 2 ^ 25 = 0
      { s with lockVal := lockVal }.set p fun pr =>
        { pr with held := none, pc := if checkWaiters then .wakeupLock else .idle }
  | .wakeupLock => s.waitListLock p .wakeupCollect
  | .wakeupCollect =>
    let (wakeup, stay, newReleaseOk) :=
      collectWakeup (fun q => (s.procs q).lwWaitMode) false s.waiters
    ({ s with waiters := stay }.markPending wakeup).goto p (.wakeupUnlock newReleaseOk wakeup)
  | .wakeupUnlock newReleaseOk wakeup =>
    { s with
      releaseOk := newReleaseOk, hasWaiters := s.hasWaiters && !wakeup.isEmpty,
      locked := false }.goto p (.wake wakeup)
  | .wake [] => s.goto p .idle
  | .wake (q :: wakeup) =>
    (s.set q fun pr => { pr with lwWaiting := .notWaiting }).goto p (.wakeSem q wakeup)
  | .wakeSem q wakeup => (s.set q fun pr => { pr with sem := pr.sem + 1 }).goto p (.wake wakeup)

end Sys

/-- The functions that a process can call. -/
inductive Call where
  | acquire (mode : LockMode)
  | conditionalAcquire (mode : LockMode)
  | acquireOrWait (mode : LockMode)
  | waitForVar (oldval : ℕ)
  | updateVar (val : ℕ)
  | release

namespace Sys

variable {n : ℕ} (s : Sys n) (p : Fin n)

/-- An idle process calls a function. It does not acquire or wait for a lock it holds, and it
updates the variable or releases the lock only while it holds the lock. -/
def call (c : Call) : Sys n :=
  match (s.procs p).pc, c, (s.procs p).held with
  | .idle, .acquire mode, none => s.goto p (.test (.acquire mode) false)
  | .idle, .conditionalAcquire mode, none => s.goto p (.conditional mode)
  | .idle, .acquireOrWait mode, none => s.goto p (.test (.acquireOrWait mode) false)
  | .idle, .waitForVar oldval, none => s.goto p (.test (.waitForVar oldval) false)
  | .idle, .updateVar val, some .exclusive => s.goto p (.setVar val)
  | .idle, .release, some _ => s.goto p .release
  | _, _, _ => s

/-- A call, a step, or a signal of the semaphore for another reason. -/
inductive Action (n : ℕ) where
  | call (p : Fin n) (c : Call)
  | step (p : Fin n)
  /-- The semaphore of a process is unlocked for another reason. -/
  | unlockSemaphore (p : Fin n)

/-- One action. -/
def act : Action n → Sys n
  | .call p c => s.call p c
  | .step p => s.step p
  | .unlockSemaphore p => s.set p fun pr => { pr with sem := pr.sem + 1 }

/-- `LWLockInitialize`. -/
def initial (n : ℕ) : Sys n where
  lockVal := 0
  locked := false
  hasWaiters := false
  releaseOk := true
  waiters := []
  var := 0
  procs _ :=
    { pc := .idle, lwWaiting := .notWaiting, lwWaitMode := .untilFree, sem := 0, extraWaits := 0,
      held := none }

/-- The process is blocked on its semaphore. -/
def Asleep : Prop :=
  (s.procs p).sem = 0 ∧
    match (s.procs p).pc with
    | .sleep _ | .dequeueSleep _ => True
    | _ => False

/-- No process executes an operation on the lock. -/
def Quiescent : Prop := ∀ p, (s.procs p).pc = .idle ∨ s.Asleep p

end Sys

/-!
## The wait queue of a lightweight lock

Who may be in the queue, who is about to be woken and by whom, and why a woken process finds a token
at its semaphore.
-/

open List

variable {n : ℕ} {s s' : Sys n} {p q : Fin n}

/-- Where a process stands with respect to the queue. -/
inductive Phase where
  /-- Not waiting. -/
  | out
  /-- It has queued itself and may have been woken since. -/
  | queued
  /-- It has removed itself from the queue. -/
  | dropped
  /-- It has found that another process removed it. -/
  | woken
  deriving DecidableEq

namespace Pc

/-- Between `LWLockWaitListLock` and the unlock. -/
def inside : Pc n → Bool
  | .queue _ | .queueUnlock _ | .dequeue _ | .dequeueUnlock .. | .updateCollect | .updateUnlock _
  | .wakeupCollect | .wakeupUnlock .. => true
  | _ => false

/-- What the place of a process says about its stay in the queue. -/
def phase : Pc n → Phase
  | .queueUnlock _ | .queuedReleaseOk _ | .test _ true | .testVar _ _ true | .sleep _ | .awake _
  | .dequeueLock _ | .dequeue _ => .queued
  | .dequeueUnlock _ true | .dequeueClear => .dropped
  | .dequeueUnlock _ false | .dequeueReleaseOk _ | .dequeueSleep _ | .dequeueAwake _ => .woken
  | _ => .out

/-- The call of a process in the queue. -/
def waiter : Pc n → Option Waiter
  | .queueUnlock w | .queuedReleaseOk w | .test w true | .testVar w _ true | .sleep w | .awake w
  | .dequeueLock w | .dequeue w => some w
  | _ => none

/-- The processes it has taken off the queue and has still to wake. -/
def wakes : Pc n → List (Fin n)
  | .updateUnlock wakeup | .wakeupUnlock _ wakeup | .wake wakeup | .wakeSem _ wakeup => wakeup
  | _ => []

/-- The process whose semaphore it unlocks next. -/
def unlocks : Pc n → Option (Fin n)
  | .wakeSem q _ => some q
  | _ => none

/-- It still counts on the token of its wakeup. -/
def owed : Pc n → Bool
  | .queueUnlock _ | .queuedReleaseOk _ | .test _ true | .testVar _ _ true | .sleep _
  | .dequeueLock _ | .dequeue _ | .dequeueUnlock _ false | .dequeueReleaseOk _
  | .dequeueSleep _ => true
  | _ => false

end Pc

/-- The wait states that a phase allows. -/
def PhaseOk : Phase → LWWaitState → Prop
  | .out, lw => lw = .notWaiting
  | .queued, _ => True
  | .dropped, lw => lw = .waiting
  | .woken, lw => lw ≠ .waiting

/-- The process waits in the queue, with the mode that it has asked for. -/
structure Queued (pr : PGProc n) : Prop where
  phase : pr.pc.phase = .queued
  lwWaiting : pr.lwWaiting = .waiting
  mode : ∀ w ∈ pr.pc.waiter, pr.lwWaitMode = w.waitMode

/-- A process that has been woken, or will be before it can go to sleep for good. -/
def Token (s : Sys n) (q : Fin n) : Prop :=
  0 < (s.procs q).sem ∨ ∃ z, (s.procs z).pc.unlocks = some q

/-- What holds of the queue in every run. -/
structure QueueInv (s : Sys n) : Prop where
  locked : ∀ q, (s.procs q).pc.inside = true → s.locked = true
  unique : ∀ q r, (s.procs q).pc.inside = true → (s.procs r).pc.inside = true → q = r
  phase : ∀ q, PhaseOk (s.procs q).pc.phase (s.procs q).lwWaiting
  waiters : ∀ q ∈ s.waiters, Queued (s.procs q)
  nodup : s.waiters.Nodup
  pending : ∀ z, ∀ q ∈ (s.procs z).pc.wakes, (s.procs q).lwWaiting = .pendingWakeup
  waker : ∀ q, (s.procs q).lwWaiting = .pendingWakeup → ∃ z, q ∈ (s.procs z).pc.wakes
  wakes_unique : ∀ z z' q, q ∈ (s.procs z).pc.wakes → q ∈ (s.procs z').pc.wakes → z = z'
  wakes_nodup : ∀ z, (s.procs z).pc.wakes.Nodup
  token : ∀ q, (s.procs q).pc.owed = true → (s.procs q).lwWaiting = .notWaiting → Token s q

/-- A step that changes one process, and the queue at most by its own place in it. -/
structure QueueMove (s s' : Sys n) (p : Fin n) : Prop where
  others : ∀ q ≠ p, s'.procs q = s.procs q
  waiters : ∀ q ∈ s'.waiters, q ≠ p → q ∈ s.waiters
  queued : p ∈ s'.waiters → Queued (s'.procs p)
  nodup : s'.waiters.Nodup
  locked : s'.locked = s.locked ∧
      ((s'.procs p).pc.inside = true → (s.procs p).pc.inside = true) ∨
    s.locked = false ∧ s'.locked = true ∨
    (s.procs p).pc.inside = true ∧ (s'.procs p).pc.inside = false
  pending : (s'.procs p).lwWaiting = .pendingWakeup ↔ (s.procs p).lwWaiting = .pendingWakeup
  phase : PhaseOk (s'.procs p).pc.phase (s'.procs p).lwWaiting
  wakes : (s'.procs p).pc.wakes = (s.procs p).pc.wakes
  unlocks : ∀ r, (s.procs p).pc.unlocks = some r → 0 < (s'.procs r).sem
  owed : (s'.procs p).pc.owed = true → (s'.procs p).lwWaiting = .notWaiting →
    ((s.procs p).pc.owed = true ∧ (s.procs p).lwWaiting = .notWaiting) ∧
      (s.procs p).sem ≤ (s'.procs p).sem

namespace QueueMove

theorem wakes_eq (h : QueueMove s s' p) (z : Fin n) :
    (s'.procs z).pc.wakes = (s.procs z).pc.wakes := by
  by_cases hz : z = p
  · subst hz
    exact h.wakes
  · rw [h.others z hz]

theorem pending_iff (h : QueueMove s s' p) (q : Fin n) :
    (s'.procs q).lwWaiting = .pendingWakeup ↔ (s.procs q).lwWaiting = .pendingWakeup := by
  by_cases hq : q = p
  · subst hq
    exact h.pending
  · rw [h.others q hq]

theorem token (h : QueueMove s s' p) (hq : Token s q)
    (hsem : q = p → (s.procs p).sem ≤ (s'.procs p).sem) : Token s' q := by
  rcases hq with hsem' | ⟨z, hz⟩
  · refine .inl ?_
    by_cases hqp : q = p
    · subst hqp
      exact Nat.lt_of_lt_of_le hsem' (hsem rfl)
    · rw [h.others q hqp]
      exact hsem'
  · by_cases hzp : z = p
    · exact .inl (h.unlocks q (hzp ▸ hz))
    · exact .inr ⟨z, by rw [h.others z hzp]; exact hz⟩

/-- At most one process holds the spinlock. -/
theorem eq_of_inside (h : QueueMove s s' p) (hs : QueueInv s)
    (hq : (s'.procs q).pc.inside = true) (hp : (s'.procs p).pc.inside = true) : q = p := by
  by_contra hqp
  rw [h.others q hqp] at hq
  rcases h.locked with ⟨_, hinside⟩ | ⟨hfree, _⟩ | ⟨_, hout⟩
  · exact hqp (hs.unique q p hq (hinside hp))
  · exact Bool.false_ne_true (hfree.symm.trans (hs.locked q hq))
  · exact Bool.false_ne_true (hout.symm.trans hp)

theorem queueInv (h : QueueMove s s' p) (hs : QueueInv s) : QueueInv s' where
  locked q hq := by
    by_cases hqp : q = p
    · subst hqp
      rcases h.locked with ⟨heq, hinside⟩ | ⟨_, heq⟩ | ⟨_, hout⟩
      · exact heq.trans (hs.locked q (hinside hq))
      · exact heq
      · exact absurd (hout.symm.trans hq) Bool.false_ne_true
    · rw [h.others q hqp] at hq
      rcases h.locked with ⟨heq, _⟩ | ⟨_, heq⟩ | ⟨hin, _⟩
      · exact heq.trans (hs.locked q hq)
      · exact heq
      · exact absurd (hs.unique q p hq hin) hqp
  unique q r hq hr := by
    by_cases hqp : q = p
    · subst hqp
      exact (h.eq_of_inside hs hr hq).symm
    by_cases hrp : r = p
    · subst hrp
      exact h.eq_of_inside hs hq hr
    rw [h.others q hqp] at hq
    rw [h.others r hrp] at hr
    exact hs.unique q r hq hr
  phase q := by
    by_cases hqp : q = p
    · subst hqp
      exact h.phase
    · rw [h.others q hqp]
      exact hs.phase q
  waiters q hq := by
    by_cases hqp : q = p
    · subst hqp
      exact h.queued hq
    · rw [h.others q hqp]
      exact hs.waiters q (h.waiters q hq hqp)
  nodup := h.nodup
  pending z q hq := (h.pending_iff q).mpr (hs.pending z q (h.wakes_eq z ▸ hq))
  waker q hq := by
    obtain ⟨z, hz⟩ := hs.waker q ((h.pending_iff q).mp hq)
    exact ⟨z, (h.wakes_eq z).symm ▸ hz⟩
  wakes_unique z z' q hz hz' :=
    hs.wakes_unique z z' q (h.wakes_eq z ▸ hz) (h.wakes_eq z' ▸ hz')
  wakes_nodup z := by
    rw [h.wakes_eq]
    exact hs.wakes_nodup z
  token q howed hlw := by
    by_cases hqp : q = p
    · subst hqp
      obtain ⟨⟨howed, hlw⟩, hsem⟩ := h.owed howed hlw
      exact h.token (hs.token q howed hlw) fun _ => hsem
    · rw [h.others q hqp] at howed hlw
      exact h.token (hs.token q howed hlw) fun heq => absurd heq hqp

end QueueMove

namespace Sys

theorem set_procs_self (f : PGProc n → PGProc n) : (s.set p f).procs p = f (s.procs p) :=
  update_self ..

theorem set_procs_of_ne (f : PGProc n → PGProc n) (hq : q ≠ p) :
    (s.set p f).procs q = s.procs q := update_of_ne hq ..

end Sys

/-- A change of place that the queue allows. -/
structure Pc.Goes (pc pc' : Pc n) (lw : LWWaitState) : Prop where
  phase : PhaseOk pc'.phase lw
  queued : pc.phase = .queued → lw = .waiting → pc'.phase = .queued
  waiter : ∀ w ∈ pc'.waiter, pc.phase = .queued → w ∈ pc.waiter
  wakes : pc'.wakes = pc.wakes
  unlocks : pc.unlocks = none
  owed : pc'.owed = true → lw = .notWaiting → pc.owed = true

namespace QueueInv

section

variable (hs : QueueInv s)
include hs

/-- A step that leaves the queue alone. -/
theorem move (hothers : ∀ q ≠ p, s'.procs q = s.procs q)
    (hwaiters : s'.waiters = s.waiters)
    (hlw : (s'.procs p).lwWaiting = (s.procs p).lwWaiting)
    (hmode : (s'.procs p).lwWaitMode = (s.procs p).lwWaitMode)
    (hgoes : (s.procs p).pc.Goes (s'.procs p).pc (s.procs p).lwWaiting)
    (hlocked : s'.locked = s.locked ∧
        ((s'.procs p).pc.inside = true → (s.procs p).pc.inside = true) ∨
      s.locked = false ∧ s'.locked = true ∨
      (s.procs p).pc.inside = true ∧ (s'.procs p).pc.inside = false)
    (hsem : (s'.procs p).pc.owed = true → (s.procs p).sem ≤ (s'.procs p).sem) :
    QueueInv s' := by
  refine QueueMove.queueInv (s := s) (p := p)
    { others := hothers
      waiters := fun q hq _ => hwaiters ▸ hq
      queued := fun hp => ?_
      nodup := hwaiters ▸ hs.nodup
      locked := hlocked
      pending := by rw [hlw]
      phase := by rw [hlw]; exact hgoes.phase
      wakes := hgoes.wakes
      unlocks := fun r hr => nomatch hgoes.unlocks.symm.trans hr
      owed := fun howed hnot => ?_ } hs
  · have hqueued := hs.waiters p (hwaiters ▸ hp)
    refine ⟨hgoes.queued hqueued.phase hqueued.lwWaiting, hlw.trans hqueued.lwWaiting, ?_⟩
    intro w hw
    rw [hmode]
    exact hqueued.mode w (hgoes.waiter w hw hqueued.phase)
  · rw [hlw] at hnot
    exact ⟨⟨hgoes.owed howed hnot, hnot⟩, hsem howed⟩

theorem set {f : PGProc n → PGProc n} {pc : Pc n}
    (hpc : (s.procs p).pc = pc)
    (hgoes : pc.Goes (f (s.procs p)).pc (s.procs p).lwWaiting)
    (hinside : (f (s.procs p)).pc.inside = true → pc.inside = true)
    (hlw : (f (s.procs p)).lwWaiting = (s.procs p).lwWaiting)
    (hmode : (f (s.procs p)).lwWaitMode = (s.procs p).lwWaitMode)
    (hsem : (f (s.procs p)).pc.owed = true → (s.procs p).sem ≤ (f (s.procs p)).sem) :
    QueueInv (s.set p f) := by
  subst hpc
  refine hs.move (fun q hq => Sys.set_procs_of_ne f hq) rfl ?_ ?_ ?_ ?_ ?_ <;>
    rw [Sys.set_procs_self]
  · exact hlw
  · exact hmode
  · exact hgoes
  · exact .inl ⟨rfl, hinside⟩
  · exact hsem

theorem goto {pc pc' : Pc n} (hpc : (s.procs p).pc = pc)
    (hgoes : pc.Goes pc' (s.procs p).lwWaiting)
    (hinside : pc'.inside = true → pc.inside = true) : QueueInv (s.goto p pc') :=
  hs.set hpc hgoes hinside rfl rfl fun _ => Nat.le_refl _

theorem waitListLock {pc pc' : Pc n} (hpc : (s.procs p).pc = pc)
    (hgoes : pc.Goes pc' (s.procs p).lwWaiting) : QueueInv (s.waitListLock p pc') := by
  subst hpc
  rw [Sys.waitListLock]
  split_ifs with hlocked
  · exact hs
  · refine hs.move (fun q hq => Sys.set_procs_of_ne _ hq) rfl ?_ ?_ ?_ ?_ ?_ <;>
      rw [Sys.goto, Sys.set_procs_self]
    · exact hgoes
    · exact .inr (.inl ⟨Bool.not_eq_true _ ▸ hlocked, rfl⟩)
    · exact fun _ => Nat.le_refl _

theorem waitListUnlock {pc pc' : Pc n} (hpc : (s.procs p).pc = pc)
    (hgoes : pc.Goes pc' (s.procs p).lwWaiting) (hinside : pc.inside = true)
    (hout : pc'.inside = false) : QueueInv (s.waitListUnlock p pc') := by
  subst hpc
  rw [Sys.waitListUnlock]
  refine hs.move (fun q hq => Sys.set_procs_of_ne _ hq) rfl ?_ ?_ ?_ ?_ ?_ <;>
    rw [Sys.goto, Sys.set_procs_self]
  · exact hgoes
  · exact .inr (.inr ⟨hinside, hout⟩)
  · exact fun _ => Nat.le_refl _

theorem semaphoreLock {pc pc' : Pc n} (hpc : (s.procs p).pc = pc)
    (hgoes : pc.Goes pc' (s.procs p).lwWaiting)
    (hinside : pc'.inside = true → pc.inside = true) (howed : pc'.owed = false) :
    QueueInv (s.semaphoreLock p pc') := by
  rw [Sys.semaphoreLock]
  split_ifs
  · refine hs.set hpc hgoes hinside rfl rfl fun h => ?_
    exact absurd (howed.symm.trans h) Bool.false_ne_true
  · exact hs

theorem attemptLock {pc acquired mustwait : Pc n} (mode : LockMode)
    (hpc : (s.procs p).pc = pc)
    (hacquired : pc.Goes acquired (s.procs p).lwWaiting)
    (hmustwait : pc.Goes mustwait (s.procs p).lwWaiting)
    (hinside : acquired.inside = true ∨ mustwait.inside = true → pc.inside = true) :
    QueueInv (s.attemptLock p mode acquired mustwait) := by
  rw [Sys.attemptLock]
  split_ifs
  · have hs' : QueueInv { s with lockVal := s.lockVal + lwVal mode } := { hs with }
    exact hs'.set hpc hacquired (fun h => hinside (.inl h)) rfl rfl fun _ => Nat.le_refl _
  · exact hs.goto hpc hmustwait fun h => hinside (.inr h)

end

end QueueInv

/-- A change of place within a phase. -/
theorem Pc.Goes.same {pc pc' : Pc n} {lw : LWWaitState} (hok : PhaseOk pc.phase lw)
    (howed : pc'.owed = true → lw = .notWaiting → pc.owed = true)
    (hphase : pc'.phase = pc.phase := by rfl) (hwaiter : pc'.waiter = pc.waiter := by rfl)
    (hwakes : pc'.wakes = pc.wakes := by rfl) (hunlocks : pc.unlocks = none := by rfl) :
    pc.Goes pc' lw where
  phase := by rw [hphase]; exact hok
  queued h _ := hphase.trans h
  waiter w hw _ := hwaiter ▸ hw
  wakes := hwakes
  unlocks := hunlocks
  owed := howed

/-- A woken process leaves. -/
theorem Pc.Goes.leave {pc pc' : Pc n} {lw : LWWaitState} (hlw : lw = .notWaiting)
    (hphase : pc'.phase = .out := by rfl) (hwaiter : pc'.waiter = none := by rfl)
    (hwakes : pc'.wakes = pc.wakes := by rfl) (hunlocks : pc.unlocks = none := by rfl)
    (howed : pc'.owed = false := by rfl) : pc.Goes pc' lw where
  phase := by rw [hphase]; exact hlw
  queued _ h := nomatch hlw.symm.trans h
  waiter w hw := by rw [hwaiter] at hw; nomatch hw
  wakes := hwakes
  unlocks := hunlocks
  owed h := absurd (howed.symm.trans h) Bool.false_ne_true

namespace QueueInv

theorem not_mem_waiters (hs : QueueInv s) (hphase : (s.procs p).pc.phase ≠ .queued) :
    p ∉ s.waiters := fun hp => hphase (hs.waiters p hp).phase

theorem queue (hs : QueueInv s) {w : Waiter} {waiters : List (Fin n)} {hasWaiters : Bool}
    (hpc : (s.procs p).pc = .queue w) (hwaiters : waiters.Perm (p :: s.waiters)) :
    QueueInv ({ s with hasWaiters := hasWaiters, waiters := waiters }.set p fun pr =>
      { pr with lwWaiting := .waiting, lwWaitMode := w.waitMode, pc := .queueUnlock w }) := by
  have hp : p ∉ s.waiters := hs.not_mem_waiters (by rw [hpc]; nofun)
  have hlw : (s.procs p).lwWaiting = .notWaiting := by
    have hphase := hs.phase p
    rw [hpc] at hphase
    exact hphase
  refine QueueMove.queueInv (s := s) (p := p)
    { others := fun q hq => Sys.set_procs_of_ne _ hq
      waiters := fun q hq hne => ?_
      queued := fun _ => ?_
      nodup := hwaiters.nodup_iff.mpr (nodup_cons.mpr ⟨hp, hs.nodup⟩)
      locked := ?_
      pending := ?_
      phase := ?_
      wakes := ?_
      unlocks := fun r hr => by rw [hpc] at hr; nomatch hr
      owed := ?_ } hs
  · exact (mem_cons.mp (hwaiters.mem_iff.mp hq)).resolve_left hne
  all_goals try rw [Sys.set_procs_self]
  · exact ⟨rfl, rfl, fun w' hw' => by rw [Option.mem_some.mp hw']⟩
  · exact .inl ⟨rfl, fun _ => by rw [hpc]; rfl⟩
  · rw [hlw]
    exact iff_of_false nofun nofun
  · trivial
  · rw [hpc]
    rfl
  · exact nofun

/-- A process that is still in the queue removes itself. -/
theorem dequeue (hs : QueueInv s) {w : Waiter} {hasWaiters : Bool}
    (hpc : (s.procs p).pc = .dequeue w) (hlw : (s.procs p).lwWaiting = .waiting) :
    QueueInv ({ s with waiters := s.waiters.erase p, hasWaiters := hasWaiters }.goto p
      (.dequeueUnlock w true)) := by
  refine QueueMove.queueInv (s := s) (p := p)
    { others := fun q hq => Sys.set_procs_of_ne _ hq
      waiters := fun q hq _ => mem_of_mem_erase hq
      queued := fun hp => absurd hp hs.nodup.not_mem_erase
      nodup := hs.nodup.erase p
      locked := ?_
      pending := ?_
      phase := ?_
      wakes := ?_
      unlocks := fun r hr => by rw [hpc] at hr; nomatch hr
      owed := ?_ } hs
  all_goals try rw [Sys.goto, Sys.set_procs_self]
  · exact .inl ⟨rfl, fun _ => by rw [hpc]; rfl⟩
  · exact hlw
  · rw [hpc]
    rfl
  · exact nofun

theorem dequeueClear (hs : QueueInv s) (hpc : (s.procs p).pc = .dequeueClear) :
    QueueInv (s.set p fun pr => { pr with lwWaiting := .notWaiting, pc := .finish }) := by
  have hlw : (s.procs p).lwWaiting = .waiting := by
    have hphase := hs.phase p
    rw [hpc] at hphase
    exact hphase
  have hp : p ∉ s.waiters := hs.not_mem_waiters (by rw [hpc]; nofun)
  refine QueueMove.queueInv (s := s) (p := p)
    { others := fun q hq => Sys.set_procs_of_ne _ hq
      waiters := fun q hq _ => hq
      queued := fun hmem => absurd hmem hp
      nodup := hs.nodup
      locked := ?_
      pending := ?_
      phase := ?_
      wakes := ?_
      unlocks := fun r hr => by rw [hpc] at hr; nomatch hr
      owed := ?_ } hs
  all_goals try rw [Sys.set_procs_self]
  · exact .inl ⟨rfl, nofun⟩
  · rw [hlw]
    exact iff_of_false nofun nofun
  · exact rfl
  · rw [hpc]
    rfl
  · exact nofun

theorem lwWaiting_of_out (hs : QueueInv s) (hphase : (s.procs p).pc.phase = .out) :
    (s.procs p).lwWaiting = .notWaiting := by
  have hok := hs.phase p
  rw [hphase] at hok
  exact hok

end QueueInv

/-- The process takes others off the queue. -/
structure Collects (s s' : Sys n) (p : Fin n) (wakeup : List (Fin n)) : Prop where
  perm : (wakeup ++ s'.waiters).Perm s.waiters
  locked : s'.locked = s.locked
  others : ∀ q ≠ p, s'.procs q =
    if q ∈ wakeup then { s.procs q with lwWaiting := .pendingWakeup } else s.procs q
  lwWaiting : (s'.procs p).lwWaiting = (s.procs p).lwWaiting
  phase : (s.procs p).pc.phase = .out
  phase' : (s'.procs p).pc.phase = .out
  inside : (s.procs p).pc.inside = true
  wakes : (s.procs p).pc.wakes = []
  wakes' : (s'.procs p).pc.wakes = wakeup
  unlocks : (s.procs p).pc.unlocks = none
  owed' : (s'.procs p).pc.owed = false

namespace Collects

variable {wakeup : List (Fin n)}

section

variable (h : Collects s s' p wakeup)
include h

theorem pc_of_ne (hq : q ≠ p) :
    (s'.procs q).pc = (s.procs q).pc := by
  rw [h.others q hq]
  split_ifs <;> rfl

theorem inside_of_inside (hq : (s'.procs q).pc.inside = true) :
    (s.procs q).pc.inside = true := by
  by_cases hqp : q = p
  · rw [hqp]
    exact h.inside
  · rwa [h.pc_of_ne hqp] at hq

theorem queued (hs : QueueInv s) (hq : q ∈ wakeup) :
    Queued (s.procs q) :=
  hs.waiters q (h.perm.mem_iff.mp (mem_append_left _ hq))

theorem ne_of_queued (hq : Queued (s.procs q)) : q ≠ p := by
  rintro rfl
  exact nomatch h.phase.symm.trans hq.phase

theorem nodup (hs : QueueInv s) : (wakeup ++ s'.waiters).Nodup :=
  h.perm.nodup_iff.mpr hs.nodup

theorem of_mem (hs : QueueInv s) (hq : q ∈ wakeup) :
    s'.procs q = { s.procs q with lwWaiting := .pendingWakeup } :=
  (h.others q (h.ne_of_queued (h.queued hs hq))).trans (if_pos hq)

theorem of_not_mem (hqp : q ≠ p) (hq : q ∉ wakeup) :
    s'.procs q = s.procs q :=
  (h.others q hqp).trans (if_neg hq)

/-- A process is pending if it was, or has been taken off the queue now. -/
theorem pending_iff (hs : QueueInv s) (q : Fin n) :
    (s'.procs q).lwWaiting = .pendingWakeup ↔
      q ∈ wakeup ∨ (s.procs q).lwWaiting = .pendingWakeup := by
  by_cases hq : q ∈ wakeup
  · rw [h.of_mem hs hq]
    exact iff_of_true rfl (.inl hq)
  rw [or_iff_right hq]
  by_cases hqp : q = p
  · rw [hqp, h.lwWaiting]
  · rw [h.of_not_mem hqp hq]

theorem wakes_of_ne {z : Fin n} (hz : q ∈ (s.procs z).pc.wakes) :
    z ≠ p := by
  rintro rfl
  rw [h.wakes] at hz
  nomatch hz

/-- A process taken off the queue was in nobody's list before. -/
theorem not_mem_wakes (hs : QueueInv s) (hq : q ∈ wakeup)
    (z : Fin n) : q ∉ (s.procs z).pc.wakes := fun hz =>
  nomatch (h.queued hs hq).lwWaiting.symm.trans (hs.pending z q hz)

theorem queueInv (hs : QueueInv s) : QueueInv s' := by
  obtain ⟨hwakeup, hstay, hdisjoint⟩ := nodup_append.mp (h.nodup hs)
  have hlw := hs.lwWaiting_of_out h.phase
  constructor
  case locked => exact fun q hq => h.locked.trans (hs.locked q (h.inside_of_inside hq))
  case unique =>
    exact fun q r hq hr => hs.unique q r (h.inside_of_inside hq) (h.inside_of_inside hr)
  case phase =>
    intro q
    by_cases hqp : q = p
    · rw [hqp, h.phase', h.lwWaiting]
      exact hlw
    rw [h.pc_of_ne hqp]
    by_cases hq : q ∈ wakeup
    · rw [(h.queued hs hq).phase]
      trivial
    · rw [h.of_not_mem hqp hq]
      exact hs.phase q
  case waiters =>
    intro q hq
    have hqueued := hs.waiters q (h.perm.mem_iff.mp (mem_append_right _ hq))
    rw [h.of_not_mem (h.ne_of_queued hqueued) fun hq' => hdisjoint q hq' q hq rfl]
    exact hqueued
  case nodup => exact hstay
  case pending =>
    intro z q hq
    refine (h.pending_iff hs q).mpr ?_
    by_cases hz : z = p
    · exact .inl (h.wakes' ▸ hz ▸ hq)
    · exact .inr (hs.pending z q (h.pc_of_ne hz ▸ hq))
  case waker =>
    intro q hq
    rcases (h.pending_iff hs q).mp hq with hq | hq
    · exact ⟨p, h.wakes'.symm ▸ hq⟩
    · obtain ⟨z, hz⟩ := hs.waker q hq
      exact ⟨z, (h.pc_of_ne (h.wakes_of_ne hz)).symm ▸ hz⟩
  case wakes_unique =>
    intro z z' q hz hz'
    by_cases hzp : z = p <;> by_cases hzp' : z' = p
    · exact hzp.trans hzp'.symm
    · rw [h.pc_of_ne hzp'] at hz'
      exact absurd hz' (h.not_mem_wakes hs (h.wakes' ▸ hzp ▸ hz) z')
    · rw [h.pc_of_ne hzp] at hz
      exact absurd hz (h.not_mem_wakes hs (h.wakes' ▸ hzp' ▸ hz') z)
    · rw [h.pc_of_ne hzp] at hz
      rw [h.pc_of_ne hzp'] at hz'
      exact hs.wakes_unique z z' q hz hz'
  case wakes_nodup =>
    intro z
    by_cases hzp : z = p
    · rw [hzp, h.wakes']
      exact hwakeup
    · rw [h.pc_of_ne hzp]
      exact hs.wakes_nodup z
  case token =>
    intro q howed hq
    have hqp : q ≠ p := by
      rintro rfl
      exact Bool.false_ne_true (h.owed'.symm.trans howed)
    have hmem : q ∉ wakeup := fun hmem => by
      rw [h.of_mem hs hmem] at hq
      nomatch hq
    rw [h.of_not_mem hqp hmem] at howed hq
    rcases hs.token q howed hq with hsem | ⟨z, hz⟩
    · refine .inl ?_
      rw [h.of_not_mem hqp hmem]
      exact hsem
    · have hzp : z ≠ p := by
        rintro rfl
        exact nomatch hz.symm.trans h.unlocks
      exact .inr ⟨z, by rw [h.pc_of_ne hzp]; exact hz⟩

end

end Collects

namespace Sys

theorem goto_procs_self (pc : Pc n) : (s.goto p pc).procs p = { s.procs p with pc := pc } :=
  set_procs_self _

theorem goto_procs_of_ne (pc : Pc n) (hq : q ≠ p) : (s.goto p pc).procs q = s.procs q :=
  set_procs_of_ne _ hq

theorem markPending_procs_of_not_mem {wakeup : List (Fin n)} (hq : q ∉ wakeup) :
    (s.markPending wakeup).procs q = s.procs q := if_neg hq

/-- Any way of splitting the queue. -/
theorem collects {pc pc' : Pc n} {wakeup stay : List (Fin n)} (hs : QueueInv s)
    (hpc : (s.procs p).pc = pc) (hperm : (wakeup ++ stay).Perm s.waiters)
    (hphase : pc.phase = .out) (hinside : pc.inside = true) (hwakes : pc.wakes = [])
    (hunlocks : pc.unlocks = none) (hphase' : pc'.phase = .out) (hwakes' : pc'.wakes = wakeup)
    (howed' : pc'.owed = false) :
    Collects s (({ s with waiters := stay }.markPending wakeup).goto p pc') p wakeup := by
  subst hpc
  have hp : p ∉ wakeup := fun hp => by
    have hqueued := hs.waiters p (hperm.mem_iff.mp (mem_append_left _ hp))
    exact nomatch hphase.symm.trans hqueued.phase
  have hself : (({ s with waiters := stay }.markPending wakeup).goto p pc').procs p =
      { s.procs p with pc := pc' } := by
    rw [goto_procs_self, markPending_procs_of_not_mem hp]
  exact
    { perm := hperm
      locked := rfl
      others := fun q hq => goto_procs_of_ne pc' hq
      lwWaiting := by rw [hself]
      phase := hphase
      phase' := by rw [hself]; exact hphase'
      inside := hinside
      wakes := hwakes
      wakes' := by rw [hself]; exact hwakes'
      unlocks := hunlocks
      owed' := by rw [hself]; exact howed' }

end Sys

/-- The process tells another one that it has been woken. -/
structure Wakes (s s' : Sys n) (p q : Fin n) : Prop where
  self : ∃ wakeup, (s.procs p).pc.wakes = q :: wakeup ∧
    s'.procs p = { s.procs p with pc := .wakeSem q wakeup }
  woken : s'.procs q = { s.procs q with lwWaiting := .notWaiting }
  others : ∀ r ≠ p, r ≠ q → s'.procs r = s.procs r
  phase : (s.procs p).pc.phase = .out
  unlocks : (s.procs p).pc.unlocks = none
  waiters : s'.waiters = s.waiters
  locked : s'.locked = s.locked

theorem Sys.wakes {wakeup : List (Fin n)} (hs : QueueInv s)
    (hpc : (s.procs p).pc = .wake (q :: wakeup)) :
    Wakes s ((s.set q fun pr => { pr with lwWaiting := .notWaiting }).goto p (.wakeSem q wakeup))
      p q := by
  have hlw : (s.procs q).lwWaiting = .pendingWakeup :=
    hs.pending p q (by rw [hpc]; exact mem_cons_self)
  have hout : (s.procs p).lwWaiting = .notWaiting := hs.lwWaiting_of_out (by rw [hpc]; rfl)
  have hqp : q ≠ p := by
    rintro rfl
    exact nomatch hlw.symm.trans hout
  exact
    { self := ⟨wakeup, by rw [hpc]; rfl, by
        rw [Sys.goto_procs_self, Sys.set_procs_of_ne _ hqp.symm]⟩
      woken := by rw [Sys.goto_procs_of_ne _ hqp, Sys.set_procs_self]
      others := fun r hrp hrq => by
        rw [Sys.goto_procs_of_ne _ hrp, Sys.set_procs_of_ne _ hrq]
      phase := by rw [hpc]; rfl
      unlocks := by rw [hpc]; rfl
      waiters := rfl
      locked := rfl }

namespace Wakes

section

variable (h : Wakes s s' p q)
include h

theorem lwWaiting (hs : QueueInv s) :
    (s.procs q).lwWaiting = .pendingWakeup := by
  obtain ⟨_, hwakes, _⟩ := h.self
  exact hs.pending p q (hwakes ▸ mem_cons_self)

theorem pc_of_ne {r : Fin n} (hr : r ≠ p) :
    (s'.procs r).pc = (s.procs r).pc := by
  by_cases hrq : r = q
  · rw [hrq, h.woken]
  · rw [h.others r hr hrq]

theorem lwWaiting_of_ne {r : Fin n} (hr : r ≠ q) :
    (s'.procs r).lwWaiting = (s.procs r).lwWaiting := by
  by_cases hrp : r = p
  · obtain ⟨_, _, hself⟩ := h.self
    rw [hrp, hself]
  · rw [h.others r hrp hr]

/-- Only the woken process leaves a list. -/
theorem mem_wakes (hs : QueueInv s) {z r : Fin n} :
    r ∈ (s'.procs z).pc.wakes ↔ r ≠ q ∧ r ∈ (s.procs z).pc.wakes := by
  obtain ⟨_, hwakes, hself⟩ := h.self
  have hnodup := hs.wakes_nodup p
  rw [hwakes, nodup_cons] at hnodup
  by_cases hz : z = p
  · rw [hz, hself, hwakes, mem_cons]
    constructor
    · intro hr
      refine ⟨?_, .inr hr⟩
      rintro rfl
      exact hnodup.1 hr
    · rintro ⟨hne, heq | hr⟩
      · exact absurd heq hne
      · exact hr
  · rw [h.pc_of_ne hz, iff_and_self]
    rintro hr rfl
    exact hz (hs.wakes_unique z p r hr (hwakes ▸ mem_cons_self))

theorem queueInv (hs : QueueInv s) : QueueInv s' := by
  have hlw := h.lwWaiting hs
  obtain ⟨_, hwakes, hself⟩ := h.self
  have hinside {r : Fin n} (hr : (s'.procs r).pc.inside = true) :
      r ≠ p ∧ (s.procs r).pc.inside = true := by
    have hrp : r ≠ p := by
      rintro rfl
      rw [hself] at hr
      nomatch hr
    exact ⟨hrp, h.pc_of_ne hrp ▸ hr⟩
  constructor
  case locked => exact fun r hr => h.locked.trans (hs.locked r (hinside hr).2)
  case unique => exact fun r t hr ht => hs.unique r t (hinside hr).2 (hinside ht).2
  case phase =>
    intro r
    by_cases hrp : r = p
    · rw [hrp, hself]
      exact hs.lwWaiting_of_out h.phase
    rw [h.pc_of_ne hrp]
    by_cases hrq : r = q
    · -- a pending process is still in the queue's phases
      have hok := hs.phase q
      rw [hrq, h.woken]
      rw [hlw] at hok
      cases hphase : (s.procs q).pc.phase with
      | out | dropped => rw [hphase] at hok; nomatch hok
      | queued => trivial
      | woken => exact nofun
    · rw [h.lwWaiting_of_ne hrq]
      exact hs.phase r
  case waiters =>
    intro r hr
    have hqueued := hs.waiters r (h.waiters ▸ hr)
    have hrq : r ≠ q := by
      rintro rfl
      exact nomatch hlw.symm.trans hqueued.lwWaiting
    have hrp : r ≠ p := by
      rintro rfl
      exact nomatch h.phase.symm.trans hqueued.phase
    rw [h.others r hrp hrq]
    exact hqueued
  case nodup => exact h.waiters ▸ hs.nodup
  case pending =>
    intro z r hr
    obtain ⟨hrq, hr⟩ := (h.mem_wakes hs).mp hr
    rw [h.lwWaiting_of_ne hrq]
    exact hs.pending z r hr
  case waker =>
    intro r hr
    have hrq : r ≠ q := by
      rintro rfl
      rw [h.woken] at hr
      nomatch hr
    rw [h.lwWaiting_of_ne hrq] at hr
    obtain ⟨z, hz⟩ := hs.waker r hr
    exact ⟨z, (h.mem_wakes hs).mpr ⟨hrq, hz⟩⟩
  case wakes_unique =>
    exact fun z z' r hz hz' =>
      hs.wakes_unique z z' r ((h.mem_wakes hs).mp hz).2 ((h.mem_wakes hs).mp hz').2
  case wakes_nodup =>
    intro z
    by_cases hz : z = p
    · have hnodup := hs.wakes_nodup p
      rw [hwakes, nodup_cons] at hnodup
      rw [hz, hself]
      exact hnodup.2
    · rw [h.pc_of_ne hz]
      exact hs.wakes_nodup z
  case token =>
    intro r howed hr
    by_cases hrq : r = q
    · exact .inr ⟨p, by rw [hself, hrq]; rfl⟩
    have hrp : r ≠ p := by
      rintro rfl
      rw [hself] at howed
      nomatch howed
    rw [h.others r hrp hrq] at howed hr
    rcases hs.token r howed hr with hsem | ⟨z, hz⟩
    · refine .inl ?_
      rw [h.others r hrp hrq]
      exact hsem
    · have hzp : z ≠ p := by
        rintro rfl
        exact nomatch hz.symm.trans h.unlocks
      exact .inr ⟨z, by rw [h.pc_of_ne hzp]; exact hz⟩

end

end Wakes

namespace QueueInv

theorem unlockSemaphore (hs : QueueInv s) (q : Fin n) :
    QueueInv (s.set q fun pr => { pr with sem := pr.sem + 1 }) := by
  let s' := s.set q fun pr => { pr with sem := pr.sem + 1 }
  have hproc (r : Fin n) : ∃ k, (s.procs r).sem ≤ k ∧ s'.procs r = { s.procs r with sem := k } := by
    by_cases hr : r = q
    · subst hr
      exact ⟨_, Nat.le_succ _, Sys.set_procs_self _⟩
    · exact ⟨_, Nat.le_refl _, Sys.set_procs_of_ne _ hr⟩
  have hpc (r : Fin n) : (s'.procs r).pc = (s.procs r).pc := by
    obtain ⟨k, _, hk⟩ := hproc r
    rw [hk]
  have hlw (r : Fin n) : (s'.procs r).lwWaiting = (s.procs r).lwWaiting := by
    obtain ⟨k, _, hk⟩ := hproc r
    rw [hk]
  show QueueInv s'
  constructor
  case locked => exact fun r hr => hs.locked r (hpc r ▸ hr)
  case unique => exact fun r t hr ht => hs.unique r t (hpc r ▸ hr) (hpc t ▸ ht)
  case phase => exact fun r => by rw [hpc, hlw]; exact hs.phase r
  case waiters =>
    intro r hr
    have hqueued := hs.waiters r hr
    obtain ⟨k, _, hk⟩ := hproc r
    rw [hk]
    exact ⟨hqueued.phase, hqueued.lwWaiting, hqueued.mode⟩
  case nodup => exact hs.nodup
  case pending => exact fun z r hr => by rw [hlw]; exact hs.pending z r (hpc z ▸ hr)
  case waker =>
    intro r hr
    obtain ⟨z, hz⟩ := hs.waker r (hlw r ▸ hr)
    exact ⟨z, (hpc z).symm ▸ hz⟩
  case wakes_unique => exact fun z z' r hz hz' => hs.wakes_unique z z' r (hpc z ▸ hz) (hpc z' ▸ hz')
  case wakes_nodup => exact fun z => by rw [hpc]; exact hs.wakes_nodup z
  case token =>
    intro r howed hr
    rcases hs.token r (hpc r ▸ howed) (hlw r ▸ hr) with hsem | ⟨z, hz⟩
    · obtain ⟨k, hle, hk⟩ := hproc r
      exact .inl (by rw [hk]; exact Nat.lt_of_lt_of_le hsem hle)
    · exact .inr ⟨z, (hpc z).symm ▸ hz⟩

/-- After the token has been handed over. -/
theorem wakeSem (hs : QueueInv s) {wakeup : List (Fin n)}
    (hpc : (s.procs p).pc = .wakeSem q wakeup) :
    QueueInv ((s.set q fun pr => { pr with sem := pr.sem + 1 }).goto p (.wake wakeup)) := by
  have hs' := hs.unlockSemaphore q
  let s' := s.set q fun pr => { pr with sem := pr.sem + 1 }
  have hpc' : (s'.procs p).pc = .wakeSem q wakeup := by
    by_cases hpq : p = q
    · subst hpq
      rw [Sys.set_procs_self]
      exact hpc
    · rw [Sys.set_procs_of_ne _ hpq]
      exact hpc
  have hsem : 0 < (s'.procs q).sem := by
    rw [Sys.set_procs_self]
    exact Nat.succ_pos _
  have hp : p ∉ s'.waiters := hs'.not_mem_waiters (by rw [hpc']; nofun)
  have hlw : (s'.procs p).lwWaiting = .notWaiting := hs'.lwWaiting_of_out (by rw [hpc']; rfl)
  refine QueueMove.queueInv (s := s') (p := p)
    { others := fun r hr => Sys.goto_procs_of_ne _ hr
      waiters := fun r hr _ => hr
      queued := fun hmem => absurd hmem hp
      nodup := hs'.nodup
      locked := ?_
      pending := ?_
      phase := ?_
      wakes := ?_
      unlocks := ?_
      owed := ?_ } hs'
  all_goals try rw [Sys.goto_procs_self]
  · exact .inl ⟨rfl, nofun⟩
  · exact hlw
  · rw [hpc']
    rfl
  · intro r hr
    rw [hpc'] at hr
    cases hr
    by_cases hqp : q = p
    · subst hqp
      rw [Sys.goto_procs_self]
      exact hsem
    · rw [Sys.goto_procs_of_ne _ hqp]
      exact hsem
  · nofun

end QueueInv

end PgCutover.Storage
