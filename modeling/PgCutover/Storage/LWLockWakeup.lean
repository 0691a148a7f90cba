import Mathlib.Tactic.FinCases
import PgCutover.Lib.Runs
import PgCutover.Storage.LWLockHold

/-!
# No wakeup of a lightweight lock is lost

While a process that has decided to sleep is in the queue, the lock is held or some process is on
its way to acquire the lock or to wake up waiters. The flag `LW_FLAG_RELEASE_OK` is off only
while a woken process has not yet come back to set it.
-/

namespace PgCutover.Storage

open Lib Function List

variable {n : ℕ} {s s' : Sys n} {p q : Fin n}

namespace Pc

/-- In `LWLockAcquire`, before the process sets `LW_FLAG_RELEASE_OK` if it has been woken. -/
def retries : Pc n → Bool
  | .test (.acquire _) true | .sleep (.acquire _) | .awake (.acquire _)
  | .retryReleaseOk (.acquire _) | .dequeueLock (.acquire _) | .dequeue (.acquire _)
  | .dequeueUnlock (.acquire _) false | .dequeueReleaseOk (.acquire _) => true
  | _ => false

/-- A process that will test the lock, or wake up waiters. -/
def duty : Pc n → Bool
  | .wakeupLock | .wakeupCollect | .test (.acquire _) _ => true
  | _ => false

/-- A process that will test the lock again once it is woken. -/
def retrying : Pc n → Bool
  | .sleep (.acquire _) | .awake (.acquire _) | .retryReleaseOk (.acquire _) => true
  | _ => false

/-- In `LWLockAcquire`, where another process can take it off the queue. -/
def queuedRetry : Pc n → Bool
  | .test (.acquire _) true | .sleep (.acquire _) | .awake (.acquire _)
  | .dequeueLock (.acquire _) => true
  | _ => false

/-- In the queue and past the second test of the lock. -/
def committed : Pc n → Bool
  | .testVar _ _ true | .sleep _ | .awake _ => true
  | _ => false

/-- It has taken waiters off the queue, and still holds the queue. -/
def collected : Pc n → Bool
  | .wakeupUnlock .. => true
  | _ => false

def plain (pc pc' : Pc n) : Bool :=
  !(pc'.collected || pc'.committed || pc.retries || pc.duty)

theorem retries_of_retrying {pc : Pc n} (h : pc.retrying = true) : pc.retries = true := by
  cases pc with
  | sleep w | awake w | retryReleaseOk w => cases w <;> first | rfl | nomatch h
  | _ => nomatch h

theorem retries_of_queuedRetry {pc : Pc n} (h : pc.queuedRetry = true) : pc.retries = true := by
  cases pc with
  | test w queued => cases w <;> cases queued <;> first | rfl | nomatch h
  | sleep w | awake w | dequeueLock w => cases w <;> first | rfl | nomatch h
  | _ => nomatch h

end Pc

/-- A woken process that has not set `LW_FLAG_RELEASE_OK` yet. -/
def Retry (pr : PGProc n) : Prop := pr.pc.retries = true ∧ pr.lwWaiting ≠ .waiting

/-- A process that waiters can count on while the lock is free. -/
def Responsible (pr : PGProc n) : Prop :=
  pr.pc.duty = true ∨ pr.pc.retrying = true ∧ pr.lwWaiting ≠ .waiting

/-- The flags of the state word agree with the queue. -/
structure FlagInv (s : Sys n) : Prop where
  hasWaiters : s.waiters ≠ [] → s.hasWaiters = true
  collected : ∀ z newReleaseOk wakeup, (s.procs z).pc = .wakeupUnlock newReleaseOk wakeup →
    (wakeup = [] → s.waiters = []) ∧
      (newReleaseOk = false → ∃ q ∈ wakeup, (s.procs q).pc.queuedRetry = true)
  releaseOk : s.releaseOk = false → ∃ q, Retry (s.procs q)
  noLost : ∀ q ∈ s.waiters, (s.procs q).pc.committed = true →
    s.lockVal ≠ 0 ∨ ∃ r, Responsible (s.procs r)

/-- A woken process before its `LW_FLAG_RELEASE_OK` will test the lock, or holds it. -/
theorem Retry.responsible {pr : PGProc n} (h : Retry pr) (hplace : HoldOk pr.pc pr.held) :
    Responsible pr ∨ pr.held ≠ none := by
  obtain ⟨hretries, hlw⟩ := h
  rw [Responsible]
  cases hpc : pr.pc with rw [hpc] at hretries
  | test w =>
    cases w with
    | acquire => exact .inl (.inl rfl)
    | _ => nomatch hretries
  | sleep w | awake w | retryReleaseOk w =>
    cases w with
    | acquire => exact .inl (.inr ⟨rfl, hlw⟩)
    | _ => nomatch hretries
  | dequeueLock w | dequeue w | dequeueUnlock w | dequeueReleaseOk w =>
    rw [hpc] at hplace
    cases w with
    | acquire => exact .inr (hplace trivial)
    | _ => nomatch hretries
  | _ => nomatch hretries

/-- What a step leaves of another process. -/
def Kept (s s' : Sys n) (q : Fin n) : Prop :=
  (s'.procs q).pc = (s.procs q).pc ∧
    ((s'.procs q).lwWaiting = .waiting → (s.procs q).lwWaiting = .waiting)

theorem Kept.retry (h : Kept s s' q) (hq : Retry (s.procs q)) : Retry (s'.procs q) :=
  ⟨h.1 ▸ hq.1, fun hlw => hq.2 (h.2 hlw)⟩

theorem Kept.responsible (h : Kept s s' q) (hq : Responsible (s.procs q)) :
    Responsible (s'.procs q) := by
  rcases hq with hduty | ⟨hretrying, hlw⟩
  · exact .inl (h.1 ▸ hduty)
  · exact .inr ⟨h.1 ▸ hretrying, fun hlw' => hlw (h.2 hlw')⟩

/-- A step of one process that the waiters can bear, with the flag and the value of the lock after
it. -/
structure Passes (locked releaseOk : Bool) (lockVal : ℕ) (pr pr' : PGProc n) : Prop where
  collected : pr'.pc.collected = false
  queued : pr.pc.queuedRetry = true → pr.lwWaiting = .pendingWakeup → locked = true →
    pr'.pc.queuedRetry = true
  retry : Retry pr → Retry pr' ∨ releaseOk = true
  responsible : Responsible pr → Responsible pr' ∨ lockVal ≠ 0
  committed : pr'.pc.committed = true → pr.pc.committed = true ∨ lockVal ≠ 0

variable {pc : Pc n} {locked hasWaiters releaseOk queued : Bool} {waiters wakeup : List (Fin n)}
  {f : PGProc n → PGProc n} {lockVal var : ℕ} {mode : LockMode} {w : Waiter} {pr pr' : PGProc n}

/-- Nobody counts on the process. -/
theorem Passes.idle (hpc : pr.pc = pc) (hcollected : pr'.pc.collected = false)
    (hcommitted : pr'.pc.committed = false ∨ pc.committed = true ∨ lockVal ≠ 0)
    (hretries : pc.retries = false) (hduty : pc.duty = false) :
    Passes locked releaseOk lockVal pr pr' := by
  subst hpc
  have hplain {P : Prop} (h : pr.pc.retries = true) : P :=
    absurd (hretries.symm.trans h) Bool.false_ne_true
  refine ⟨hcollected, fun h => hplain (Pc.retries_of_queuedRetry h), fun h => hplain h.1, ?_,
    fun h => hcommitted.resolve_left (Bool.not_eq_false _ ▸ h)⟩
  rintro (h | h)
  · exact absurd (hduty.symm.trans h) Bool.false_ne_true
  · exact hplain (Pc.retries_of_retrying h.1)

theorem Passes.plain (hpc : pr.pc = pc) (h : pc.plain pr'.pc = true) :
    Passes locked releaseOk lockVal pr pr' := by
  simp only [Pc.plain, Bool.not_eq_true', Bool.or_eq_false_iff] at h
  obtain ⟨⟨⟨hcollected, hcommitted⟩, hretries⟩, hduty⟩ := h
  exact .idle hpc hcollected (.inl hcommitted) hretries hduty

/-- A process in `LWLockAcquire` goes on within the call. -/
theorem Passes.within (hpc : pr.pc = pc) (hlw : pr'.lwWaiting = pr.lwWaiting)
    (hqueued : pc.queuedRetry = true → pr.lwWaiting = .pendingWakeup → locked = true →
      pr'.pc.queuedRetry = true)
    (hretries : pc.retries = true → pr'.pc.retries = true)
    (hduty : pc.duty = true → pr'.pc.duty = true)
    (hretrying : pc.retrying = true → pr'.pc.retrying = true)
    (hcommitted : pr'.pc.committed = true → pc.committed = true)
    (hcollected : pr'.pc.collected = false) :
    Passes locked releaseOk lockVal pr pr' := by
  subst hpc
  refine ⟨hcollected, hqueued, fun h => .inl ⟨hretries h.1, hlw ▸ h.2⟩, ?_,
    fun h => .inl (hcommitted h)⟩
  rintro (h | h)
  · exact .inl (.inl (hduty h))
  · exact .inl (.inr ⟨hretrying h.1, hlw ▸ h.2⟩)

namespace FlagInv

theorem kept_set (hq : q ≠ p) :
    Kept s (Sys.set ⟨lockVal, locked, hasWaiters, releaseOk, waiters, var, s.procs⟩ p f) q := by
  rw [Kept, Sys.set_procs_of_ne f hq]
  exact ⟨rfl, id⟩

theorem ne_zero_of_not_free (h : ¬ Sys.Free lockVal mode) :
    lockVal ≠ 0 := by
  rintro rfl
  cases mode <;> exact h rfl

theorem add_lwVal_ne_zero (lockVal : ℕ) (mode : LockMode) : lockVal + lwVal mode ≠ 0 := by
  cases mode <;> exact Nat.succ_ne_zero _

theorem kept_of_collects (h : Collects s s' p wakeup) (hq : q ≠ p) :
    Kept s s' q := by
  refine ⟨h.pc_of_ne hq, fun hlw => ?_⟩
  rw [h.others q hq] at hlw
  split_ifs at hlw
  exact hlw

/-- A process that another one takes off the queue, and that waits for the lock itself. -/
theorem queuedRetry_of_queued (hqueue : QueueInv s) (hhold : HoldInv s)
    (hp : (s.procs p).pc.inside = true) (hqp : q ≠ p) (hq : Queued (s.procs q)) {m : LockMode}
    (hmode : (s.procs q).lwWaitMode = .lock m) : (s.procs q).pc.queuedRetry = true := by
  have hphase := hq.phase
  have hwaiter := hq.mode
  have hplace := hhold.place q
  have houtside : (s.procs q).pc.inside ≠ true := fun hinside =>
    hqp (hqueue.unique q p hinside hp)
  rw [hmode] at hwaiter
  cases hpc : (s.procs q).pc with
  | test w queued =>
    rw [hpc] at hphase hwaiter
    cases queued with
    | false => nomatch hphase
    | true =>
      cases w with
      | acquire => rfl
      | _ => nomatch hwaiter _ rfl
  | sleep w | awake w | dequeueLock w =>
    rw [hpc] at hwaiter
    cases w with
    | acquire => rfl
    | _ => nomatch hwaiter _ rfl
  | queuedReleaseOk w =>
    rw [hpc] at hwaiter hplace
    cases w with
    | acquire => exact absurd trivial hplace.1
    | _ => nomatch hwaiter _ rfl
  | testVar w _ queued =>
    rw [hpc] at hwaiter hplace hphase
    cases queued with
    | false => nomatch hphase
    | true =>
      cases w with
      | acquire => exact absurd trivial hplace.1
      | _ => nomatch hwaiter _ rfl
  | queueUnlock w | dequeue w =>
    rw [hpc] at houtside
    exact absurd rfl houtside
  | dequeueUnlock => rw [hpc] at houtside; exact absurd rfl houtside
  | _ =>
    rw [hpc] at hphase
    nomatch hphase

theorem unlockSemaphore_kept (q r : Fin n) :
    Kept s (s.set q fun pr => { pr with sem := pr.sem + 1 }) r := by
  by_cases hr : r = q
  · subst hr
    rw [Kept, Sys.set_procs_self]
    exact ⟨rfl, id⟩
  · rw [Kept, Sys.set_procs_of_ne _ hr]
    exact ⟨rfl, id⟩

section

variable (hs : FlagInv s) (hqueue : QueueInv s)
include hs hqueue

theorem move (hkept : ∀ q ≠ p, Kept s s' q)
    (hhas : s'.waiters ≠ [] → s'.hasWaiters = true)
    (hwaiters : ∀ q ∈ s'.waiters, q ∈ s.waiters ∨ (s'.procs q).pc.committed = false)
    (hstay : (s.procs p).pc.inside = true ∨ s'.waiters = s.waiters)
    (hpasses : Passes s.locked s'.releaseOk s'.lockVal (s.procs p) (s'.procs p))
    (hrelease : s'.releaseOk = true ∨ s'.releaseOk = s.releaseOk)
    (hlock : s'.lockVal = 0 → s.lockVal = 0) : FlagInv s' := by
  constructor
  case hasWaiters => exact hhas
  case collected =>
    intro z newReleaseOk wakeup hz
    have hzp : z ≠ p := by
      rintro rfl
      exact absurd hpasses.collected (by rw [hz]; exact Bool.false_ne_true.symm)
    have hz' : (s.procs z).pc = .wakeupUnlock newReleaseOk wakeup := (hkept z hzp).1 ▸ hz
    have hinside : (s.procs z).pc.inside = true := by rw [hz']; rfl
    obtain ⟨hempty, hretry⟩ := hs.collected z newReleaseOk wakeup hz'
    refine ⟨fun hwakeup => ?_, fun hok => ?_⟩
    · rcases hstay with hp | heq
      · exact absurd (hqueue.unique z p hinside hp) hzp
      · rw [heq]
        exact hempty hwakeup
    · obtain ⟨q, hq, hqretry⟩ := hretry hok
      refine ⟨q, hq, ?_⟩
      by_cases hqp : q = p
      · subst hqp
        have hpending := hqueue.pending z q (by rw [hz']; exact hq)
        exact hpasses.queued hqretry hpending (hqueue.locked z hinside)
      · rw [(hkept q hqp).1]
        exact hqretry
  case releaseOk =>
    intro hok
    have hnot : s'.releaseOk ≠ true := hok ▸ Bool.false_ne_true
    obtain ⟨q, hq⟩ := hs.releaseOk (hrelease.resolve_left hnot ▸ hok)
    refine ⟨q, ?_⟩
    by_cases hqp : q = p
    · subst hqp
      exact (hpasses.retry hq).resolve_right hnot
    · exact (hkept q hqp).retry hq
  case noLost =>
    intro q hq hcommit
    by_cases hzero : s'.lockVal = 0
    swap
    · exact .inl hzero
    have hcommit' : (s.procs q).pc.committed = true := by
      by_cases hqp : q = p
      · subst hqp
        exact (hpasses.committed hcommit).resolve_right fun h => h hzero
      · exact (hkept q hqp).1 ▸ hcommit
    have hmem : q ∈ s.waiters :=
      (hwaiters q hq).resolve_right fun h => Bool.false_ne_true (h.symm.trans hcommit)
    obtain ⟨r, hr⟩ := (hs.noLost q hmem hcommit').resolve_left fun h => h (hlock hzero)
    by_cases hrp : r = p
    · subst hrp
      exact .inr ⟨r, (hpasses.responsible hr).resolve_right fun h => h hzero⟩
    · exact .inr ⟨r, (hkept r hrp).responsible hr⟩

/-- A step that leaves the queue and the other processes alone. -/
theorem setLock (hpasses : Passes s.locked releaseOk lockVal (s.procs p) (f (s.procs p)))
    (hrelease : releaseOk = true ∨ releaseOk = s.releaseOk)
    (hlock : lockVal = 0 → s.lockVal = 0) :
    FlagInv (Sys.set ⟨lockVal, locked, s.hasWaiters, releaseOk, s.waiters, var, s.procs⟩ p f) := by
  refine hs.move (p := p) hqueue (fun q hq => kept_set hq) hs.hasWaiters (fun q hq => .inl hq)
    (.inr rfl) ?_ hrelease hlock
  rw [Sys.set_procs_self]
  exact hpasses

theorem set (hpasses : Passes s.locked s.releaseOk s.lockVal (s.procs p) (f (s.procs p))) :
    FlagInv (Sys.set ⟨s.lockVal, locked, s.hasWaiters, s.releaseOk, s.waiters, var, s.procs⟩ p f) :=
  hs.setLock hqueue hpasses (.inr rfl) id

theorem goto
    (hpasses : Passes s.locked s.releaseOk s.lockVal (s.procs p) { s.procs p with pc := pc }) :
    FlagInv (Sys.goto ⟨s.lockVal, locked, s.hasWaiters, s.releaseOk, s.waiters, var, s.procs⟩ p
      pc) :=
  hs.set hqueue hpasses

theorem test_acquire (hpc : (s.procs p).pc = .test (.acquire mode) queued) :
    FlagInv (s.attemptLock p mode (Sys.tested (.acquire mode) queued false)
      (Sys.tested (.acquire mode) queued true)) := by
  delta Sys.attemptLock
  have hcollected (b : Bool) :
      (Sys.tested (n := n) (.acquire mode) queued b).collected = false := by
    cases queued <;> cases b <;> rfl
  have hqueued (b : Bool) (h : (Pc.test (n := n) (.acquire mode) queued).queuedRetry = true) :
      (Sys.tested (n := n) (.acquire mode) queued b).queuedRetry = true := by
    cases queued <;> cases b <;> first | rfl | nomatch h
  have hretry (b : Bool) (h : Retry (s.procs p)) :
      (Sys.tested (n := n) (.acquire mode) queued b).retries = true := by
    rw [Retry, hpc] at h
    cases queued <;> cases b <;> first | rfl | nomatch h.1
  -- the lock is held after the test, whatever its outcome
  split_ifs with hfree
  · have hheld := add_lwVal_ne_zero s.lockVal mode
    exact hs.setLock hqueue ⟨hcollected false, fun h _ _ => hqueued false (hpc ▸ h),
      fun h => .inl ⟨hretry false h, h.2⟩, fun _ => .inr hheld, fun _ => .inr hheld⟩
      (.inr rfl) fun h => absurd h hheld
  · have hheld := ne_zero_of_not_free hfree
    exact hs.goto hqueue ⟨hcollected true, fun h _ _ => hqueued true (hpc ▸ h),
      fun h => .inl ⟨hretry true h, h.2⟩, fun _ => .inr hheld, fun _ => .inr hheld⟩

theorem test_acquireOrWait (hpc : (s.procs p).pc = .test (.acquireOrWait mode) queued) :
    FlagInv (s.attemptLock p mode (Sys.tested (.acquireOrWait mode) queued false)
      (Sys.tested (.acquireOrWait mode) queued true)) := by
  delta Sys.attemptLock
  split_ifs with hfree
  · have hheld := add_lwVal_ne_zero s.lockVal mode
    refine hs.setLock hqueue (.idle hpc ?_ (.inr (.inr hheld)) rfl rfl) (.inr rfl) fun h =>
      absurd h hheld
    cases queued <;> rfl
  · refine hs.goto hqueue (.idle hpc ?_ (.inr (.inr (ne_zero_of_not_free hfree))) rfl rfl)
    cases queued <;> rfl

theorem test_waitForVar {oldval : ℕ}
    (hpc : (s.procs p).pc = .test (.waitForVar oldval) queued) : FlagInv (s.step p) := by
  delta Sys.step
  simp only [hpc]
  split_ifs with hfree
  · refine hs.goto hqueue (.plain hpc ?_)
    cases queued <;> rfl
  · refine hs.goto hqueue (.idle hpc rfl (.inr (.inr ?_)) rfl rfl)
    intro hzero
    exact hfree (by rw [hzero, Nat.zero_div])

theorem queue (hpc : (s.procs p).pc = .queue w) : FlagInv (s.step p) := by
  delta Sys.step
  simp only [hpc]
  refine hs.move (p := p) hqueue (fun q hq => kept_set hq) (fun _ => rfl) (fun q hq => ?_)
    (.inl (by rw [hpc]; rfl)) ?_ (.inr rfl) id
  · by_cases hqp : q = p
    · subst hqp
      rw [Sys.set_procs_self]
      exact .inr rfl
    · refine .inl ?_
      change q ∈ ite _ _ _ at hq
      split_ifs at hq
      · exact (mem_cons.mp hq).resolve_left hqp
      · exact (mem_append.mp hq).resolve_right fun h => hqp (mem_singleton.mp h)
  · rw [Sys.set_procs_self]
    exact .plain hpc rfl

theorem dequeue (hpc : (s.procs p).pc = .dequeue w) : FlagInv (s.step p) := by
  delta Sys.step
  simp only [hpc]
  have hsub : ∀ q ∈ (if decide ((s.procs p).lwWaiting = .waiting) = true then s.waiters.erase p
      else s.waiters), q ∈ s.waiters := by
    intro q hq
    split_ifs at hq
    · exact mem_of_mem_erase hq
    · exact hq
  refine hs.move (p := p) hqueue (fun q hq => kept_set hq) (fun hne => ?_)
    (fun q hq => .inl (hsub q hq)) (.inl (by rw [hpc]; rfl)) ?_ (.inr rfl) id
  · obtain ⟨q, hq⟩ := exists_mem_of_ne_nil _ hne
    show (s.hasWaiters && _) = true
    rw [hs.hasWaiters (ne_nil_of_mem (hsub q hq)), Bool.true_and, Bool.not_eq_true',
      isEmpty_eq_false_iff]
    exact hne
  · rw [Sys.goto_procs_self]
    refine ⟨rfl, by rw [hpc]; nofun, fun ⟨hretries, hlw⟩ => .inl ⟨?_, hlw⟩, ?_, nofun⟩
    · rw [hpc] at hretries
      rw [decide_eq_false hlw]
      cases w <;> first | rfl | nomatch hretries
    · rw [Responsible, hpc]
      rintro (h | h)
      · nomatch h
      · nomatch h.1

theorem updateCollect (hpc : (s.procs p).pc = .updateCollect) : FlagInv (s.step p) := by
  delta Sys.step
  simp only [hpc]
  have hperm := List.Perm.of_eq (takeWhile_append_dropWhile
    (p := fun q => decide ((s.procs q).lwWaitMode = .untilFree)) (l := s.waiters))
  generalize (s.waiters.takeWhile fun q => decide ((s.procs q).lwWaitMode = .untilFree)) = wakeup
    at hperm ⊢
  generalize (s.waiters.dropWhile fun q => decide ((s.procs q).lwWaitMode = .untilFree)) = stay
    at hperm ⊢
  have hcollects : Collects s
      (({ s with waiters := stay }.markPending wakeup).goto p (.updateUnlock wakeup)) p wakeup :=
    Sys.collects hqueue hpc hperm rfl rfl rfl rfl rfl rfl rfl
  have hsub : ∀ q ∈ stay, q ∈ s.waiters :=
    fun q hq => hperm.mem_iff.mp (mem_append_right _ hq)
  refine hs.move (p := p) hqueue (fun q hq => kept_of_collects hcollects hq) (fun hne => ?_)
    (fun q hq => .inl (hsub q hq)) (.inl hcollects.inside) ?_ (.inr rfl) id
  · obtain ⟨q, hq⟩ := exists_mem_of_ne_nil _ hne
    exact hs.hasWaiters (ne_nil_of_mem (hsub q hq))
  · rw [Sys.goto_procs_self]
    exact .plain hpc rfl

/-- The sweep of `LWLockWakeup`: somebody who stays in the queue can count on somebody woken. -/
theorem wakeupCollect (hhold : HoldInv s)
    (hpc : (s.procs p).pc = .wakeupCollect) : FlagInv (s.step p) := by
  have hperm := collectWakeup_perm (fun q => (s.procs q).lwWaitMode) false s.waiters
  have hlock := exists_lock_of_collectWakeup (fun q => (s.procs q).lwWaitMode) false s.waiters
  have hstay := collectWakeup_ok_of_stay (fun q => (s.procs q).lwWaitMode) false s.waiters
  have hnil := eq_nil_of_collectWakeup (fun q => (s.procs q).lwWaitMode) s.waiters
  rcases hcollect : collectWakeup (fun q => (s.procs q).lwWaitMode) false s.waiters with
    ⟨wakeup, stay, ok⟩
  delta Sys.step
  simp only [hpc, hcollect]
  rw [hcollect] at hperm hlock hstay hnil
  have hcollects : Collects s
      (({ s with waiters := stay }.markPending wakeup).goto p (.wakeupUnlock ok wakeup)) p wakeup :=
    Sys.collects hqueue hpc hperm rfl rfl rfl rfl rfl rfl rfl
  have hinside : (s.procs p).pc.inside = true := by rw [hpc]; rfl
  have hretry (hok : ok = false) :
      ∃ q ∈ wakeup, q ≠ p ∧ (s.procs q).pc.queuedRetry = true := by
    obtain ⟨q, hq, m, hm⟩ := hlock hok
    have hqueued := hcollects.queued hqueue hq
    have hqp := hcollects.ne_of_queued hqueued
    exact ⟨q, hq, hqp, queuedRetry_of_queued hqueue hhold hinside hqp hqueued hm⟩
  constructor
  case hasWaiters =>
    intro hne
    obtain ⟨q, hq⟩ := exists_mem_of_ne_nil _ hne
    exact hs.hasWaiters (ne_nil_of_mem (hperm.mem_iff.mp (mem_append_right _ hq)))
  case collected =>
    intro z _ _ hz
    by_cases hzp : z = p
    · rw [hzp, Sys.goto_procs_self] at hz
      obtain ⟨rfl, rfl⟩ := Pc.wakeupUnlock.inj hz
      refine ⟨fun hempty => ?_, fun hok => ?_⟩
      · rw [hnil hempty] at hperm
        exact append_eq_nil_iff.mp hperm.eq_nil |>.2
      · obtain ⟨q, hq, hqp, hqretry⟩ := hretry hok
        exact ⟨q, hq, by rw [hcollects.pc_of_ne hqp]; exact hqretry⟩
    · rw [hcollects.pc_of_ne hzp] at hz
      exact absurd (hqueue.unique z p (by rw [hz]; rfl) hinside) hzp
  case releaseOk =>
    intro hok
    obtain ⟨q, hq⟩ := hs.releaseOk hok
    have hqp : q ≠ p := by
      rintro rfl
      rw [Retry, hpc] at hq
      nomatch hq.1
    exact ⟨q, (kept_of_collects hcollects hqp).retry hq⟩
  case noLost =>
    intro q hq _
    have hok : ok = false := (hstay (ne_nil_of_mem hq)).resolve_left Bool.false_ne_true
    obtain ⟨r, hr, -, hqretry⟩ := hretry hok
    -- somebody woken is on its way to the lock, or has it
    have hwoken : Retry { s.procs r with lwWaiting := .pendingWakeup } :=
      ⟨Pc.retries_of_queuedRetry hqretry, nofun⟩
    rcases hwoken.responsible (hhold.place r) with hresponsible | hheld
    · refine .inr ⟨r, ?_⟩
      rw [hcollects.of_mem hqueue hr]
      exact hresponsible
    · have hval : s.lockVal ≠ 0 := hhold.lockVal_ne_zero (q := r) hheld
      exact .inl hval

/-- The end of the sweep sets the flags for what it has found. -/
theorem wakeupUnlock {newReleaseOk : Bool}
    (hpc : (s.procs p).pc = .wakeupUnlock newReleaseOk wakeup) :
    FlagInv (s.step p) := by
  delta Sys.step
  simp only [hpc]
  obtain ⟨hempty, hretry⟩ := hs.collected p newReleaseOk wakeup hpc
  have hmoved : FlagInv ({ s with locked := false }.goto p (.wake wakeup)) :=
    hs.goto hqueue (.plain hpc rfl)
  refine { hmoved with hasWaiters := fun hne => ?_, releaseOk := fun hok => ?_ }
  · show (s.hasWaiters && !wakeup.isEmpty) = true
    rw [hs.hasWaiters hne, Bool.true_and, Bool.not_eq_true', isEmpty_eq_false_iff]
    exact fun h => hne (hempty h)
  · obtain ⟨q, hq, hqretry⟩ := hretry hok
    have hqp : q ≠ p := by
      rintro rfl
      rw [hpc] at hqretry
      nomatch hqretry
    have hpending := hqueue.pending p q (by rw [hpc]; exact hq)
    refine ⟨q, ?_⟩
    rw [Sys.goto_procs_of_ne _ hqp]
    exact ⟨Pc.retries_of_queuedRetry hqretry, by rw [hpending]; nofun⟩

theorem wake (hpc : (s.procs p).pc = .wake (q :: wakeup)) : FlagInv (s.step p) := by
  delta Sys.step
  simp only [hpc]
  have hwakes := Sys.wakes hqueue hpc
  refine hs.move (p := p) hqueue (fun r hr => ⟨hwakes.pc_of_ne hr, fun hlw => ?_⟩)
    hs.hasWaiters (fun _ hq => .inl hq) (.inr rfl) ?_ (.inr rfl) id
  · by_cases hrq : r = q
    · rw [hrq, hwakes.woken] at hlw
      nomatch hlw
    · rwa [hwakes.lwWaiting_of_ne hrq] at hlw
  · rw [Sys.goto_procs_self]
    exact .plain hpc rfl

theorem wakeSem (hpc : (s.procs p).pc = .wakeSem q wakeup) : FlagInv (s.step p) := by
  delta Sys.step
  simp only [hpc]
  refine hs.move (p := p) hqueue (fun r hr => ?_) hs.hasWaiters (fun _ hq => .inl hq)
    (.inr rfl) ?_ (.inr rfl) id
  · rw [Kept, Sys.goto_procs_of_ne _ hr]
    exact unlockSemaphore_kept q r
  · rw [Sys.goto_procs_self]
    exact .plain hpc rfl

/-- A release that leaves the lock free wakes up waiters, or somebody already woken takes over. -/
theorem release (hhold : HoldInv (s.step p))
    (hplace : ∀ q, HoldOk (s.procs q).pc (s.procs q).held)
    (hpc : (s.procs p).pc = .release) : FlagInv (s.step p) := by
  cases hheld : (s.procs p).held with
  | none =>
    delta Sys.step
    simp only [hpc, hheld]
    exact hs.goto hqueue (.plain hpc rfl)
  | some mode =>
    delta Sys.step at hhold ⊢
    simp only [hpc, hheld] at hhold ⊢
    have hmoved : FlagInv (s.set p fun pr => { pr with
        held := none
        pc := if (s.hasWaiters && s.releaseOk &&
            decide ((s.lockVal - lwVal mode) % 2 ^ 25 = 0)) = true
          then .wakeupLock else .idle }) := by
      refine hs.set hqueue (.plain hpc ?_)
      dsimp only
      split_ifs <;> rfl
    refine { hmoved with noLost := fun q hq hcommitted => ?_ }
    by_cases hzero : s.lockVal - lwVal mode = 0
    swap
    · exact .inl hzero
    by_cases hok : s.releaseOk = true
    · -- the process itself wakes up the waiters
      refine .inr ⟨p, .inl ?_⟩
      rw [Sys.set_procs_self, hs.hasWaiters (ne_nil_of_mem hq), hok, hzero]
      rfl
    · obtain ⟨r, hr⟩ := hs.releaseOk (Bool.not_eq_true _ ▸ hok)
      have hrp : r ≠ p := by
        rintro rfl
        rw [Retry, hpc] at hr
        nomatch hr.1
      rcases hr.responsible (hplace r) with hresponsible | hrheld
      · refine .inr ⟨r, ?_⟩
        rw [Sys.set_procs_of_ne _ hrp]
        exact hresponsible
      · refine .inl (hhold.lockVal_ne_zero (q := r) ?_)
        rw [Sys.set_procs_of_ne _ hrp]
        exact hrheld

theorem waitListLock
    (hpasses : Passes false s.releaseOk s.lockVal (s.procs p) { s.procs p with pc := pc }) :
    FlagInv (s.waitListLock p pc) := by
  rw [Sys.waitListLock]
  split_ifs with hlocked
  · exact hs
  · rw [Bool.not_eq_true] at hlocked
    exact hs.goto hqueue (hlocked ▸ hpasses)

theorem awake (hpc : (s.procs p).pc = .awake w) : FlagInv (s.step p) := by
  delta Sys.step
  simp only [hpc]
  split_ifs with hlw
  · cases w with
    | acquire =>
      refine hs.goto hqueue (.within hpc rfl (fun _ h => ?_) id nofun id nofun rfl)
      nomatch hlw.symm.trans h
    | acquireOrWait mode | waitForVar oldval => exact hs.goto hqueue (.plain hpc rfl)
  · refine hs.set hqueue (.within hpc rfl (fun h _ _ => ?_) (fun h => ?_) nofun (fun h => ?_)
      (fun _ => rfl) rfl)
    all_goals cases w <;> first | rfl | nomatch h

theorem step (hhold : HoldInv s)
    (hhold' : HoldInv (s.step p)) : FlagInv (s.step p) := by
  cases hpc : (s.procs p).pc
  case test w queued =>
    cases w with delta Sys.step
    | acquire =>
      simp only [hpc]
      exact hs.test_acquire hqueue hpc
    | acquireOrWait =>
      simp only [hpc]
      exact hs.test_acquireOrWait hqueue hpc
    | waitForVar => exact hs.test_waitForVar hqueue hpc
  case queue w => exact hs.queue hqueue hpc
  case awake w => exact hs.awake hqueue hpc
  case dequeue w => exact hs.dequeue hqueue hpc
  case updateCollect => exact hs.updateCollect hqueue hpc
  case release => exact hs.release hqueue hhold' hhold.place hpc
  case wakeupCollect => exact hs.wakeupCollect hqueue hhold hpc
  case wakeupUnlock newReleaseOk wakeup => exact hs.wakeupUnlock hqueue hpc
  case wake wakeup =>
    cases wakeup with
    | nil =>
      delta Sys.step
      simp only [hpc]
      exact hs.goto hqueue (.plain hpc rfl)
    | cons => exact hs.wake hqueue hpc
  case wakeSem q wakeup => exact hs.wakeSem hqueue hpc
  -- The other places only change the place, the flags or the holder.
  all_goals
    delta Sys.step
    simp only [hpc]
  case idle | panic =>
    exact hs
  case testVar w oldval queued =>
    refine hs.goto hqueue (.idle hpc ?_ ?_ rfl rfl) <;> cases queued <;>
      cases decide (s.var = oldval)
    all_goals first | rfl | exact .inl rfl | exact .inr (.inl rfl)
  case conditional mode =>
    delta Sys.attemptLock
    split_ifs
    · exact hs.setLock hqueue (.plain hpc rfl) (.inr rfl) fun h => absurd h (add_lwVal_ne_zero _ _)
    · exact hs.goto hqueue (.plain hpc rfl)
  case queueLock w =>
    split_ifs
    · exact hs.goto hqueue (.plain hpc rfl)
    · exact hs.waitListLock hqueue (.plain hpc rfl)
  case queueUnlock w =>
    cases w <;> exact hs.goto hqueue (.plain hpc rfl)
  case queuedReleaseOk w =>
    exact hs.setLock hqueue (.plain hpc rfl) (.inl rfl) id
  case sleep w =>
    delta Sys.semaphoreLock
    split_ifs
    · refine hs.set hqueue (.within hpc rfl (fun h _ _ => ?_) (fun h => ?_) nofun (fun h => ?_)
        (fun _ => rfl) rfl)
      all_goals cases w <;> first | rfl | nomatch h
    · exact hs
  case retryReleaseOk w =>
    refine hs.setLock hqueue ⟨rfl, by rw [hpc]; nofun, fun _ => .inr rfl, fun h => ?_, nofun⟩
      (.inl rfl) id
    rw [Responsible, hpc] at h
    cases w with
    | acquire => exact .inl (.inl rfl)
    | _ => exact h.elim nofun fun h => nomatch h.1
  case dequeueLock w =>
    refine hs.waitListLock hqueue (.within hpc rfl nofun (fun h => ?_) nofun nofun nofun rfl)
    cases w <;> first | rfl | nomatch h
  case dequeueUnlock w onWaitlist =>
    delta Sys.waitListUnlock
    cases onWaitlist with
    | true =>
      refine hs.goto hqueue (.plain hpc ?_)
      cases w <;> rfl
    | false =>
      refine hs.goto hqueue (.within hpc rfl nofun (fun h => ?_) nofun nofun nofun rfl)
      cases w <;> first | rfl | nomatch h
  case dequeueClear =>
    exact hs.set hqueue (.plain hpc rfl)
  case dequeueReleaseOk w =>
    refine hs.setLock hqueue ⟨rfl, by rw [hpc]; nofun, fun _ => .inr rfl, fun h => ?_, nofun⟩
      (.inl rfl) id
    rw [Responsible, hpc] at h
    exact h.elim nofun fun h => nomatch h.1
  case dequeueSleep extraWaits =>
    delta Sys.semaphoreLock
    split_ifs
    · exact hs.set hqueue (.plain hpc rfl)
    · exact hs
  case dequeueAwake extraWaits =>
    split_ifs <;> exact hs.goto hqueue (.plain hpc rfl)
  case dequeueFix extraWaits =>
    cases extraWaits <;> exact hs.set hqueue (.plain hpc rfl)
  case finish =>
    split_ifs
    · refine hs.set hqueue (.plain hpc ?_)
      dsimp only
      rw [hpc]
      rfl
    · exact hs.goto hqueue (.plain hpc rfl)
  case setVar val | updateUnlock wakeup =>
    exact hs.goto hqueue (.plain hpc rfl)
  case updateLock =>
    exact hs.waitListLock hqueue (.plain hpc rfl)
  case wakeupLock =>
    exact hs.waitListLock hqueue (.within hpc rfl nofun nofun (fun _ => rfl) nofun nofun rfl)

theorem call (p : Fin n) (c : Call) :
    FlagInv (s.call p c) := by
  delta Sys.call
  split
  case h_7 => exact hs
  all_goals exact hs.goto hqueue (.plain ‹_› rfl)

end

theorem unlockSemaphore (hs : FlagInv s) (p : Fin n) :
    FlagInv (s.set p fun pr => { pr with sem := pr.sem + 1 }) := by
  constructor
  case hasWaiters => exact hs.hasWaiters
  case collected =>
    intro z newReleaseOk wakeup hz
    rw [(unlockSemaphore_kept p z).1] at hz
    obtain ⟨hempty, hretry⟩ := hs.collected z newReleaseOk wakeup hz
    refine ⟨hempty, fun hok => ?_⟩
    obtain ⟨q, hq, hqretry⟩ := hretry hok
    exact ⟨q, hq, by rw [(unlockSemaphore_kept p q).1]; exact hqretry⟩
  case releaseOk =>
    intro hok
    obtain ⟨q, hq⟩ := hs.releaseOk hok
    exact ⟨q, (unlockSemaphore_kept p q).retry hq⟩
  case noLost =>
    intro q hq hcommitted
    rw [(unlockSemaphore_kept p q).1] at hcommitted
    refine (hs.noLost q hq hcommitted).imp id fun ⟨r, hr⟩ => ?_
    exact ⟨r, (unlockSemaphore_kept p r).responsible hr⟩

theorem initial : FlagInv (Sys.initial n) where
  hasWaiters := fun h => absurd rfl h
  collected _ _ _ := nofun
  releaseOk := nofun
  noLost _ := nofun

end FlagInv

/-- The invariant of a lightweight lock. -/
structure LockInv (s : Sys n) : Prop where
  queue : QueueInv s
  hold : HoldInv s
  flag : FlagInv s

theorem LockInv.act (hn : n < 2 ^ 24) (hs : LockInv s) (a : Sys.Action n) : LockInv (s.act a) := by
  refine ⟨hs.queue.act a, hs.hold.act hn a, ?_⟩
  cases a with
  | call p c => exact hs.flag.call hs.queue p c
  | step p => exact hs.flag.step hs.queue hs.hold (hs.hold.step hn p)
  | unlockSemaphore p => exact hs.flag.unlockSemaphore p

theorem lockInv_run (hn : n < 2 ^ 24) (l : List (Sys.Action n)) :
    LockInv (run Sys.act (Sys.initial n) l) := by
  have hstart : LockInv (Sys.initial n) := ⟨.initial, .initial, .initial⟩
  generalize Sys.initial n = s at hstart
  induction l generalizing s with
  | nil => exact hstart
  | cons a l ih => exact ih _ (hstart.act hn a)

/-- A process that is asleep in the queue is past its second test of the lock. -/
theorem committed_of_asleep (hqueue : QueueInv s) (hq : q ∈ s.waiters)
    (hquiescent : s.Quiescent) : (s.procs q).pc.committed = true := by
  have hphase := (hqueue.waiters q hq).phase
  rcases hquiescent q with hidle | ⟨_, hasleep⟩
  · rw [hidle] at hphase
    nomatch hphase
  · cases hpc : (s.procs q).pc with
    | sleep => rfl
    | dequeueSleep =>
      rw [hpc] at hphase
      nomatch hphase
    | _ =>
      rw [hpc] at hasleep
      exact hasleep.elim

/-- A quiescent process is idle or blocked, so it has nobody to wake. -/
theorem wakes_of_quiescent (hquiescent : s.Quiescent) (z : Fin n) :
    (s.procs z).pc.wakes = [] ∧ (s.procs z).pc.unlocks = none ∧ (s.procs z).pc.duty = false := by
  rcases hquiescent z with hidle | ⟨_, hasleep⟩
  · rw [hidle]
    exact ⟨rfl, rfl, rfl⟩
  · cases hpc : (s.procs z).pc with
    | sleep w | dequeueSleep extraWaits => exact ⟨rfl, rfl, rfl⟩
    | _ =>
      rw [hpc] at hasleep
      exact hasleep.elim

/-- A woken process is not blocked. -/
theorem not_retrying_of_quiescent (hqueue : QueueInv s) (hquiescent : s.Quiescent)
    (hretrying : (s.procs q).pc.retrying = true) : (s.procs q).lwWaiting = .waiting := by
  by_contra hlw
  rcases hquiescent q with hidle | ⟨hsem, hasleep⟩
  · rw [hidle] at hretrying
    nomatch hretrying
  have howed : (s.procs q).pc.owed = true := by
    cases hpc : (s.procs q).pc with
    | sleep w | dequeueSleep extraWaits => rfl
    | _ =>
      rw [hpc] at hasleep
      exact hasleep.elim
  cases hstate : (s.procs q).lwWaiting with
  | waiting => exact hlw hstate
  | pendingWakeup =>
    obtain ⟨z, hz⟩ := hqueue.waker q hstate
    rw [(wakes_of_quiescent hquiescent z).1] at hz
    nomatch hz
  | notWaiting =>
    rcases hqueue.token q howed hstate with hpos | ⟨z, hz⟩
    · exact Nat.ne_of_gt hpos hsem
    · nomatch hz.symm.trans (wakes_of_quiescent hquiescent z).2.1

/-- In every run an exclusive holder is the only holder, and when the lock is free and no process
executes an operation on it, nobody is in its queue. -/
theorem Sys.exclusive_and_not_lost (hn : n < 2 ^ 24) (l : List (Sys.Action n)) :
    (∀ p q, ((run Sys.act (Sys.initial n) l).procs p).held = some .exclusive → q ≠ p →
      ((run Sys.act (Sys.initial n) l).procs q).held = none) ∧
    ((∀ p, ((run Sys.act (Sys.initial n) l).procs p).held = none) →
      (run Sys.act (Sys.initial n) l).Quiescent →
        (run Sys.act (Sys.initial n) l).waiters = []) := by
  obtain ⟨hqueue, hhold, hflag⟩ := lockInv_run hn l
  refine ⟨fun p q hp hqp => ?_, fun hfree hquiescent => ?_⟩
  · by_contra hq
    exact hqp (hhold.exclusive p q hp hq)
  · by_contra hne
    obtain ⟨q, hq⟩ := exists_mem_of_ne_nil _ hne
    have hzero : (run Sys.act (Sys.initial n) l).lockVal = 0 := by
      rw [hhold.lockVal]
      exact Finset.sum_eq_zero fun p _ => by rw [hfree p]; rfl
    obtain ⟨r, hr⟩ := (hflag.noLost q hq (committed_of_asleep hqueue hq hquiescent)).resolve_left
      fun h => h hzero
    rcases hr with hduty | ⟨hretrying, hlw⟩
    · exact absurd (hduty.symm.trans (wakes_of_quiescent hquiescent r).2.2) nofun
    · exact hlw (not_retrying_of_quiescent hqueue hquiescent hretrying)

/-- Process 0 holds the lock and process 1 sleeps in the queue; then process 0 releases it and wakes
up process 1, which acquires it. -/
def contended : List (Sys.Action 2) :=
  [.call 0 (.acquire .exclusive), .step 0, .step 0, .call 1 (.acquire .shared), .step 1, .step 1,
    .step 1, .step 1, .step 1, .call 0 .release, .step 0, .step 0, .step 0, .step 0, .step 0,
    .step 0, .step 0, .step 1, .step 1, .step 1, .step 1, .step 1]

theorem exclusive_and_not_lost_contended :
    ((run Sys.act (Sys.initial 2) (contended.take 9)).waiters = [1] ∧
      ((run Sys.act (Sys.initial 2) contended).procs 1).held = some .shared) ∧
    (∀ p q, ((run Sys.act (Sys.initial 2) contended).procs p).held = some .exclusive → q ≠ p →
      ((run Sys.act (Sys.initial 2) contended).procs q).held = none) ∧
    ((∀ p, ((run Sys.act (Sys.initial 2) contended).procs p).held = none) →
      (run Sys.act (Sys.initial 2) contended).Quiescent →
        (run Sys.act (Sys.initial 2) contended).waiters = []) :=
  ⟨by decide, Sys.exclusive_and_not_lost (by decide) contended⟩

/-- In every run, once all processes are done with the lock, it is free and ready for the next
release, and nobody is taken for a waiter. -/
theorem Sys.restored_of_idle (hn : n < 2 ^ 24) (l : List (Sys.Action n))
    (h : ∀ p, ((run Sys.act (Sys.initial n) l).procs p).pc = .idle ∧
      ((run Sys.act (Sys.initial n) l).procs p).held = none) :
    (run Sys.act (Sys.initial n) l).lockVal = 0 ∧ (run Sys.act (Sys.initial n) l).waiters = [] ∧
      (run Sys.act (Sys.initial n) l).releaseOk = true ∧
      ∀ p, ((run Sys.act (Sys.initial n) l).procs p).lwWaiting = .notWaiting := by
  obtain ⟨hqueue, hhold, hflag⟩ := lockInv_run hn l
  refine ⟨?_, eq_nil_iff_forall_not_mem.mpr fun q hq => ?_, ?_, fun p => ?_⟩
  · rw [hhold.lockVal]
    exact Finset.sum_eq_zero fun p _ => by rw [(h p).2]; rfl
  · have hphase := (hqueue.waiters q hq).phase
    rw [(h q).1] at hphase
    nomatch hphase
  · by_contra hoff
    obtain ⟨q, hretries, -⟩ := hflag.releaseOk (eq_false_of_ne_true hoff)
    rw [(h q).1] at hretries
    nomatch hretries
  · have hphase := hqueue.phase p
    rwa [(h p).1] at hphase

theorem restored_of_idle_contended :
    (run Sys.act (Sys.initial 2) (contended ++ .call 1 .release :: replicate 5 (.step 1))).lockVal =
      0 :=
  (Sys.restored_of_idle (by decide) _ fun p => by fin_cases p <;> exact ⟨rfl, rfl⟩).1

end PgCutover.Storage
