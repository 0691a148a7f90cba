import PgCutover.Storage.LWLockQueue

/-!
# The wait queue of a lightweight lock: every step

Each step of a process keeps the invariant of the queue, so it holds in every run.
-/

namespace PgCutover.Storage

variable {n : ℕ} {s : Sys n} {p : Fin n}

/-- Both outcomes of a test of the lock stay within the phase. -/
theorem Pc.Goes.tested {lw : LWWaitState} {w : Waiter} {queued : Bool}
    (hok : PhaseOk (Pc.test (n := n) w queued).phase lw) (mustwait : Bool) :
    (Pc.test (n := n) w queued).Goes (Sys.tested w queued mustwait) lw := by
  cases queued <;> cases mustwait
  · exact .same hok nofun
  · exact .same hok nofun
  all_goals exact .same hok fun _ _ => rfl

theorem inside_tested (w : Waiter) (queued mustwait : Bool) :
    (Sys.tested (n := n) w queued mustwait).inside = false := by
  cases queued <;> cases mustwait <;> rfl

namespace QueueInv

theorem attemptLock_test (hs : QueueInv s) {w : Waiter} {queued : Bool} (mode : LockMode)
    (hpc : (s.procs p).pc = .test w queued) :
    QueueInv (s.attemptLock p mode (Sys.tested w queued false) (Sys.tested w queued true)) := by
  have hok := hs.phase p
  rw [hpc] at hok
  refine hs.attemptLock mode hpc (.tested hok _) (.tested hok _) fun h => ?_
  rw [inside_tested, inside_tested] at h
  exact h.elim nofun nofun

theorem step (hs : QueueInv s) (p : Fin n) : QueueInv (s.step p) := by
  have hok := hs.phase p
  delta Sys.step
  dsimp only
  generalize hpc : (s.procs p).pc = pc at hok ⊢
  -- One case per place of the program; `idle` and `panic` do nothing.
  cases pc <;> try dsimp only
  case test w queued =>
    cases w with
    | acquire mode | acquireOrWait mode => exact hs.attemptLock_test mode hpc
    | waitForVar =>
      split_ifs
      · refine hs.goto hpc (.tested hok _) fun h => ?_
        rw [inside_tested] at h
        nomatch h
      · cases queued
        · exact hs.goto hpc (.same hok nofun) nofun
        · exact hs.goto hpc (.same hok fun _ _ => rfl) nofun
  case idle | panic =>
    exact hs
  case testVar w oldval queued =>
    cases queued <;> cases decide (s.var = oldval)
    · exact hs.goto hpc (.same hok nofun) nofun
    · exact hs.goto hpc (.same hok nofun) nofun
    all_goals exact hs.goto hpc (.same hok fun _ _ => rfl) nofun
  case conditional mode =>
    exact hs.attemptLock mode hpc (.same hok nofun) (.same hok nofun)
      (fun h => h.elim nofun nofun)
  case queueLock w =>
    rw [if_neg (not_not_intro (show (s.procs p).lwWaiting = .notWaiting from hok))]
    exact hs.waitListLock hpc (.same hok nofun)
  case queue w =>
    refine hs.queue hpc ?_
    split_ifs
    · exact .refl _
    · exact List.perm_append_singleton p s.waiters
  case queueUnlock w =>
    cases w with
    | waitForVar => exact hs.waitListUnlock hpc (.same hok fun _ _ => rfl) rfl rfl
    | _ => exact hs.waitListUnlock hpc (.same hok fun _ _ => rfl) rfl rfl
  case queuedReleaseOk w | dequeueReleaseOk w =>
    have hs' : QueueInv { s with releaseOk := true } := { hs with }
    exact hs'.goto hpc (.same hok fun _ _ => rfl) nofun
  case sleep w | dequeueSleep extraWaits =>
    exact hs.semaphoreLock hpc (.same hok nofun) nofun rfl
  case awake w =>
    split_ifs with hlw
    · cases w with
      | acquire | acquireOrWait | waitForVar => exact hs.goto hpc (.leave hlw) nofun
    · exact hs.set hpc (.same hok fun _ h => absurd h hlw) nofun rfl rfl
        fun _ => Nat.le_refl _
  case retryReleaseOk w =>
    have hs' : QueueInv { s with releaseOk := true } := { hs with }
    exact hs'.goto hpc (.same hok nofun) nofun
  case dequeueLock w =>
    exact hs.waitListLock hpc (.same hok fun _ _ => rfl)
  case dequeue w =>
    by_cases hlw : (s.procs p).lwWaiting = .waiting
    · simp only [hlw, decide_true, if_true]
      exact hs.dequeue hpc hlw
    · simp only [hlw, decide_false, Bool.false_eq_true, if_false]
      have hs' : QueueInv
        { s with waiters := s.waiters, hasWaiters := s.hasWaiters && !s.waiters.isEmpty } :=
        { hs with }
      refine hs'.goto hpc ⟨hlw, fun _ h => absurd h hlw, nofun, rfl, rfl, fun _ _ => rfl⟩
        fun _ => rfl
  case dequeueUnlock w onWaitlist =>
    cases onWaitlist with
    | true => exact hs.waitListUnlock hpc (.same hok nofun) rfl rfl
    | false => exact hs.waitListUnlock hpc (.same hok fun _ _ => rfl) rfl rfl
  case dequeueClear =>
    exact hs.dequeueClear hpc
  case dequeueAwake extraWaits =>
    split_ifs with hlw
    · exact hs.goto hpc (.leave hlw) nofun
    · exact hs.goto hpc (.same hok fun _ h => absurd h hlw) nofun
  case dequeueFix extraWaits =>
    cases extraWaits with
    | zero =>
      exact hs.goto hpc (.same hok nofun) nofun
    | succ =>
      exact hs.set hpc (.same hok nofun) nofun rfl rfl nofun
  case finish =>
    split_ifs
    · refine hs.set hpc ?_ ?_ rfl rfl ?_ <;> dsimp only <;> rw [hpc]
      · exact .same hok nofun
      · exact id
      · nofun
    · exact hs.goto hpc (.same hok nofun) nofun
  case setVar val =>
    have hs' : QueueInv { s with var := val } := { hs with }
    exact hs'.goto hpc (.same hok nofun) nofun
  case updateLock | wakeupLock =>
    exact hs.waitListLock hpc (.same hok nofun)
  case updateCollect =>
    have hperm := List.Perm.of_eq (List.takeWhile_append_dropWhile
      (p := fun q => decide ((s.procs q).lwWaitMode = .untilFree)) (l := s.waiters))
    exact (Sys.collects hs hpc hperm rfl rfl rfl rfl rfl rfl rfl).queueInv hs
  case updateUnlock wakeup =>
    exact hs.waitListUnlock hpc (.same hok nofun) rfl rfl
  case release =>
    cases (s.procs p).held with
    | none => exact hs.goto hpc (.same hok nofun) nofun
    | some mode =>
      have hs' : QueueInv { s with lockVal := s.lockVal - lwVal mode } := { hs with }
      refine hs'.set hpc ?_ ?_ rfl rfl ?_ <;> dsimp only <;> split_ifs
      · exact .same hok nofun
      · exact .same hok nofun
      all_goals nofun
  case wakeupCollect =>
    exact (Sys.collects hs hpc (collectWakeup_perm _ _ _) rfl rfl rfl rfl rfl rfl rfl).queueInv hs
  case wakeupUnlock newReleaseOk wakeup =>
    have hs' : QueueInv
        { s with releaseOk := newReleaseOk, hasWaiters := s.hasWaiters && !wakeup.isEmpty } :=
      { hs with }
    exact hs'.waitListUnlock hpc (.same hok nofun) rfl rfl
  case wake wakeup =>
    cases wakeup with
    | nil =>
      exact hs.goto hpc (.same hok nofun) nofun
    | cons =>
      exact (Sys.wakes hs hpc).queueInv hs
  case wakeSem q wakeup =>
    exact hs.wakeSem hpc

/-- An idle process goes to the first place of a call. -/
theorem call (hs : QueueInv s) (p : Fin n) (c : Call) : QueueInv (s.call p c) := by
  have hstart {pc : Pc n} (hpc : (s.procs p).pc = .idle) (hphase : pc.phase = .out)
      (hwaiter : pc.waiter = none) (hwakes : pc.wakes = []) (howed : pc.owed = false)
      (hinside : pc.inside = false) : QueueInv (s.goto p pc) := by
    have hok := hs.phase p
    rw [hpc] at hok
    refine hs.goto hpc (.same hok (fun h => ?_) hphase hwaiter hwakes) fun h => ?_
    · exact absurd (howed.symm.trans h) Bool.false_ne_true
    · exact absurd (hinside.symm.trans h) Bool.false_ne_true
  rw [Sys.call.eq_def]
  split
  case h_7 => exact hs
  all_goals exact hstart ‹_› rfl rfl rfl rfl rfl

theorem act (hs : QueueInv s) (a : Sys.Action n) : QueueInv (s.act a) := by
  cases a with
  | call p c => exact hs.call p c
  | step p => exact hs.step p
  | unlockSemaphore p => exact hs.unlockSemaphore p

theorem initial : QueueInv (Sys.initial n) where
  locked _ := nofun
  unique _ _ := nofun
  phase _ := rfl
  waiters _ := nofun
  nodup := List.nodup_nil
  pending _ _ := nofun
  waker _ := nofun
  wakes_unique _ _ _ := nofun
  wakes_nodup _ := List.nodup_nil
  token _ := nofun

end QueueInv

end PgCutover.Storage
