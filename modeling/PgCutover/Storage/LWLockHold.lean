import PgCutover.Storage.LWLockQueueSteps

/-!
# Who holds a lightweight lock

The part of the state word under `LW_LOCK_MASK` is the sum of what the holders have added, so an
exclusive holder is alone.
-/

namespace PgCutover.Storage

open Function

variable {n : ℕ} {s s' : Sys n} {p q : Fin n}

/-- What a holder has added to the state word. -/
def heldVal : Option LockMode → ℕ
  | none => 0
  | some mode => lwVal mode

/-- The calls that acquire the lock. -/
def Waiter.Locks : Waiter → Prop
  | .acquire _ | .acquireOrWait _ => True
  | .waitForVar _ => False

/-- Whether a process can hold the lock where it is. -/
def HoldOk : Pc n → Option LockMode → Prop
  | .test .., held | .conditional _, held | .queueLock _, held
  | .queue _, held | .queueUnlock _, held | .sleep _, held | .awake _, held
  | .retryReleaseOk _, held => held = none
  | .testVar w _ _, held | .queuedReleaseOk w, held => ¬ w.Locks ∧ held = none
  | .dequeueLock w, held | .dequeue w, held | .dequeueUnlock w _, held
  | .dequeueReleaseOk w, held => w.Locks → held ≠ none
  | _, _ => True

/-- The state word is the sum over the holders, and an exclusive holder is alone. -/
structure HoldInv (s : Sys n) : Prop where
  lockVal : s.lockVal = ∑ q, heldVal (s.procs q).held
  exclusive : ∀ q r, (s.procs q).held = some .exclusive → (s.procs r).held ≠ none → r = q
  place : ∀ q, HoldOk (s.procs q).pc (s.procs q).held

namespace HoldInv

section

variable (hs : HoldInv s)
include hs

/-- An exclusive holder is alone, so the word is its value. -/
theorem lockVal_of_exclusive (hq : (s.procs q).held = some .exclusive) :
    s.lockVal = 2 ^ 24 := by
  rw [hs.lockVal, Finset.sum_eq_single q]
  · rw [hq]
    rfl
  · intro r _ hr
    have hnone : (s.procs r).held = none := by
      by_contra hheld
      exact hr (hs.exclusive q r hq hheld)
    rw [hnone]
    rfl
  · exact fun h => absurd (Finset.mem_univ q) h

/-- Shared holders add one each. -/
theorem lockVal_le (hq : ∀ q, (s.procs q).held ≠ some .exclusive) :
    s.lockVal ≤ n := by
  have hone (q : Fin n) : heldVal (s.procs q).held ≤ 1 := by
    cases hheld : (s.procs q).held with
    | none => exact Nat.zero_le 1
    | some mode =>
      cases mode with
      | exclusive => exact absurd hheld (hq q)
      | shared => exact Nat.le_refl 1
  calc s.lockVal = ∑ q, heldVal (s.procs q).held := hs.lockVal
    _ ≤ ∑ _q : Fin n, 1 := Finset.sum_le_sum fun q _ => hone q
    _ = n := by simp

/-- A lock that is held is not free. -/
theorem lockVal_ne_zero (hq : (s.procs q).held ≠ none) : s.lockVal ≠ 0 := by
  intro hzero
  rw [hs.lockVal, Finset.sum_eq_zero_iff] at hzero
  have hval := hzero q (Finset.mem_univ q)
  cases hheld : (s.procs q).held with
  | none => exact hq hheld
  | some mode =>
    rw [hheld] at hval
    cases mode <;> nomatch hval

omit hs in
/-- A word that is free for an exclusive lock has no holder. -/
theorem held_eq_none (hn : n < 2 ^ 24) (hs : HoldInv s) (hfree : s.lockVal % 2 ^ 25 = 0)
    (q : Fin n) : (s.procs q).held = none := by
  by_contra hheld
  have hpos := hs.lockVal_ne_zero hheld
  by_cases hexclusive : ∃ r, (s.procs r).held = some .exclusive
  · obtain ⟨r, hr⟩ := hexclusive
    have hval := hs.lockVal_of_exclusive hr
    omega
  · have hval := hs.lockVal_le fun r hr => hexclusive ⟨r, hr⟩
    omega

/-- The test for a shared lock succeeds only if nobody holds it exclusively. -/
theorem held_ne_exclusive (hfree : s.lockVal / 2 ^ 24 % 2 = 0) (q : Fin n) :
    (s.procs q).held ≠ some .exclusive := by
  intro hq
  have hval := hs.lockVal_of_exclusive hq
  omega

/-- A step that keeps the holders. -/
theorem congr (hlock : s'.lockVal = s.lockVal)
    (hheld : ∀ q, (s'.procs q).held = (s.procs q).held)
    (hplace : ∀ q, HoldOk (s'.procs q).pc (s.procs q).held) : HoldInv s' where
  lockVal := by
    rw [hlock, hs.lockVal]
    exact Finset.sum_congr rfl fun q _ => by rw [hheld]
  exclusive q r hq hr := hs.exclusive q r (hheld q ▸ hq) (hheld r ▸ hr)
  place q := by
    rw [hheld]
    exact hplace q

/-- A step that changes neither the word nor what is held. -/
theorem set {f : PGProc n → PGProc n} {locked hasWaiters releaseOk : Bool}
    {waiters : List (Fin n)} {var : ℕ} (hheld : (f (s.procs p)).held = (s.procs p).held)
    (hplace : HoldOk (f (s.procs p)).pc (s.procs p).held) :
    HoldInv (Sys.set ⟨s.lockVal, locked, hasWaiters, releaseOk, waiters, var, s.procs⟩ p f) := by
  refine hs.congr rfl (fun q => ?_) fun q => ?_ <;> by_cases hq : q = p
  · rw [hq, Sys.set_procs_self]
    exact hheld
  · rw [Sys.set_procs_of_ne f hq]
  · rw [hq, Sys.set_procs_self]
    exact hplace
  · rw [Sys.set_procs_of_ne f hq]
    exact hs.place q

/-- A process goes on without touching the word. -/
theorem goto {pc : Pc n} {locked hasWaiters releaseOk : Bool}
    {waiters : List (Fin n)} {var : ℕ} (hplace : HoldOk pc (s.procs p).held) :
    HoldInv (Sys.goto ⟨s.lockVal, locked, hasWaiters, releaseOk, waiters, var, s.procs⟩ p pc) :=
  hs.set rfl hplace

/-- Locking the wait list keeps the holders. -/
theorem waitListLock {pc : Pc n} (hplace : HoldOk pc (s.procs p).held) :
    HoldInv (s.waitListLock p pc) := by
  delta Sys.waitListLock
  split_ifs
  · exact hs
  · exact hs.goto hplace

/-- Waiting at the semaphore keeps the holders. -/
theorem semaphoreLock {pc : Pc n} (hplace : HoldOk pc (s.procs p).held) :
    HoldInv (s.semaphoreLock p pc) := by
  delta Sys.semaphoreLock
  split_ifs
  · exact hs.set rfl hplace
  · exact hs

/-- Waking up waiters keeps the holders. -/
theorem markPending (waiters wakeup : List (Fin n)) :
    HoldInv ({ s with waiters := waiters }.markPending wakeup) := by
  refine hs.congr rfl (fun q => ?_) fun q => ?_ <;> dsimp only [Sys.markPending] <;> split_ifs
  · rfl
  · rfl
  · exact hs.place q
  · exact hs.place q

/-- A process gets or gives up the lock, and the word changes by its value. -/
theorem setHeld {held : Option LockMode} {pc : Pc n} {lockVal : ℕ}
    (hval : lockVal + heldVal (s.procs p).held = s.lockVal + heldVal held)
    (hexclusive : ∀ q ≠ p, held = some .exclusive → (s.procs q).held = none)
    (hshared : ∀ q ≠ p, held ≠ none → (s.procs q).held ≠ some .exclusive)
    (hplace : HoldOk pc held) :
    HoldInv ({ s with lockVal := lockVal }.set p fun pr => { pr with held := held, pc := pc }) := by
  have hself : (({ s with lockVal := lockVal }.set p fun pr =>
      { pr with held := held, pc := pc }).procs p) = { s.procs p with held := held, pc := pc } :=
    Sys.set_procs_self _
  have hne {q : Fin n} (hq : q ≠ p) : (({ s with lockVal := lockVal }.set p fun pr =>
      { pr with held := held, pc := pc }).procs q) = s.procs q := Sys.set_procs_of_ne _ hq
  constructor
  case lockVal =>
    show lockVal = _
    have hsum := hs.lockVal
    rw [← Finset.add_sum_erase _ _ (Finset.mem_univ p)] at hsum ⊢
    rw [hself, Finset.sum_congr rfl fun q hq => by rw [hne (Finset.ne_of_mem_erase hq)]]
    dsimp only
    omega
  case exclusive =>
    intro q r hq hr
    by_cases hqp : q = p <;> by_cases hrp : r = p
    · exact hrp.trans hqp.symm
    · rw [hqp, hself] at hq
      rw [hne hrp] at hr
      exact absurd (hexclusive r hrp hq) hr
    · rw [hne hqp] at hq
      rw [hrp, hself] at hr
      exact absurd hq (hshared q hqp hr)
    · rw [hne hqp] at hq
      rw [hne hrp] at hr
      exact hs.exclusive q r hq hr
  case place =>
    intro q
    by_cases hqp : q = p
    · rw [hqp, hself]
      exact hplace
    · rw [hne hqp]
      exact hs.place q

omit hs in
/-- `LWLockAttemptLock` gets the lock only when it is free. -/
theorem attemptLock (hn : n < 2 ^ 24) (hs : HoldInv s) (mode : LockMode)
    {acquired mustwait : Pc n} (hheld : (s.procs p).held = none)
    (hacquired : HoldOk acquired (some mode)) (hmustwait : HoldOk mustwait none) :
    HoldInv (s.attemptLock p mode acquired mustwait) := by
  delta Sys.attemptLock
  split_ifs with hfree
  · refine hs.setHeld (by rw [hheld]; rfl) (fun q _ hmode => ?_) (fun q _ _ => ?_) hacquired
    · cases hmode
      exact hs.held_eq_none hn hfree q
    · cases mode with
      | exclusive =>
        rw [hs.held_eq_none hn hfree q]
        nofun
      | shared => exact hs.held_ne_exclusive hfree q
  · exact hs.goto (by rw [hheld]; exact hmustwait)

/-- A call begins. -/
theorem call (p : Fin n) (c : Call) : HoldInv (s.call p c) := by
  delta Sys.call
  split
  case h_7 => exact hs
  all_goals exact hs.goto (by first | assumption | trivial)

theorem unlockSemaphore (p : Fin n) :
    HoldInv (s.set p fun pr => { pr with sem := pr.sem + 1 }) :=
  hs.set rfl (hs.place p)

end

/-- Every step of a process keeps the holders consistent. -/
theorem step (hn : n < 2 ^ 24) (hs : HoldInv s) (p : Fin n) : HoldInv (s.step p) := by
  have hplace := hs.place p
  delta Sys.step
  dsimp only
  generalize (s.procs p).pc = pc at hplace ⊢
  cases pc <;> try dsimp only
  case idle | panic =>
    exact hs
  case test w queued =>
    cases w with
    | acquire mode | acquireOrWait mode =>
      refine hs.attemptLock hn mode hplace ?_ ?_ <;> cases queued
      · trivial
      · exact fun _ => nofun
      · rfl
      · rfl
    | waitForVar =>
      split_ifs
      · refine hs.goto ?_
        cases queued
        · trivial
        · exact nofun
      · exact hs.goto ⟨id, hplace⟩
  case testVar w oldval queued =>
    refine hs.goto ?_
    cases queued <;> cases decide (s.var = oldval)
    · trivial
    · exact hplace.2
    · exact fun hlocks => absurd hlocks hplace.1
    · exact hplace.2
  case conditional mode =>
    exact hs.attemptLock hn mode hplace trivial trivial
  case queueLock w =>
    split_ifs
    · exact hs.goto trivial
    · exact hs.waitListLock hplace
  case queue w =>
    exact hs.set rfl hplace
  case queueUnlock w =>
    refine hs.goto ?_
    cases w with
    | waitForVar => exact ⟨id, hplace⟩
    | _ => exact hplace
  case queuedReleaseOk w =>
    exact hs.goto hplace.2
  case sleep w =>
    exact hs.semaphoreLock hplace
  case awake w =>
    split_ifs
    · refine hs.goto ?_
      cases w with
      | acquireOrWait => trivial
      | _ => exact hplace
    · exact hs.set rfl hplace
  case retryReleaseOk w | dequeue w =>
    exact hs.goto hplace
  case dequeueLock w =>
    exact hs.waitListLock hplace
  case dequeueUnlock w onWaitlist =>
    refine hs.goto ?_
    cases onWaitlist with
    | true => trivial
    | false => exact hplace
  case dequeueClear =>
    exact hs.set rfl trivial
  case dequeueReleaseOk w | setVar val | updateUnlock wakeup | wakeupUnlock newReleaseOk wakeup =>
    exact hs.goto trivial
  case dequeueSleep extraWaits =>
    exact hs.semaphoreLock trivial
  case dequeueAwake extraWaits =>
    split_ifs <;> exact hs.goto trivial
  case dequeueFix extraWaits =>
    cases extraWaits with
    | zero => exact hs.goto trivial
    | succ => exact hs.set rfl trivial
  case finish =>
    split_ifs
    · exact hs.set rfl (hs.place p)
    · exact hs.goto trivial
  case updateLock | wakeupLock =>
    exact hs.waitListLock trivial
  case updateCollect | wakeupCollect =>
    exact (hs.markPending _ _).goto trivial
  case release =>
    cases hheld : (s.procs p).held with
    | none => exact hs.goto trivial
    | some mode =>
      have hle : lwVal mode ≤ s.lockVal := by
        rw [hs.lockVal, ← Finset.add_sum_erase _ _ (Finset.mem_univ p), hheld]
        exact Nat.le_add_right ..
      refine hs.setHeld ?_ nofun (fun _ _ h => absurd rfl h) ?_
      · rw [hheld]
        exact Nat.sub_add_cancel hle
      · split_ifs <;> trivial
  case wake wakeup =>
    cases wakeup with
    | nil => exact hs.goto trivial
    | cons q =>
      have hs' : HoldInv (s.set q fun pr => { pr with lwWaiting := .notWaiting }) :=
        hs.set rfl (hs.place q)
      exact hs'.goto trivial
  case wakeSem q wakeup =>
    exact (hs.unlockSemaphore q).goto trivial

theorem act (hn : n < 2 ^ 24) (hs : HoldInv s) (a : Sys.Action n) : HoldInv (s.act a) := by
  cases a with
  | call p c => exact hs.call p c
  | step p => exact hs.step hn p
  | unlockSemaphore p => exact hs.unlockSemaphore p

theorem initial : HoldInv (Sys.initial n) where
  lockVal := (Finset.sum_eq_zero fun _ _ => rfl).symm
  exclusive _ _ := nofun
  place _ := trivial

end HoldInv

end PgCutover.Storage
