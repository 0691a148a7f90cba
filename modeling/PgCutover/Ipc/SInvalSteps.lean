import PgCutover.Ipc.SInvalCleanup

/-!
# The steps on the queue of invalidation messages

Every event as a relation between the states before and after it, and what it leaves alone.
-/

namespace PgCutover.SInval

open Function State List

variable {Msg : Type}

/-! ### The events one by one -/

/-- The state after each event that does not clean the queue, and when it is possible. -/
inductive Move (s : State Msg) : Event Msg → State Msg → Prop where
  | init {p : ℕ} {sendOnly : Bool} (hpc : s.pc p = .idle) (hlock : s.writeLock = none)
      (hactive : (s.procState p).active = false) :
      Move s (.init p sendOnly) { s with
        pgprocnos := s.pgprocnos ++ [p]
        procState := update s.procState p ⟨true, s.maxMsgNum, false, false, false, sendOnly⟩
        hist := { s.hist with
          registered := update s.hist.registered p s.hist.log.length
          pos := update s.hist.pos p s.hist.log.length
          output := update s.hist.output p [] } }
  | exit {p : ℕ} (hpc : s.pc p = .idle) (hlock : s.writeLock = none)
      (hactive : (s.procState p).active = true) :
      Move s (.exit p) { s with
        pgprocnos := removeProcno p s.pgprocnos
        procState := update s.procState p { s.procState p with
          active := false, nextMsgNum := 0, resetState := false, signaled := false } }
  | insert {p : ℕ} {data : List Msg} (hpc : s.pc p = .idle) :
      Move s (.insert p data) (s.setPc p (insertLoop data))
  | get {p datasize : ℕ} (hpc : s.pc p = .idle) (hreceives : (s.procState p).receives = true)
      (hmessages : (s.procState p).hasMessages = true) :
      Move s (.get p datasize) (s.setPc p (.getAcquire datasize))
  | getNothing {p datasize : ℕ} (hpc : s.pc p = .idle)
      (hmessages : (s.procState p).hasMessages = false) : Move s (.get p datasize) s
  | insertAcquire {p : ℕ} {data : List Msg} (hpc : s.pc p = .insertAcquire data)
      (hlock : s.writeLock = none) :
      Move s (.advance p) { s.setPc p (.insertCheck data) with writeLock := some p }
  | insertBegin {p : ℕ} {data : List Msg} (hpc : s.pc p = .insertCheck data)
      (hfits : s.maxMsgNum - s.minMsgNum + nthistime data ≤ maxNumMessages) :
      Move s (.advance p) (s.setPc p (.insertStore [] (data.take (nthistime data))
        (data.drop (nthistime data)) s.maxMsgNum))
  | insertStore {p : ℕ} {stored todo rest : List Msg} {msg : Msg} {max : ℤ}
      (hpc : s.pc p = .insertStore stored (msg :: todo) rest max) :
      Move s (.advance p) { s.setPc p (.insertStore (stored ++ [msg]) todo rest (max + 1)) with
        buffer := update s.buffer (cell max) msg }
  | insertPublish {p : ℕ} {stored rest : List Msg} {max : ℤ}
      (hpc : s.pc p = .insertStore stored [] rest max) :
      Move s (.advance p) { s.setPc p (.insertFlag s.pgprocnos rest) with
        maxMsgNum := max
        hist := { s.hist with log := s.hist.log ++ stored } }
  | insertFlag {p i : ℕ} {todo : List ℕ} {rest : List Msg}
      (hpc : s.pc p = .insertFlag (i :: todo) rest) :
      Move s (.advance p)
        ((s.setProcState i { s.procState i with hasMessages := true }).setPc p
          (.insertFlag todo rest))
  | insertRelease {p : ℕ} {rest : List Msg} (hpc : s.pc p = .insertFlag [] rest) :
      Move s (.advance p) { s.setPc p (insertLoop rest) with writeLock := none }
  | getAcquire {p datasize : ℕ} (hpc : s.pc p = .getAcquire datasize) :
      Move s (.advance p) { s.setPc p (.getClear datasize) with readers := p :: s.readers }
  | getClear {p datasize : ℕ} (hpc : s.pc p = .getClear datasize) :
      Move s (.advance p)
        ((s.setProcState p { s.procState p with hasMessages := false }).setPc p
          (.getMax datasize))
  | getMax {p datasize : ℕ} (hpc : s.pc p = .getMax datasize) :
      Move s (.advance p) (s.setPc p (.getTest datasize s.maxMsgNum))
  | getReset {p datasize : ℕ} {max : ℤ} (hpc : s.pc p = .getTest datasize max)
      (hreset : (s.procState p).resetState = true) :
      Move s (.advance p)
        (((s.setProcState p { s.procState p with
          nextMsgNum := max, resetState := false, signaled := false }).setOutput p
            (.reset s.hist.log.length) (s.hist.base + max).toNat).setPc p .getRelease)
  | getBegin {p datasize : ℕ} {max : ℤ} (hpc : s.pc p = .getTest datasize max)
      (hreset : (s.procState p).resetState = false) :
      Move s (.advance p) (s.setPc p (.getCopy datasize 0 max))
  | getMessage {p datasize n : ℕ} {max : ℤ} (hpc : s.pc p = .getCopy datasize n max)
      (hlt : (s.procState p).nextMsgNum < max) :
      Move s (.advance p)
        (((s.setProcState p { s.procState p with
          nextMsgNum := (s.procState p).nextMsgNum + 1 }).setOutput p
            (.message (s.buffer (cell (s.procState p).nextMsgNum))) (s.hist.pos p + 1)).setPc p
              (.getCopy datasize (n + 1) max))
  | getAll {p datasize n : ℕ} {max : ℤ} (hpc : s.pc p = .getCopy datasize n max)
      (hge : max ≤ (s.procState p).nextMsgNum) :
      Move s (.advance p)
        ((s.setProcState p { s.procState p with signaled := false }).setPc p .getRelease)
  | getMore {p datasize n : ℕ} {max : ℤ} (hpc : s.pc p = .getCopy datasize n max)
      (hfull : datasize ≤ n) :
      Move s (.advance p)
        ((s.setProcState p { s.procState p with hasMessages := true }).setPc p .getRelease)
  | getRelease {p : ℕ} (hpc : s.pc p = .getRelease) :
      Move s (.advance p) { s.setPc p .idle with readers := s.readers.erase p }

/-- The events that clean the queue, under both locks. -/
inductive Cleans (s : State Msg) : Event Msg → State Msg → Prop where
  | insertSignal {p : ℕ} {data : List Msg} {minFree : ℤ} (hpc : s.pc p = .insertCheck data)
      (hfull : s.maxMsgNum - s.minMsgNum + nthistime data > maxNumMessages ∨
        s.maxMsgNum - s.minMsgNum ≥ s.nextThreshold) (hreaders : s.readers = []) :
      Cleans s (.advance p)
        { (s.siCleanupQueue minFree).1.setPc p (.insertAcquire data) with writeLock := none }
  | insertClean {p : ℕ} {data : List Msg} {minFree : ℤ} (hpc : s.pc p = .insertCheck data)
      (hfull : s.maxMsgNum - s.minMsgNum + nthistime data > maxNumMessages ∨
        s.maxMsgNum - s.minMsgNum ≥ s.nextThreshold) (hreaders : s.readers = []) :
        Cleans s (.advance p) (s.siCleanupQueue minFree).1
  | cleanup {minFree : ℕ} (hlock : s.writeLock = none) (hreaders : s.readers = []) :
      Cleans s (.cleanup minFree) (s.siCleanupQueue minFree).1
  | resetAll (hlock : s.writeLock = none) (hreaders : s.readers = []) :
      Cleans s .resetAll { s with
        procState := resetEntries s.pgprocnos s.procState
        minMsgNum := s.maxMsgNum
        nextThreshold := cleanupMin }

section Move

variable {s t : State Msg} {p : ℕ}

theorem move_of_insertCheck {data : List Msg} (hpc : s.pc p = .insertCheck data)
    (h : s.insertCheck p data = some t) :
    Move s (.advance p) t ∨ Cleans s (.advance p) t := by
  rw [State.insertCheck] at h
  dsimp only at h
  generalize hreaders : s.readers = readers at h
  split_ifs at h with hfull hsignal
  · cases readers <;> cases h
    exact .inr (.insertSignal hpc hfull hreaders)
  · cases readers <;> cases h
    exact .inr (.insertClean hpc hfull hreaders)
  · cases h
    exact .inl (.insertBegin hpc (by omega))

theorem move_getTest {datasize : ℕ} {max : ℤ} (hpc : s.pc p = .getTest datasize max) :
    Move s (.advance p) (s.getTest p datasize max) := by
  rw [State.getTest]
  split_ifs with hreset
  · exact .getReset hpc hreset
  · exact .getBegin hpc (Bool.not_eq_true _ ▸ hreset)

theorem move_getCopy {datasize n : ℕ} {max : ℤ} (hpc : s.pc p = .getCopy datasize n max) :
    Move s (.advance p) (s.getCopy p datasize n max) := by
  rw [State.getCopy]
  split_ifs with hmore hall
  · exact .getMessage hpc hmore.2
  · exact .getAll hpc hall
  · exact .getMore hpc (by omega)

theorem move_of_advance (h : s.advance p = some t) :
    Move s (.advance p) t ∨ Cleans s (.advance p) t := by
  rw [State.advance.eq_def] at h
  generalize hpc : s.pc p = pc at h
  cases pc with
  | idle => cases h
  | insertAcquire =>
    dsimp only at h
    generalize hlock : s.writeLock = writeLock at h
    cases writeLock <;> cases h
    exact .inl (.insertAcquire hpc hlock)
  | insertCheck => exact move_of_insertCheck hpc h
  | insertStore _ todo =>
    cases todo with
    | nil =>
      cases h
      exact .inl (.insertPublish hpc)
    | cons =>
      cases h
      exact .inl (.insertStore hpc)
  | insertFlag todo =>
    cases todo with
    | nil =>
      cases h
      exact .inl (.insertRelease hpc)
    | cons =>
      cases h
      exact .inl (.insertFlag hpc)
  | getAcquire =>
    cases h
    exact .inl (.getAcquire hpc)
  | getClear =>
    cases h
    exact .inl (.getClear hpc)
  | getMax =>
    cases h
    exact .inl (.getMax hpc)
  | getTest =>
    cases h
    exact .inl (move_getTest hpc)
  | getCopy =>
    cases h
    exact .inl (move_getCopy hpc)
  | getRelease =>
    cases h
    exact .inl (.getRelease hpc)

/-- Every step is one of these. -/
theorem move_of_step {e : Event Msg} (h : step s e = some t) : Move s e t ∨ Cleans s e t := by
  cases e with
  | init p =>
    rw [step, State.backendInit.eq_def] at h
    cases hpc : s.pc p <;> cases hlock : s.writeLock <;> simp only [hpc, hlock] at h <;>
      try cases h
    split_ifs at h with hactive
    cases h
    left
    simpa only [hlock] using Move.init hpc hlock (Bool.not_eq_true _ ▸ hactive)
  | exit p =>
    rw [step, State.cleanupInvalidationState.eq_def] at h
    cases hpc : s.pc p <;> cases hlock : s.writeLock <;> simp only [hpc, hlock] at h <;>
      try cases h
    split_ifs at h with hactive
    cases h
    left
    simpa only [hlock] using Move.exit hpc hlock hactive
  | insert p =>
    rw [step, State.insert.eq_def] at h
    cases hpc : s.pc p <;> simp only [hpc] at h <;> try cases h
    exact .inl (.insert hpc)
  | get p =>
    rw [step, State.get.eq_def] at h
    cases hpc : s.pc p <;> simp only [hpc] at h <;> try cases h
    split_ifs at h with hreceives hmessages
    all_goals cases h
    · exact .inl (.get hpc (by simp [ProcState.receives, hreceives]) hmessages)
    · exact .inl (.getNothing hpc (Bool.not_eq_true _ ▸ hmessages))
  | advance => exact move_of_advance h
  | cleanup =>
    rw [step, State.cleanup.eq_def] at h
    cases hlock : s.writeLock <;> cases hreaders : s.readers <;>
      simp only [hlock, hreaders] at h <;> try cases h
    exact .inr (.cleanup hlock hreaders)
  | resetAll =>
    rw [step, State.siResetAll.eq_def] at h
    cases hlock : s.writeLock <;> cases hreaders : s.readers <;>
      simp only [hlock, hreaders] at h <;> try cases h
    right
    simpa only [hlock, hreaders] using Cleans.resetAll hlock hreaders

end Move

/-! ### What a step leaves alone -/

/-- The process that takes the step. -/
def Event.actor : Event Msg → Option ℕ
  | .init p _ | .exit p | .insert p _ | .get p _ | .advance p => some p
  | .cleanup _ | .resetAll => none

/-- The process holds `SInvalWriteLock`. -/
def Pc.writes : Pc Msg → Bool
  | .insertCheck _ | .insertStore _ _ _ _ | .insertFlag _ _ => true
  | _ => false

/-- The process holds `SInvalReadLock`. -/
def Pc.reads : Pc Msg → Bool
  | .getClear _ | .getMax _ | .getTest _ _ | .getCopy _ _ _ | .getRelease => true
  | _ => false

theorem insertLoop_eq (data : List Msg) :
    insertLoop data = .idle ∨ insertLoop data = .insertAcquire data := by
  rw [insertLoop]
  split_ifs
  · exact .inl rfl
  · exact .inr rfl

/-- What is known about a process in `s` is still so in `t`. -/
structure Keeps (s t : State Msg) (q : ℕ) : Prop where
  pc : t.pc q = s.pc q
  active : (t.procState q).active = (s.procState q).active
  nextMsgNum : (t.procState q).nextMsgNum = (s.procState q).nextMsgNum
  resetState : (t.procState q).resetState = (s.procState q).resetState
  sendOnly : (t.procState q).sendOnly = (s.procState q).sendOnly
  hasMessages : (s.procState q).hasMessages = true → (t.procState q).hasMessages = true
  min : t.minMsgNum = s.minMsgNum
  max : s.maxMsgNum ≤ t.maxMsgNum
  base : t.hist.base = s.hist.base
  log : s.hist.log <+: t.hist.log
  registered : t.hist.registered q = s.hist.registered q
  pos : t.hist.pos q = s.hist.pos q
  output : t.hist.output q = s.hist.output q
  readers : q ∈ s.readers → q ∈ t.readers
  /-- Nobody else writes while the process holds the lock. -/
  writeLock : s.writeLock = some q → t.writeLock = some q ∧ t.maxMsgNum = s.maxMsgNum ∧
    t.buffer = s.buffer ∧ t.hist.log = s.hist.log

theorem Keeps.receives {s t : State Msg} {q : ℕ} (h : Keeps s t q) :
    (t.procState q).receives = (s.procState q).receives := by
  rw [ProcState.receives, ProcState.receives, h.active, h.sendOnly]

/-- What cleaning the queue and resetting all backends do, where `d` is subtracted from all
counters. -/
structure Cleaned (s t : State Msg) (d : ℕ) : Prop where
  pc : t.pc = s.pc
  buffer : t.buffer = s.buffer
  pgprocnos : t.pgprocnos = s.pgprocnos
  writeLock : t.writeLock = s.writeLock
  readers : t.readers = s.readers
  log : t.hist.log = s.hist.log
  registered : t.hist.registered = s.hist.registered
  pos : t.hist.pos = s.hist.pos
  output : t.hist.output = s.hist.output
  dvd : 4096 ∣ d
  base : t.hist.base = s.hist.base + d
  max : t.maxMsgNum = s.maxMsgNum - d
  min_nonneg : 0 ≤ t.minMsgNum
  le_min : s.minMsgNum ≤ t.minMsgNum + d
  min_le : t.minMsgNum ≤ t.maxMsgNum
  active (q : ℕ) : (t.procState q).active = (s.procState q).active
  sendOnly (q : ℕ) : (t.procState q).sendOnly = (s.procState q).sendOnly
  hasMessages (q : ℕ) : (s.procState q).hasMessages = true → (t.procState q).hasMessages = true
  resetState (q : ℕ) : (s.procState q).resetState = true → (t.procState q).resetState = true
  nextMsgNum (q : ℕ) : (t.procState q).nextMsgNum =
    (s.procState q).nextMsgNum - (if q ∈ s.pgprocnos then (d : ℤ) else 0)
  min_le_next (q : ℕ) : q ∈ s.pgprocnos → (t.procState q).counts = true →
    t.minMsgNum ≤ (t.procState q).nextMsgNum

section Keeps

variable {s t : State Msg} {e : Event Msg} {p q : ℕ}

@[simp] theorem setPc_buffer_eq (pc : Pc Msg) : (s.setPc p pc).buffer = s.buffer := rfl

@[simp] theorem setProcState_buffer_eq (stateP : ProcState) :
    (s.setProcState p stateP).buffer = s.buffer := rfl

@[simp] theorem setOutput_buffer_eq (output : Output Msg) (pos : ℕ) :
    (s.setOutput p output pos).buffer = s.buffer := rfl

/-- A step of one process keeps the others, unless it cleans the queue. -/
theorem Move.keeps (h : Move s e t) (hq : e.actor ≠ some q)
    (hwrites : ∀ p, (s.pc p).writes = true → s.writeLock = some p)
    (hmax : ∀ p stored todo rest max, s.pc p = .insertStore stored todo rest max →
      s.maxMsgNum ≤ max) :
    Keeps s t q := by
  have hwrites' : ∀ p, (s.pc p).writes = true → q ≠ p → s.writeLock ≠ some q := by
    intro p hp hqp h
    rw [hwrites p hp] at h
    exact hqp (Option.some.inj h).symm
  cases h
  all_goals
    have hqp : ¬ q = _ := fun h => hq (congrArg some h.symm)
  -- the writer changes what belongs to the lock, which the other process does not hold
  case insertStore hpc | insertRelease hpc =>
    have hlock := hwrites' _ (by rw [hpc]; rfl) hqp
    constructor <;> simp [hqp, hlock]
  case insertPublish hpc =>
    have hlock := hwrites' _ (by rw [hpc]; rfl) hqp
    have hmax := hmax _ _ _ _ _ hpc
    constructor <;> simp [hqp, hlock, hmax]
  case insertFlag i _ _ hpc =>
    by_cases hi : q = i
    · subst hi
      constructor <;> simp [hqp]
    · constructor <;> simp [hqp, hi]
  case insertAcquire hlock =>
    constructor <;> simp [hqp, hlock]
  all_goals constructor <;> simp [hqp]

end Keeps

/-! ### The steps that clean the queue -/

section Cleaned

variable {s t : State Msg} {d : ℕ}

theorem Cleaned.setThreshold (h : Cleaned s t d) : Cleaned s t.setThreshold d := by
  rw [State.setThreshold]
  split_ifs <;> exact { h with }

theorem signaled_markSignaled (sig : Option ℕ) (q : ℕ) :
    ∃ signaled, (t.markSignaled sig).procState q = { t.procState q with signaled := signaled } := by
  cases sig with
  | none => exact ⟨_, rfl⟩
  | some i =>
    by_cases hq : q = i
    · subst hq
      exact ⟨true, update_self ..⟩
    · exact ⟨_, update_of_ne hq ..⟩

theorem Cleaned.markSignaled (h : Cleaned s t d) (sig : Option ℕ) :
    Cleaned s (t.markSignaled sig) d := by
  have hproc := @signaled_markSignaled Msg t sig
  cases sig with
  | none => exact h
  | some =>
    refine { h with active := ?_, sendOnly := ?_, hasMessages := ?_, resetState := ?_,
                    nextMsgNum := ?_, min_le_next := ?_ }
    all_goals
      intro q
      obtain ⟨b, hb⟩ := hproc q
      rw [hb]
    exacts [h.active q, h.sendOnly q, h.hasMessages q, h.resetState q, h.nextMsgNum q,
      h.min_le_next q]

theorem setThreshold_minMsgNum : t.setThreshold.minMsgNum = t.minMsgNum := by
  rw [State.setThreshold]
  split_ifs <;> rfl

theorem markSignaled_minMsgNum (sig : Option ℕ) : (t.markSignaled sig).minMsgNum = t.minMsgNum := by
  cases sig <;> rfl

/-- The minimum is moved up, and backends may be put into reset state. -/
theorem cleaned_mayReset {procState : ℕ → ProcState} {min : ℤ} (nextThreshold : ℤ)
    (hmin : 0 ≤ s.minMsgNum) (hlow : s.minMsgNum ≤ min) (hle : min ≤ s.maxMsgNum)
    (hreset : ∀ q, MayReset (s.procState q) (procState q))
    (hcounts : ∀ q ∈ s.pgprocnos, (procState q).counts = true →
      min ≤ (s.procState q).nextMsgNum) :
    Cleaned s { s with procState, minMsgNum := min, nextThreshold } 0 := by
  refine ⟨rfl, rfl, rfl, rfl, rfl, rfl, rfl, rfl, rfl, Nat.dvd_zero _, rfl, ?_, ?_, ?_, hle,
    fun q => (hreset q).active, fun q => (hreset q).sendOnly, fun q => (hreset q).hasMessages,
    fun q => (hreset q).resetState, ?_, ?_⟩
  · exact (Int.sub_zero _).symm
  · exact Int.le_trans hmin hlow
  · exact Int.le_trans hlow (Int.le_of_eq (Int.add_zero _).symm)
  · intro q
    rw [(hreset q).nextMsgNum]
    split_ifs <;> exact (Int.sub_zero _).symm
  · intro q hq hc
    rw [(hreset q).nextMsgNum]
    exact hcounts q hq hc

/-- The scan moves the minimum up, and puts those who are too far behind into reset state. -/
theorem cleaned_scanAll (hmin : 0 ≤ s.minMsgNum) (hle : s.minMsgNum ≤ s.maxMsgNum)
    (hcounts : ∀ q ∈ s.pgprocnos, (s.procState q).counts = true →
      s.minMsgNum ≤ (s.procState q).nextMsgNum) (minFree : ℤ) :
    Cleaned s { s with procState := (s.scanAll minFree).procState,
                       minMsgNum := (s.scanAll minFree).min } 0 :=
  cleaned_mayReset _ hmin (le_scanAll_min hle hcounts) scanAll_min_le
    (@scanAll_mayReset _ ⟨s.procState, _, _, none⟩ _) fun _ => scanAll_min_le_next

theorem Cleaned.wraparound (h : Cleaned s t 0) (hnodup : s.pgprocnos.Nodup) :
    ∃ d : ℕ, Cleaned s t.wraparound d ∧ (d = 0 ∨ (d : ℤ) = msgNumWraparound) ∧
      (s.maxMsgNum < 2 * msgNumWraparound → t.wraparound.minMsgNum < msgNumWraparound) := by
  have hmax := h.max
  have hlow := h.le_min
  have hmin := h.min_le
  have hd : ((msgNumWraparound.toNat : ℕ) : ℤ) = msgNumWraparound := rfl
  rw [State.wraparound]
  split_ifs with hlarge
  · refine ⟨msgNumWraparound.toNat, ?_, .inr hd, fun hlt => by dsimp only; omega⟩
    have hproc := decrementAll_apply (h.pgprocnos ▸ hnodup) t.procState
    rw [h.pgprocnos] at hproc
    refine { h with dvd := ?_, base := ?_, max := ?_, min_nonneg := ?_, le_min := ?_,
                    min_le := ?_, active := ?_, sendOnly := ?_, hasMessages := ?_,
                    resetState := ?_, nextMsgNum := ?_, min_le_next := ?_ }
    · exact ⟨262144, rfl⟩
    · exact congrArg (· + msgNumWraparound.toNat) h.base
    · dsimp only
      omega
    · dsimp only
      omega
    · dsimp only
      omega
    · dsimp only
      omega
    all_goals
      intro q
      have hnext := h.nextMsgNum q
      have hcounts := h.min_le_next q
      dsimp only
      rw [h.pgprocnos, hproc q]
      by_cases hq : q ∈ s.pgprocnos
      · simp only [hq, if_true] at hnext hcounts ⊢
        first
        | exact h.active q
        | exact h.sendOnly q
        | exact h.hasMessages q
        | exact h.resetState q
        | omega
        | exact fun _ hc => by have := hcounts trivial hc; omega
      · simp only [hq, if_false] at hnext ⊢
        first
        | exact h.active q
        | exact h.sendOnly q
        | exact h.hasMessages q
        | exact h.resetState q
        | exact hnext
        | exact fun hq => hq.elim
  · exact ⟨0, h, .inl rfl, fun _ => by omega⟩

/-- `SICleanupQueue` moves the counters together. -/
theorem cleaned_siCleanupQueue (hnodup : s.pgprocnos.Nodup) (hmin : 0 ≤ s.minMsgNum)
    (hle : s.minMsgNum ≤ s.maxMsgNum)
    (hcounts : ∀ q ∈ s.pgprocnos, (s.procState q).counts = true →
      s.minMsgNum ≤ (s.procState q).nextMsgNum) (minFree : ℤ) :
    ∃ d : ℕ, Cleaned s (s.siCleanupQueue minFree).1 d ∧ (d = 0 ∨ (d : ℤ) = msgNumWraparound) ∧
      (s.maxMsgNum < 2 * msgNumWraparound →
        (s.siCleanupQueue minFree).1.minMsgNum < msgNumWraparound) := by
  obtain ⟨d, hcleaned, hd, hlt⟩ := (cleaned_scanAll hmin hle hcounts minFree).wraparound hnodup
  refine ⟨d, hcleaned.setThreshold.markSignaled _, hd, fun h => ?_⟩
  rw [siCleanupQueue]
  rw [markSignaled_minMsgNum, setThreshold_minMsgNum]
  exact hlt h

/-- `SIResetAll` leaves no backend that has messages to read. -/
theorem cleaned_resetAll (hmin : 0 ≤ s.minMsgNum) (hle : s.minMsgNum ≤ s.maxMsgNum) :
    Cleaned s { s with
      procState := resetEntries s.pgprocnos s.procState
      minMsgNum := s.maxMsgNum
      nextThreshold := cleanupMin } 0 := by
  have hreset := resetEntries_mayReset s.pgprocnos s.procState
  refine cleaned_mayReset _ hmin hle (Int.le_refl _) hreset fun q hq hcounts => ?_
  rw [ProcState.counts, Bool.and_eq_true, Bool.not_eq_true', Bool.not_eq_true',
    (hreset q).sendOnly] at hcounts
  rw [resetEntries_resetState hq hcounts.2] at hcounts
  cases hcounts.1

end Cleaned

end PgCutover.SInval
