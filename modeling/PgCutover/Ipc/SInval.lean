import PgCutover.Lib.Runs

/-!
# Shared invalidation messages

The circular buffer of invalidation messages, the backends that insert into it and those that
read from it. Each step of a process is at most one access to shared memory, but for what is done
under both locks: nobody else can look at the buffer or at a backend's state meanwhile, so that
`SICleanupQueue` and `SIResetAll` are single events. A lock that is held only while waiting for
another is not modelled.

The counters of the source are `int`s; here they are unbounded, and an overflow is a value that is
not an `int`.
-/

namespace PgCutover.SInval

open Function

/-- The size of the circular buffer. -/
def maxNumMessages : ℤ := 4096

/-- `MSGNUMWRAPAROUND`. -/
def msgNumWraparound : ℤ := maxNumMessages * 262144

/-- `CLEANUP_MIN`. -/
def cleanupMin : ℤ := maxNumMessages / 2

/-- `CLEANUP_QUANTUM`. -/
def cleanupQuantum : ℤ := maxNumMessages / 16

/-- `SIG_THRESHOLD`. -/
def sigThreshold : ℤ := maxNumMessages / 2

/-- `WRITE_QUANTUM`. -/
def writeQuantum : ℕ := 64

/-- The state of a backend in shared memory. -/
structure ProcState where
  /-- `procPid` is not zero. -/
  active : Bool
  nextMsgNum : ℤ
  resetState : Bool
  signaled : Bool
  hasMessages : Bool
  sendOnly : Bool

/-- What a process does next. -/
inductive Pc (Msg : Type) where
  | idle
  -- `SIInsertDataEntries`
  | insertAcquire (data : List Msg)
  | insertCheck (data : List Msg)
  /-- The group's messages that are in the buffer, those to come, the later groups and `max`. -/
  | insertStore (stored todo rest : List Msg) (max : ℤ)
  /-- The backends that have still to be told. -/
  | insertFlag (todo : List ℕ) (rest : List Msg)
  -- `SIGetDataEntries`
  | getAcquire (datasize : ℕ)
  | getClear (datasize : ℕ)
  | getMax (datasize : ℕ)
  | getTest (datasize : ℕ) (max : ℤ)
  | getCopy (datasize n : ℕ) (max : ℤ)
  | getRelease

/-- What a backend gets: a message, or a reset, with the number of messages inserted by then. -/
inductive Output (Msg : Type) where
  | message (msg : Msg)
  | reset (inserted : ℕ)

/-- Auxiliary variables, which the steps only write. -/
structure History (Msg : Type) where
  /-- All messages inserted so far. -/
  log : List Msg
  /-- How much has been subtracted from the counters. -/
  base : ℕ
  /-- The number of messages inserted before the backend was registered. -/
  registered : ℕ → ℕ
  /-- The message that the backend is to get next. -/
  pos : ℕ → ℕ
  /-- What the backend has got since it was registered. -/
  output : ℕ → List (Output Msg)

structure State (Msg : Type) where
  minMsgNum : ℤ
  maxMsgNum : ℤ
  nextThreshold : ℤ
  buffer : ℕ → Msg
  /-- The slots in use, `pgprocnos` up to `numProcs`. -/
  pgprocnos : List ℕ
  procState : ℕ → ProcState
  /-- Who holds `SInvalWriteLock`. -/
  writeLock : Option ℕ
  /-- Who holds `SInvalReadLock`, in shared mode. -/
  readers : List ℕ
  pc : ℕ → Pc Msg
  hist : History Msg

variable {Msg : Type}

namespace State

/-- `CreateSharedInvalidationState`; the buffer may contain anything. -/
def init (buffer : ℕ → Msg) : State Msg where
  minMsgNum := 0
  maxMsgNum := 0
  nextThreshold := cleanupMin
  buffer := buffer
  pgprocnos := []
  procState := fun _ => ⟨false, 0, false, false, false, false⟩
  writeLock := none
  readers := []
  pc := fun _ => .idle
  hist := ⟨[], 0, fun _ => 0, fun _ => 0, fun _ => []⟩

variable (s : State Msg)

/-- The process goes to the given place. -/
@[simps] def setPc (p : ℕ) (pc : Pc Msg) : State Msg := { s with pc := update s.pc p pc }

/-- The state after a change of one backend's entry. -/
@[simps] def setProcState (p : ℕ) (stateP : ProcState) : State Msg :=
  { s with procState := update s.procState p stateP }

/-- The cell of the buffer for a message number. -/
def cell (msgNum : ℤ) : ℕ := (msgNum % maxNumMessages).toNat

/-! ### Registration and exit -/

/-- `SharedInvalBackendInit`. -/
def backendInit (p : ℕ) (sendOnly : Bool) : Option (State Msg) :=
  match s.pc p, s.writeLock with
  | .idle, none =>
    if (s.procState p).active then none
    else
      some { s with
        pgprocnos := s.pgprocnos ++ [p]
        procState := update s.procState p ⟨true, s.maxMsgNum, false, false, false, sendOnly⟩
        hist := { s.hist with
          registered := update s.hist.registered p s.hist.log.length
          pos := update s.hist.pos p s.hist.log.length
          output := update s.hist.output p [] } }
  | _, _ => none

/-- The entry is replaced by the last one. -/
def removeProcno (p : ℕ) (pgprocnos : List ℕ) : List ℕ :=
  match pgprocnos.getLast? with
  | none => []
  | some last => (pgprocnos.map fun i => if i = p then last else i).dropLast

/-- `CleanupInvalidationState`. -/
def cleanupInvalidationState (p : ℕ) : Option (State Msg) :=
  match s.pc p, s.writeLock with
  | .idle, none =>
    if (s.procState p).active then
      some { s with
        pgprocnos := removeProcno p s.pgprocnos
        procState := update s.procState p { s.procState p with
          active := false, nextMsgNum := 0, resetState := false, signaled := false } }
    else none
  | _, _ => none

/-! ### Cleanup -/

/-- The variables of the loop over all backends. -/
structure Scan where
  procState : ℕ → ProcState
  min : ℤ
  minsig : ℤ
  needSig : Option ℕ

/-- One round of the loop. -/
def scanEntry (lowbound : ℤ) (scan : Scan) (i : ℕ) : Scan :=
  let stateP := scan.procState i
  let n := stateP.nextMsgNum
  if stateP.resetState || stateP.sendOnly then scan
  else if n < lowbound then
    { scan with procState := update scan.procState i { stateP with resetState := true } }
  else
    let scan := if n < scan.min then { scan with min := n } else scan
    if n < scan.minsig ∧ stateP.signaled = false then { scan with minsig := n, needSig := some i }
    else scan

/-- The scan of `SICleanupQueue` over all backends. -/
def scanAll (minFree : ℤ) : Scan :=
  s.pgprocnos.foldl (scanEntry (s.maxMsgNum - maxNumMessages + minFree))
    ⟨s.procState, s.maxMsgNum, s.maxMsgNum - sigThreshold, none⟩

/-- The message numbers of all backends are decremented. -/
def decrementAll (pgprocnos : List ℕ) (procState : ℕ → ProcState) : ℕ → ProcState :=
  pgprocnos.foldl (fun procState i => update procState i { procState i with
    nextMsgNum := (procState i).nextMsgNum - msgNumWraparound }) procState

/-- All message counters are decremented when they are large. -/
def wraparound : State Msg :=
  if s.minMsgNum ≥ msgNumWraparound then
    { s with
      minMsgNum := s.minMsgNum - msgNumWraparound
      maxMsgNum := s.maxMsgNum - msgNumWraparound
      procState := decrementAll s.pgprocnos s.procState
      hist := { s.hist with base := s.hist.base + msgNumWraparound.toNat } }
  else s

/-- The next threshold of `SICleanupQueue`. -/
def setThreshold : State Msg :=
  let numMsgs := s.maxMsgNum - s.minMsgNum
  if numMsgs < cleanupMin then { s with nextThreshold := cleanupMin }
  else { s with nextThreshold := (numMsgs / cleanupQuantum + 1) * cleanupQuantum }

/-- The backend that is to catch up is marked as signaled. -/
def markSignaled : Option ℕ → State Msg
  | none => s
  | some i => s.setProcState i { s.procState i with signaled := true }

/-- `SICleanupQueue` under both locks, and whether it has to signal a backend. -/
def siCleanupQueue (minFree : ℤ) : State Msg × Bool :=
  let scan := s.scanAll minFree
  let s := { s with procState := scan.procState, minMsgNum := scan.min }
  (s.wraparound.setThreshold.markSignaled scan.needSig, scan.needSig.isSome)

/-- `SICleanupQueue` by a process that does not hold the lock. -/
def cleanup (minFree : ℕ) : Option (State Msg) :=
  match s.writeLock, s.readers with
  | none, [] => some (s.siCleanupQueue minFree).1
  | _, _ => none

/-- The loop of `SIResetAll`. -/
def resetEntries (pgprocnos : List ℕ) (procState : ℕ → ProcState) : ℕ → ProcState :=
  pgprocnos.foldl (fun procState i =>
    if (procState i).sendOnly then procState
    else update procState i { procState i with resetState := true, hasMessages := true }) procState

/-- `SIResetAll`. -/
def siResetAll : Option (State Msg) :=
  match s.writeLock, s.readers with
  | none, [] =>
    some { s with
      procState := resetEntries s.pgprocnos s.procState
      minMsgNum := s.maxMsgNum
      nextThreshold := cleanupMin }
  | _, _ => none

/-! ### Inserting messages -/

/-- The head of the loop over groups of messages. -/
def insertLoop (data : List Msg) : Pc Msg :=
  if data.isEmpty then .idle else .insertAcquire data

/-- `SIInsertDataEntries` is called. -/
def insert (p : ℕ) (data : List Msg) : Option (State Msg) :=
  match s.pc p with
  | .idle => some (s.setPc p (insertLoop data))
  | _ => none

/-- The number of messages of the next group. -/
def nthistime (data : List Msg) : ℕ := min data.length writeQuantum

/-- The inner loop: the queue is cleaned if it is full or has exceeded the threshold. -/
def insertCheck (p : ℕ) (data : List Msg) : Option (State Msg) :=
  let numMsgs := s.maxMsgNum - s.minMsgNum
  if numMsgs + nthistime data > maxNumMessages ∨ numMsgs ≥ s.nextThreshold then
    match s.readers with
    | [] =>
      let result := s.siCleanupQueue (nthistime data)
      -- to send a signal, the locks are released
      if result.2 then some { result.1.setPc p (.insertAcquire data) with writeLock := none }
      else some result.1
    | _ :: _ => none
  else
    some (s.setPc p (.insertStore [] (data.take (nthistime data)) (data.drop (nthistime data))
      s.maxMsgNum))

/-! ### Reading messages -/

/-- `SIGetDataEntries` is called by a backend that receives messages. -/
def get (p datasize : ℕ) : Option (State Msg) :=
  match s.pc p with
  | .idle =>
    if (s.procState p).active ∧ (s.procState p).sendOnly = false then
      if (s.procState p).hasMessages then some (s.setPc p (.getAcquire datasize)) else some s
    else none
  | _ => none

/-- The backend gets something, and goes on at another message. -/
@[simps] def setOutput (p : ℕ) (output : Output Msg) (pos : ℕ) : State Msg :=
  { s with hist := { s.hist with
    pos := update s.hist.pos p pos
    output := update s.hist.output p (s.hist.output p ++ [output]) } }

/-- The tests of `SIGetDataEntries` after it has read `maxMsgNum`. -/
def getTest (p datasize : ℕ) (max : ℤ) : State Msg :=
  if (s.procState p).resetState then
    ((s.setProcState p { s.procState p with
      nextMsgNum := max, resetState := false, signaled := false }).setOutput p
        (.reset s.hist.log.length) (s.hist.base + max).toNat).setPc p .getRelease
  else s.setPc p (.getCopy datasize 0 max)

/-- One round of the loop that retrieves messages, or its end. -/
def getCopy (p datasize n : ℕ) (max : ℤ) : State Msg :=
  let stateP := s.procState p
  if n < datasize ∧ stateP.nextMsgNum < max then
    ((s.setProcState p { stateP with nextMsgNum := stateP.nextMsgNum + 1 }).setOutput p
      (.message (s.buffer (cell stateP.nextMsgNum))) (s.hist.pos p + 1)).setPc p
        (.getCopy datasize (n + 1) max)
  else if stateP.nextMsgNum ≥ max then
    (s.setProcState p { stateP with signaled := false }).setPc p .getRelease
  else (s.setProcState p { stateP with hasMessages := true }).setPc p .getRelease

/-! ### The next step of a process -/

/-- The next step of a process. -/
def advance (p : ℕ) : Option (State Msg) :=
  match s.pc p with
  | .idle => none
  | .insertAcquire data =>
    match s.writeLock with
    | none => some { s.setPc p (.insertCheck data) with writeLock := some p }
    | some _ => none
  | .insertCheck data => s.insertCheck p data
  | .insertStore stored (msg :: todo) rest max =>
    some { s.setPc p (.insertStore (stored ++ [msg]) todo rest (max + 1)) with
      buffer := update s.buffer (cell max) msg }
  | .insertStore stored [] rest max =>
    some { s.setPc p (.insertFlag s.pgprocnos rest) with
      maxMsgNum := max
      hist := { s.hist with log := s.hist.log ++ stored } }
  | .insertFlag (i :: todo) rest =>
    some ((s.setProcState i { s.procState i with hasMessages := true }).setPc p
      (.insertFlag todo rest))
  | .insertFlag [] rest => some { s.setPc p (insertLoop rest) with writeLock := none }
  | .getAcquire datasize =>
    some { s.setPc p (.getClear datasize) with readers := p :: s.readers }
  | .getClear datasize =>
    some ((s.setProcState p { s.procState p with hasMessages := false }).setPc p
      (.getMax datasize))
  | .getMax datasize => some (s.setPc p (.getTest datasize s.maxMsgNum))
  | .getTest datasize max => some (s.getTest p datasize max)
  | .getCopy datasize n max => some (s.getCopy p datasize n max)
  | .getRelease => some { s.setPc p .idle with readers := s.readers.erase p }

end State

/-- What can happen next. -/
inductive Event (Msg : Type) where
  | init (p : ℕ) (sendOnly : Bool)
  | exit (p : ℕ)
  | insert (p : ℕ) (data : List Msg)
  | get (p datasize : ℕ)
  | advance (p : ℕ)
  | cleanup (minFree : ℕ)
  | resetAll

/-- The state after an event that is possible. -/
def step (s : State Msg) : Event Msg → Option (State Msg)
  | .init p sendOnly => s.backendInit p sendOnly
  | .exit p => s.cleanupInvalidationState p
  | .insert p data => s.insert p data
  | .get p datasize => s.get p datasize
  | .advance p => s.advance p
  | .cleanup minFree => s.cleanup minFree
  | .resetAll => s.siResetAll

end PgCutover.SInval
