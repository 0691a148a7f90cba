import PgCutover.Lib.Runs

/-!
# Process signal barriers

The slots of shared memory, the processes that register in them and absorb barriers, and the
calls that emit a barrier or wait for one. Each event is at most one access to shared memory. A
wait that finds a slot behind sleeps on the slot's condition variable and reads again; as the
sleep has a timeout, the wait may read again at any time.
-/

namespace PgCutover.ProcSignal

open Function

/-- The kinds of barriers. -/
inductive ProcSignalBarrierType where
  | smgrRelease
  deriving DecidableEq

namespace ProcSignalBarrierType

/-- The number of the enumerator, which is the position of its bit. -/
def toNat : ProcSignalBarrierType → ℕ
  | smgrRelease => 0

/-- The kind with the given bit. -/
def ofNat? : ℕ → Option ProcSignalBarrierType
  | 0 => some smgrRelease
  | _ => none

end ProcSignalBarrierType

/-! ### Check masks -/

/-- `((uint32) 1) << (uint32) (type)`. -/
def flagbit (pos : ℕ) : BitVec 32 := 1#32 <<< pos

/-- `BARRIER_CLEAR_BIT`. -/
def barrierClearBit (flags : BitVec 32) (pos : ℕ) : BitVec 32 := flags &&& ~~~flagbit pos

/-- `pg_rightmost_one_pos32`, of a word that may be zero. -/
def rightmostOnePos32 (word : BitVec 32) : Option ℕ :=
  (List.range 32).find? fun pos => word.getLsbD pos

/-! ### Shared memory and processes -/

/-- The slot of a process in shared memory. -/
structure ProcSignalSlot where
  /-- `none` for zero. -/
  pid : Option ℕ
  /-- The entry of `pss_signalFlags` for `PROCSIG_BARRIER`. -/
  barrierFlag : Bool
  barrierGeneration : UInt64
  barrierCheckMask : BitVec 32

/-- The generation of a slot that nobody has to wait for. -/
def pgUint64Max : UInt64 := 18446744073709551615

/-- What a process does next. -/
inductive Pc where
  /-- Not started yet. -/
  | unborn
  -- `ProcSignalInit`
  | initFlags
  | initMask
  | initRead
  | initGeneration (generation : UInt64)
  | initPid
  /-- Registered and not in any of the functions. -/
  | idle
  -- `ProcessProcSignalBarrier`
  | readLocal
  | readShared (localGen : UInt64)
  | exchange (sharedGen : UInt64)
  | handle (sharedGen : UInt64) (flags : BitVec 32) (success : Bool)
  | advertise (sharedGen : UInt64)
  -- `CleanupProcSignalState`
  | cleanupCheck
  | cleanupGeneration
  | cleanupPid
  | dead

/-- The process is registered and its exit does not run yet. -/
def Pc.registered : Pc → Bool
  | .idle | .readLocal | .readShared _ | .exchange _ | .handle .. | .advertise _ => true
  | _ => false

/-- What a process itself knows. -/
structure Process where
  myProcNumber : ℕ
  pc : Pc
  /-- A `SIGUSR1` is to be delivered. -/
  signalled : Bool
  /-- `ProcSignalBarrierPending`. -/
  barrierPending : Bool

/-- What a function that processes a barrier does. -/
inductive Outcome where
  | processed
  | notProcessed
  | error
  deriving DecidableEq

/-- A call of `EmitProcSignalBarrier` or `WaitForProcSignalBarrier`. -/
inductive Call where
  | none
  /-- The flags of the slots before `i` are set. -/
  | setting (type : ProcSignalBarrierType) (i : ℕ)
  /-- The processes of the slots before `i` are still to be signalled. -/
  | signalling (generation : UInt64) (i : ℕ)
  | flagging (generation : UInt64) (i pid : ℕ)
  | killing (generation : UInt64) (i pid : ℕ)
  | emitted (generation : UInt64)
  /-- The slots before `i` are still to be waited for. -/
  | waiting (generation : UInt64) (i : ℕ)
  | waited (generation : UInt64)

/-- The shared memory, the processes, and the calls under way. -/
structure State where
  /-- `psh_barrierGeneration`. -/
  barrierGeneration : UInt64
  slots : ℕ → ProcSignalSlot
  /-- Which process has the proc number, from its start until it is gone. -/
  owner : ℕ → Option ℕ
  procs : ℕ → Process
  calls : ℕ → Call

namespace State

variable (s : State)

/-- Shared memory after a store into a slot. -/
@[simps] def setSlot (i : ℕ) (slot : ProcSignalSlot) : State :=
  { s with slots := update s.slots i slot }

/-- The state after a change of what a process knows. -/
@[simps] def setProc (p : ℕ) (proc : Process) : State := { s with procs := update s.procs p proc }

/-- The process goes to the given place. -/
@[simps] def setPc (p : ℕ) (pc : Pc) : State :=
  { s with procs := update s.procs p { s.procs p with pc := pc } }

/-- The call goes to the given place. -/
@[simps] def setCall (k : ℕ) (call : Call) : State := { s with calls := update s.calls k call }

/-- The slot of the process. -/
def slotOf (p : ℕ) : ProcSignalSlot := s.slots (s.procs p).myProcNumber

/-- Shared memory after a store into the slot of the process. -/
@[simps] def setSlotOf (p : ℕ) (slot : ProcSignalSlot) : State :=
  { s with slots := update s.slots (s.procs p).myProcNumber slot }

/-- `ProcSignalShmemInit`. -/
def init : State where
  barrierGeneration := 0
  slots := fun _ => ⟨none, false, pgUint64Max, 0⟩
  owner := fun _ => none
  procs := fun _ => ⟨0, .unborn, false, false⟩
  calls := fun _ => .none

/-! ### Registration and exit -/

/-- A process starts with a free proc number. -/
def start (n p i : ℕ) : Option State :=
  match (s.procs p).pc with
  | .unborn =>
    if i < n ∧ s.owner i = none then
      some { s with
        owner := update s.owner i (some p)
        procs := update s.procs p ⟨i, .initFlags, false, false⟩ }
    else none
  | _ => none

/-- A registered process may exit at any time. -/
def exit (p : ℕ) : Option State :=
  if (s.procs p).pc.registered then some (s.setPc p .cleanupCheck) else none

/-- `MyProcSignalSlot` is cleared first and the proc number is given back last. -/
@[simps] def release (p : ℕ) : State :=
  { s with
    owner := update s.owner (s.procs p).myProcNumber none
    procs := update s.procs p { s.procs p with pc := .dead } }

/-! ### Absorbing barriers -/

/-- The start of `ProcessProcSignalBarrier`. -/
def process (p : ℕ) : Option State :=
  match (s.procs p).pc with
  | .idle =>
    if (s.procs p).barrierPending then
      some (s.setProc p { s.procs p with pc := .readLocal, barrierPending := false })
    else some s
  | _ => none

/-- `ResetProcSignalBarrierBits`, and where the process goes on. -/
def resetProcSignalBarrierBits (p : ℕ) (flags : BitVec 32) (pc : Pc) : State :=
  (s.setSlotOf p
    { s.slotOf p with barrierCheckMask := (s.slotOf p).barrierCheckMask ||| flags }).setProc p
    { s.procs p with pc := pc, barrierPending := true }

/-- One call of a function that processes a barrier, for the lowest bit of the flags. -/
def handler (p : ℕ) (type : ProcSignalBarrierType) (outcome : Outcome) : Option State :=
  match (s.procs p).pc with
  | .handle sharedGen flags success =>
    if rightmostOnePos32 flags = some type.toNat then
      match outcome with
      | .processed =>
        some (s.setPc p (.handle sharedGen (barrierClearBit flags type.toNat) success))
      | .notProcessed =>
        some (s.resetProcSignalBarrierBits p (flagbit type.toNat)
          (.handle sharedGen (barrierClearBit flags type.toNat) false))
      -- the bit of the barrier is still in the flags
      | .error => some (s.resetProcSignalBarrierBits p flags .idle)
    else none
  | _ => none

/-- `procsignal_sigusr1_handler`. -/
def sigusr1 (p : ℕ) : Option State :=
  if (s.procs p).signalled then
    if (s.procs p).pc.registered ∧ (s.slotOf p).barrierFlag then
      some ((s.setSlotOf p { s.slotOf p with barrierFlag := false }).setProc p
        { s.procs p with signalled := false, barrierPending := true })
    else some (s.setProc p { s.procs p with signalled := false })
  else none

/-- The next access of a process to shared memory. -/
def proc (p : ℕ) : Option State :=
  match (s.procs p).pc with
  | .unborn | .idle | .dead => none
  | .initFlags => some ((s.setSlotOf p { s.slotOf p with barrierFlag := false }).setPc p .initMask)
  | .initMask => some ((s.setSlotOf p { s.slotOf p with barrierCheckMask := 0 }).setPc p .initRead)
  | .initRead => some (s.setPc p (.initGeneration s.barrierGeneration))
  | .initGeneration generation =>
    some ((s.setSlotOf p { s.slotOf p with barrierGeneration := generation }).setPc p .initPid)
  | .initPid => some ((s.setSlotOf p { s.slotOf p with pid := some p }).setPc p .idle)
  | .readLocal => some (s.setPc p (.readShared (s.slotOf p).barrierGeneration))
  | .readShared localGen =>
    if localGen = s.barrierGeneration then some (s.setPc p .idle)
    else some (s.setPc p (.exchange s.barrierGeneration))
  | .exchange sharedGen =>
    some ((s.setSlotOf p { s.slotOf p with barrierCheckMask := 0 }).setPc p
      (.handle sharedGen (s.slotOf p).barrierCheckMask true))
  | .handle sharedGen flags success =>
    match rightmostOnePos32 flags with
    | none => some (s.setPc p (if success then .advertise sharedGen else .idle))
    | some pos =>
      match ProcSignalBarrierType.ofNat? pos with
      | some _ => none
      -- the switch has no case for the bit
      | none => some (s.setPc p (.handle sharedGen (barrierClearBit flags pos) success))
  | .advertise sharedGen =>
    some ((s.setSlotOf p { s.slotOf p with barrierGeneration := sharedGen }).setPc p .idle)
  | .cleanupCheck =>
    if (s.slotOf p).pid = some p then some (s.setPc p .cleanupGeneration) else some (s.release p)
  | .cleanupGeneration =>
    some ((s.setSlotOf p { s.slotOf p with barrierGeneration := pgUint64Max }).setPc p .cleanupPid)
  | .cleanupPid => some ((s.setSlotOf p { s.slotOf p with pid := none }).release p)

/-! ### Emitting and waiting -/

/-- `EmitProcSignalBarrier` is called. -/
def emitBegin (k : ℕ) (type : ProcSignalBarrierType) : Option State :=
  match s.calls k with
  | .none => some (s.setCall k (.setting type 0))
  | _ => none

/-- The generation is increased, once all flags are set. -/
def emitIncrement (n k : ℕ) : Option State :=
  match s.calls k with
  | .setting _ i =>
    if i = n then
      some { s with
        barrierGeneration := s.barrierGeneration + 1
        calls := update s.calls k (.signalling (s.barrierGeneration + 1) n) }
    else none
  | _ => none

/-- The other accesses of `EmitProcSignalBarrier` to shared memory. -/
def emit (n k : ℕ) : Option State :=
  match s.calls k with
  | .setting type i =>
    if i < n then
      some ((s.setSlot i { s.slots i with
        barrierCheckMask := (s.slots i).barrierCheckMask ||| flagbit type.toNat }).setCall k
          (.setting type (i + 1)))
    else none
  | .signalling generation (i + 1) =>
    match (s.slots i).pid with
    | none => some (s.setCall k (.signalling generation i))
    | some pid => some (s.setCall k (.flagging generation i pid))
  | .flagging generation i pid =>
    some ((s.setSlot i { s.slots i with barrierFlag := true }).setCall k
      (.killing generation i pid))
  | .killing generation i pid =>
    some ((s.setProc pid { s.procs pid with signalled := true }).setCall k
      (.signalling generation i))
  | .signalling generation 0 => some (s.setCall k (.emitted generation))
  | _ => none

/-- `WaitForProcSignalBarrier` is called, with a generation that exists. -/
def waitBegin (n w : ℕ) (generation : UInt64) : Option State :=
  match s.calls w with
  | .none =>
    if generation ≤ s.barrierGeneration then some (s.setCall w (.waiting generation n)) else none
  | _ => none

/-- One read of a slot by `WaitForProcSignalBarrier`, or its end. -/
def wait (w : ℕ) : Option State :=
  match s.calls w with
  | .waiting generation (i + 1) =>
    if (s.slots i).barrierGeneration < generation then some s
    else some (s.setCall w (.waiting generation i))
  | .waiting generation 0 => some (s.setCall w (.waited generation))
  | _ => none

end State

/-- The steps of processes and of calls, in any order. -/
inductive Event where
  | start (p i : ℕ)
  | exit (p : ℕ)
  | process (p : ℕ)
  | handler (p : ℕ) (type : ProcSignalBarrierType) (outcome : Outcome)
  | sigusr1 (p : ℕ)
  | proc (p : ℕ)
  | emitBegin (k : ℕ) (type : ProcSignalBarrierType)
  | emitIncrement (k : ℕ)
  | emit (k : ℕ)
  | waitBegin (w : ℕ) (generation : UInt64)
  | wait (w : ℕ)
  deriving DecidableEq

/-- An event of the system with `n` slots. -/
def step (n : ℕ) (s : State) : Event → Option State
  | .start p i => s.start n p i
  | .exit p => s.exit p
  | .process p => s.process p
  | .handler p type outcome => s.handler p type outcome
  | .sigusr1 p => s.sigusr1 p
  | .proc p => s.proc p
  | .emitBegin k type => s.emitBegin k type
  | .emitIncrement k => s.emitIncrement n k
  | .emit k => s.emit n k
  | .waitBegin w generation => s.waitBegin n w generation
  | .wait w => s.wait w

/-!
## Waiting for a barrier

A process that was registered when a barrier was emitted owes the barrier's handler until it has run
it or is gone.
-/

/-! ### Check masks -/

section Masks

variable {flags mask : BitVec 32} {pos pos' : ℕ}

theorem getLsbD_flagbit (hpos : pos < 32) : (flagbit pos').getLsbD pos = decide (pos = pos') := by
  rw [flagbit, BitVec.getLsbD_shiftLeft, BitVec.getLsbD_one]
  by_cases h : pos = pos'
  · subst h
    simp [hpos]
  · by_cases hlt : pos < pos'
    · simp [h, hlt]
    · have : pos - pos' ≠ 0 := by omega
      simp [h, this]

/-- Clearing a bit leaves the others alone. -/
theorem getLsbD_barrierClearBit (hpos : pos < 32) (hne : pos ≠ pos') :
    (barrierClearBit flags pos').getLsbD pos = flags.getLsbD pos := by
  rw [barrierClearBit, BitVec.getLsbD_and, BitVec.getLsbD_not, getLsbD_flagbit hpos]
  simp [hpos, hne]

/-- Without a rightmost bit no bit is set. -/
theorem getLsbD_of_rightmostOnePos32_eq_none (h : rightmostOnePos32 flags = none)
    (hpos : pos < 32) : flags.getLsbD pos = false := by
  rw [rightmostOnePos32, List.find?_eq_none] at h
  simpa using h pos (List.mem_range.2 hpos)

end Masks

theorem ProcSignalBarrierType.toNat_lt (type : ProcSignalBarrierType) : type.toNat < 32 := by
  cases type
  decide

/-- The bit of a kind stands for that kind. -/
theorem ProcSignalBarrierType.ofNat?_toNat (type : ProcSignalBarrierType) :
    ofNat? type.toNat = some type := by
  cases type
  rfl

/-- Different kinds have different bits. -/
theorem ProcSignalBarrierType.toNat_ne {type type' : ProcSignalBarrierType} (h : type ≠ type') :
    type.toNat ≠ type'.toNat := by
  intro heq
  refine h (Option.some.inj ?_)
  calc some type = ofNat? type.toNat := (ofNat?_toNat type).symm
    _ = ofNat? type'.toNat := congrArg ofNat? heq
    _ = some type' := ofNat?_toNat type'

/-! ### Where a process stands -/

namespace Pc

/-- It has a proc number. -/
def live : Pc → Bool
  | .unborn | .dead => false
  | _ => true

/-- It has taken itself out of every wait. -/
def exited : Pc → Bool
  | .cleanupPid | .dead => true
  | _ => false

/-- The generation in its slot is its own. -/
def advertises : Pc → Bool
  | .initPid | .cleanupCheck | .cleanupGeneration => true
  | pc => pc.registered

/-- The generation it has read and may still write to its slot. -/
def readGen : Pc → Option UInt64
  | .initGeneration generation => some generation
  | .exchange sharedGen | .handle sharedGen .. | .advertise sharedGen => some sharedGen
  | _ => none

/-- The flags it has taken from its check mask and still has to process. -/
def flags : Pc → BitVec 32
  | .handle _ flags _ => flags
  | _ => 0

/-- The generation it will advertise without running the handler for the bit. -/
def skips (pos : ℕ) : Pc → Option UInt64
  | .handle sharedGen flags true => if flags.getLsbD pos then none else some sharedGen
  | .advertise sharedGen => some sharedGen
  | _ => none

end Pc

namespace Call

/-- The call is one of `EmitProcSignalBarrier`. -/
def isEmit : Call → Bool
  | .setting .. | .signalling .. | .flagging .. | .killing .. | .emitted _ => true
  | .none | .waiting .. | .waited _ => false

def generation : Call → Option UInt64
  | .signalling generation _ | .flagging generation .. | .killing generation ..
  | .emitted generation => some generation
  | _ => Option.none

/-- The call has set its flag in the slot. -/
def hasFlagged (i : ℕ) : Call → Bool
  | .setting _ j => i < j
  | call => call.generation.isSome

/-- The generation for which the call has passed the slot. -/
def passed (i : ℕ) : Call → Option UInt64
  | .waiting generation j => if j ≤ i then some generation else Option.none
  | .waited generation => some generation
  | _ => Option.none

/-- The generation for which the call waits or has waited. -/
def awaits : Call → Option UInt64
  | .waiting generation _ | .waited generation => some generation
  | _ => Option.none

end Call

/-! ### The steps of one process -/

section Moves

variable {s t : State} {q : ℕ}

/-- A step of a process that has a proc number changes nothing but the process and its slot. -/
structure Moved (s : State) (q : ℕ) (t : State) : Prop where
  live : (s.procs q).pc.live = true
  generation : t.barrierGeneration = s.barrierGeneration
  calls : t.calls = s.calls
  myProcNumber : (t.procs q).myProcNumber = (s.procs q).myProcNumber
  procs : ∀ p ≠ q, t.procs p = s.procs p
  slots : ∀ i ≠ (s.procs q).myProcNumber, t.slots i = s.slots i
  owner : ∀ i ≠ (s.procs q).myProcNumber, t.owner i = s.owner i
  ownerSelf : (t.procs q).pc.live = true → t.owner = s.owner

/-- What a step of the process in the slot does to the slot and to the process, when the shared
generation is `gen`, and which barrier it has processed. -/
inductive Advance (gen : UInt64) (q : ℕ) (slot : ProcSignalSlot) :
    Pc → Option ProcSignalBarrierType → ProcSignalSlot → Pc → Prop where
  | initFlags : Advance gen q slot .initFlags none { slot with barrierFlag := false } .initMask
  | initMask : Advance gen q slot .initMask none { slot with barrierCheckMask := 0 } .initRead
  | initRead : Advance gen q slot .initRead none slot (.initGeneration gen)
  | initGeneration {g} :
    Advance gen q slot (.initGeneration g) none { slot with barrierGeneration := g } .initPid
  | initPid : Advance gen q slot .initPid none { slot with pid := some q } .idle
  | idle : Advance gen q slot .idle none slot .idle
  | process : Advance gen q slot .idle none slot .readLocal
  | readLocal : Advance gen q slot .readLocal none slot (.readShared slot.barrierGeneration)
  | upToDate {g} : Advance gen q slot (.readShared g) none slot .idle
  | behind {g} : Advance gen q slot (.readShared g) none slot (.exchange gen)
  | exchange {g} : Advance gen q slot (.exchange g) none { slot with barrierCheckMask := 0 }
      (.handle g slot.barrierCheckMask true)
  | finished {g flags success} (h : rightmostOnePos32 flags = none) :
    Advance gen q slot (.handle g flags success) none slot
      (if success then .advertise g else .idle)
  | unknown {g flags success pos} (h : ProcSignalBarrierType.ofNat? pos = none) :
    Advance gen q slot (.handle g flags success) none slot
      (.handle g (barrierClearBit flags pos) success)
  | processed {g flags success type} :
    Advance gen q slot (.handle g flags success) (some type) slot
      (.handle g (barrierClearBit flags type.toNat) success)
  | notProcessed {g flags success} (type : ProcSignalBarrierType) :
    Advance gen q slot (.handle g flags success) none
      { slot with barrierCheckMask := slot.barrierCheckMask ||| flagbit type.toNat }
      (.handle g (barrierClearBit flags type.toNat) false)
  | error {g flags success} : Advance gen q slot (.handle g flags success) none
      { slot with barrierCheckMask := slot.barrierCheckMask ||| flags } .idle
  | advertise {g} :
    Advance gen q slot (.advertise g) none { slot with barrierGeneration := g } .idle
  | exit {pc} (h : pc.registered = true) : Advance gen q slot pc none slot .cleanupCheck
  | cleanupCheck : Advance gen q slot .cleanupCheck none slot .cleanupGeneration
  | cleanupGeneration : Advance gen q slot .cleanupGeneration none
      { slot with barrierGeneration := pgUint64Max } .cleanupPid
  | released {pc slot'} (h : pc.live = true) : Advance gen q slot pc none slot' .dead

/-- A step of a process, with what it does. -/
structure Moves (s : State) (q : ℕ) (ran : Option ProcSignalBarrierType) (t : State) : Prop
    extends Moved s q t where
  advance : Advance s.barrierGeneration q (s.slotOf q) (s.procs q).pc ran (t.slotOf q)
    (t.procs q).pc

theorem setSlotOf_slotOf : s.setSlotOf q (s.slotOf q) = s := by
  rw [State.setSlotOf, State.slotOf, update_eq_self]

/-- What a process stores into its slot is in its slot. -/
theorem slotOf_setSlotOf_setProc (slot : ProcSignalSlot) {proc : Process}
    (hnum : proc.myProcNumber = (s.procs q).myProcNumber) :
    ((s.setSlotOf q slot).setProc q proc).slotOf q = slot := by
  rw [State.slotOf, State.setProc_procs, update_self, hnum]
  exact update_self ..

theorem live_of_registered {pc : Pc} (h : pc.registered = true) : pc.live = true := by
  cases pc <;> first | rfl | cases h

theorem advertises_of_registered {pc : Pc} (h : pc.registered = true) :
    pc.advertises = true := by
  cases pc <;> first | rfl | cases h

/-- Only a live process makes a step of its own. -/
theorem Advance.live {gen : UInt64} {slot slot' : ProcSignalSlot} {pc pc' : Pc}
    {ran : Option ProcSignalBarrierType} (h : Advance gen q slot pc ran slot' pc') :
    pc.live = true := by
  cases h with
  | exit hreg => exact live_of_registered hreg
  | released hlive => exact hlive
  | _ => rfl

section Inversion

variable {pc pc' : Pc} {ran : Option ProcSignalBarrierType} {slot : ProcSignalSlot}

/-- A step of a process on its own slot is a move. -/
theorem Advance.moves (proc : Process) (hpc : (s.procs q).pc = pc)
    (h : Advance s.barrierGeneration q (s.slotOf q) pc ran slot proc.pc)
    (hnum : proc.myProcNumber = (s.procs q).myProcNumber) :
    Moves s q ran ((s.setSlotOf q slot).setProc q proc) where
  live := hpc ▸ h.live
  generation := rfl
  calls := rfl
  myProcNumber := by rw [State.setProc_procs, update_self, hnum]
  procs := fun _ hp => update_of_ne hp ..
  slots := fun _ hi => update_of_ne hi ..
  owner := fun _ _ => rfl
  ownerSelf := fun _ => rfl
  advance := by
    rw [slotOf_setSlotOf_setProc slot hnum, State.setProc_procs, update_self, hpc]
    exact h

/-- A step that leaves the slot alone is a move. -/
theorem Advance.moves_setPc (hpc : (s.procs q).pc = pc)
    (h : Advance s.barrierGeneration q (s.slotOf q) pc ran (s.slotOf q) pc') :
    Moves s q ran (s.setPc q pc') := by
  have hmoves := h.moves { s.procs q with pc := pc' } hpc rfl
  rwa [setSlotOf_slotOf] at hmoves

/-- Giving up a slot is a move. -/
theorem moves_release (hlive : (s.procs q).pc.live = true) (slot : ProcSignalSlot) :
    Moves s q none ((s.setSlotOf q slot).release q) where
  live := hlive
  generation := rfl
  calls := rfl
  myProcNumber := by
    rw [State.release_procs, update_self]
    rfl
  procs := fun _ hp => update_of_ne hp ..
  slots := fun _ hi => update_of_ne hi ..
  owner := fun _ hi => update_of_ne hi ..
  ownerSelf := fun h => by
    rw [State.release_procs, update_self] at h
    cases h
  advance := by
    rw [State.release_procs, update_self]
    exact .released hlive

end Inversion

/-- Registration and absorption are made of moves. -/
theorem moves_of_proc (h : s.proc q = some t) : Moves s q none t := by
  rw [State.proc.eq_def] at h
  cases hpc : (s.procs q).pc <;> simp only [hpc] at h
  case unborn | idle | dead => cases h
  case handle sharedGen flags success =>
    split at h
    · rename_i hnone
      cases h
      exact (Advance.finished hnone).moves_setPc hpc
    · split at h
      · cases h
      · rename_i hother
        cases h
        exact (Advance.unknown hother).moves_setPc hpc
  case readShared localGen =>
    split_ifs at h
    · cases h
      exact Advance.upToDate.moves_setPc hpc
    · cases h
      exact Advance.behind.moves_setPc hpc
  case cleanupCheck =>
    split_ifs at h
    · cases h
      exact Advance.cleanupCheck.moves_setPc hpc
    · cases h
      have hmoves := moves_release (q := q) (by rw [hpc]; rfl) (s.slotOf q)
      rwa [setSlotOf_slotOf] at hmoves
  all_goals cases h
  case initFlags => exact Advance.initFlags.moves _ hpc rfl
  case initMask => exact Advance.initMask.moves _ hpc rfl
  case initRead => exact Advance.initRead.moves_setPc hpc
  case initGeneration => exact Advance.initGeneration.moves _ hpc rfl
  case initPid => exact Advance.initPid.moves _ hpc rfl
  case readLocal => exact Advance.readLocal.moves_setPc hpc
  case exchange => exact Advance.exchange.moves _ hpc rfl
  case advertise => exact Advance.advertise.moves _ hpc rfl
  case cleanupGeneration => exact Advance.cleanupGeneration.moves _ hpc rfl
  case cleanupPid => exact moves_release (by rw [hpc]; rfl) _

/-- The steps of an exit are moves. -/
theorem moves_of_exit (h : s.exit q = some t) : Moves s q none t := by
  rw [State.exit] at h
  split_ifs at h with hreg
  cases h
  exact (Advance.exit hreg).moves_setPc rfl

/-- The start of `ProcessProcSignalBarrier` is a move. -/
theorem moves_of_process (h : s.process q = some t) : Moves s q none t := by
  rw [State.process.eq_def] at h
  cases hpc : (s.procs q).pc with
  | idle =>
    simp only [hpc] at h
    split_ifs at h
    · cases h
      have hmoves := Advance.process.moves
        { s.procs q with pc := .readLocal, barrierPending := false } hpc rfl
      rwa [setSlotOf_slotOf] at hmoves
    · cases h
      have hmoves := Advance.idle.moves_setPc hpc
      rwa [State.setPc, ← hpc, update_eq_self] at hmoves
  | _ => rw [hpc] at h; cases h

/-- A handler is a move, which counts as run if it has processed the barrier. -/
theorem moves_of_handler {type : ProcSignalBarrierType} {outcome : Outcome}
    (h : s.handler q type outcome = some t) :
    Moves s q (if outcome = .processed then some type else none) t := by
  rw [State.handler.eq_def] at h
  cases hpc : (s.procs q).pc with
  | handle =>
    simp only [hpc] at h
    split_ifs at h
    cases outcome with
    | processed =>
      cases h
      exact Advance.processed.moves_setPc hpc
    | notProcessed =>
      cases h
      exact (Advance.notProcessed type).moves _ hpc rfl
    | error =>
      cases h
      exact Advance.error.moves _ hpc rfl
  | _ => rw [hpc] at h; cases h

end Moves

/-- A step that leaves the processes where they are and takes no flag from a check mask. -/
structure Quiet (s t : State) : Prop where
  generation : t.barrierGeneration = s.barrierGeneration
  owner : t.owner = s.owner
  myProcNumber : ∀ p, (t.procs p).myProcNumber = (s.procs p).myProcNumber
  pc : ∀ p, (t.procs p).pc = (s.procs p).pc
  slots : ∀ i, (t.slots i).barrierGeneration = (s.slots i).barrierGeneration
  masks : ∀ i pos, (s.slots i).barrierCheckMask.getLsbD pos = true →
    (t.slots i).barrierCheckMask.getLsbD pos = true

section Quiet

variable {s t : State}

/-- A step of a call changes no slot and no process. -/
theorem quiet_setCall (k : ℕ) (call : Call) : Quiet s (s.setCall k call) :=
  ⟨rfl, rfl, fun _ => rfl, fun _ => rfl, fun _ => rfl, fun _ _ h => h⟩

/-- Two quiet steps are a quiet step. -/
theorem Quiet.trans {u : State} (h : Quiet s t) (h' : Quiet t u) : Quiet s u where
  generation := h'.generation.trans h.generation
  owner := h'.owner.trans h.owner
  myProcNumber := fun p => (h'.myProcNumber p).trans (h.myProcNumber p)
  pc := fun p => (h'.pc p).trans (h.pc p)
  slots := fun i => (h'.slots i).trans (h.slots i)
  masks := fun i pos hbit => h'.masks i pos (h.masks i pos hbit)

theorem Quiet.setCall {k : ℕ} {call : Call} (h : Quiet s t) : Quiet s (t.setCall k call) :=
  h.trans (quiet_setCall k call)

/-- Signal flags are set and cleared, bits are set. -/
theorem quiet_setSlot {j : ℕ} {slot : ProcSignalSlot}
    (hgen : slot.barrierGeneration = (s.slots j).barrierGeneration)
    (hmask : ∀ pos, (s.slots j).barrierCheckMask.getLsbD pos = true →
      slot.barrierCheckMask.getLsbD pos = true) : Quiet s (s.setSlot j slot) where
  generation := rfl
  owner := rfl
  myProcNumber := fun _ => rfl
  pc := fun _ => rfl
  slots := fun i => by
    by_cases hi : i = j
    · subst hi
      rw [State.setSlot_slots, update_self, hgen]
    · rw [State.setSlot_slots, update_of_ne hi]
  masks := fun i pos hbit => by
    by_cases hi : i = j
    · subst hi
      rw [State.setSlot_slots, update_self]
      exact hmask pos hbit
    · rwa [State.setSlot_slots, update_of_ne hi]

theorem quiet_setProc {q : ℕ} {proc : Process}
    (hnum : proc.myProcNumber = (s.procs q).myProcNumber) (hpc : proc.pc = (s.procs q).pc) :
    Quiet s (s.setProc q proc) where
  generation := rfl
  owner := rfl
  myProcNumber := fun p => by
    by_cases hp : p = q
    · subst hp
      rw [State.setProc_procs, update_self, hnum]
    · rw [State.setProc_procs, update_of_ne hp]
  pc := fun p => by
    by_cases hp : p = q
    · subst hp
      rw [State.setProc_procs, update_self, hpc]
    · rw [State.setProc_procs, update_of_ne hp]
  slots := fun _ => rfl
  masks := fun _ _ h => h

/-- The signal handler only sets a flag. -/
theorem quiet_of_sigusr1 {q : ℕ} (h : s.sigusr1 q = some t) : Quiet s t ∧ t.calls = s.calls := by
  rw [State.sigusr1] at h
  split_ifs at h
  · cases h
    have hslot : Quiet s (s.setSlotOf q { s.slotOf q with barrierFlag := false }) :=
      quiet_setSlot rfl fun _ hbit => hbit
    exact ⟨hslot.trans (quiet_setProc rfl rfl), rfl⟩
  · cases h
    exact ⟨quiet_setProc rfl rfl, rfl⟩

end Quiet

/-! ### Generations -/

/-- What is known of the generations of a process when `c` barriers have been emitted. -/
structure LocalOk (c : ℕ) (slot : ProcSignalSlot) (pc : Pc) : Prop where
  slot_le : pc.advertises = true → slot.barrierGeneration.toNat ≤ c
  read_le : ∀ g, pc.readGen = some g → g.toNat ≤ c

/-- No generation is ahead of the shared one, and no two processes have the same proc number. -/
structure Consistent (n c : ℕ) (s : State) : Prop where
  generation : s.barrierGeneration.toNat = c
  owned : ∀ p, (s.procs p).pc.live = true → s.owner (s.procs p).myProcNumber = some p
  number_lt : ∀ p, (s.procs p).pc.live = true → (s.procs p).myProcNumber < n
  localOk : ∀ p, LocalOk c (s.slotOf p) (s.procs p).pc
  awaits_le : ∀ w g, (s.calls w).awaits = some g → g.toNat ≤ c

section Generations

variable {n c : ℕ} {s t : State} {q : ℕ}

theorem localOk_dead (slot : ProcSignalSlot) : LocalOk c slot .dead := ⟨nofun, nofun⟩

/-- A step that keeps the generation of the slot keeps what is known of the process. -/
theorem LocalOk.of_same {slot slot' : ProcSignalSlot} {pc pc' : Pc} (h : LocalOk c slot pc)
    (hslot : slot'.barrierGeneration = slot.barrierGeneration)
    (hadv : pc'.advertises = true → pc.advertises = true)
    (hread : ∀ g, pc'.readGen = some g → pc.readGen = some g) : LocalOk c slot' pc' :=
  ⟨fun hpc' => hslot ▸ h.slot_le (hadv hpc'), fun g hg => h.read_le g (hread g hg)⟩

/-- The generations that a step leaves in the slot and with the process come from those before. -/
theorem Advance.generations {P : UInt64 → Prop} {gen : UInt64} {slot slot' : ProcSignalSlot}
    {pc pc' : Pc} {ran : Option ProcSignalBarrierType} (h : Advance gen q slot pc ran slot' pc')
    (hgen : P gen) (hslot : pc.advertises = true → P slot.barrierGeneration)
    (hread : ∀ g, pc.readGen = some g → P g) :
    (pc'.advertises = true → P slot'.barrierGeneration) ∧ ∀ g, pc'.readGen = some g → P g := by
  cases h with
  | initFlags | initMask | initPid | idle | exchange | unknown | processed | notProcessed
    | cleanupCheck => exact ⟨hslot, hread⟩
  | initRead => exact ⟨nofun, fun g hg => by cases hg; exact hgen⟩
  | initGeneration | advertise => exact ⟨fun _ => hread _ rfl, nofun⟩
  | process | readLocal | upToDate | error => exact ⟨fun _ => hslot rfl, nofun⟩
  | behind => exact ⟨fun _ => hslot rfl, fun g hg => by cases hg; exact hgen⟩
  | @finished _ _ success =>
    cases success with
    | false => exact ⟨fun _ => hslot rfl, nofun⟩
    | true => exact ⟨fun _ => hslot rfl, hread⟩
  | exit hreg => exact ⟨fun _ => hslot (advertises_of_registered hreg), nofun⟩
  | cleanupGeneration | released => exact ⟨nofun, nofun⟩

/-- Live processes have proc numbers of their own. -/
structure Owns (n : ℕ) (s : State) : Prop where
  owned : ∀ p, (s.procs p).pc.live = true → s.owner (s.procs p).myProcNumber = some p
  number_lt : ∀ p, (s.procs p).pc.live = true → (s.procs p).myProcNumber < n

theorem Consistent.owns (hc : Consistent n c s) : Owns n s := ⟨hc.owned, hc.number_lt⟩

/-- No other live process has a slot that is owned by this one or is free. -/
theorem Owns.myProcNumber_ne (hc : Owns n s) {p i : ℕ} (hpq : p ≠ q)
    (hp : (s.procs p).pc.live = true) (hi : s.owner i = some q ∨ s.owner i = none) :
    (s.procs p).myProcNumber ≠ i := by
  intro h
  have howner := hc.owned p hp
  rw [h] at howner
  rcases hi with hi | hi
  · exact hpq (Option.some.inj (howner.symm.trans hi))
  · rw [hi] at howner
    cases howner

/-- A process that is not live keeps to nothing. -/
theorem localOk_of_not_live {slot : ProcSignalSlot} {pc : Pc} (h : ¬pc.live = true) :
    LocalOk c slot pc := by
  cases pc with
  | unborn => exact ⟨nofun, nofun⟩
  | dead => exact localOk_dead slot
  | _ => exact absurd rfl h

/-- A move leaves the slots of the other live processes alone. -/
theorem Owns.slotOf_eq {ran : Option ProcSignalBarrierType} (hc : Owns n s) (hm : Moves s q ran t)
    {p : ℕ} (hpq : p ≠ q) (hp : (s.procs p).pc.live = true) : t.slotOf p = s.slotOf p := by
  rw [State.slotOf, hm.procs p hpq,
    hm.slots _ (hc.myProcNumber_ne hpq hp (Or.inl (hc.owned q hm.live)))]
  rfl

/-- A move keeps the ownership of slots. -/
theorem Owns.moves {ran : Option ProcSignalBarrierType} (hc : Owns n s) (hm : Moves s q ran t) :
    Owns n t where
  owned := fun p hp => by
    by_cases hpq : p = q
    · subst hpq
      rw [hm.ownerSelf hp, hm.myProcNumber, hc.owned p hm.live]
    · rw [hm.procs p hpq] at hp ⊢
      rw [hm.owner _ (hc.myProcNumber_ne hpq hp (Or.inl (hc.owned q hm.live))), hc.owned p hp]
  number_lt := fun p hp => by
    by_cases hpq : p = q
    · subst hpq
      rw [hm.myProcNumber]
      exact hc.number_lt p hm.live
    · rw [hm.procs p hpq] at hp ⊢
      exact hc.number_lt p hp

/-- A quiet step keeps the ownership of slots. -/
theorem Owns.quiet (hc : Owns n s) (hq : Quiet s t) : Owns n t where
  owned := fun p hp => by
    rw [hq.pc] at hp
    rw [hq.owner, hq.myProcNumber, hc.owned p hp]
  number_lt := fun p hp => by
    rw [hq.pc] at hp
    rw [hq.myProcNumber]
    exact hc.number_lt p hp

/-- A process can start in a free slot only. -/
theorem start_spec {p i : ℕ} (h : s.start n p i = some t) :
    (s.procs p).pc = .unborn ∧ i < n ∧ s.owner i = none ∧
      t = { s with
        owner := update s.owner i (some p)
        procs := update s.procs p ⟨i, .initFlags, false, false⟩ } := by
  rw [State.start.eq_def] at h
  cases hpc : (s.procs p).pc with
  | unborn =>
    simp only [hpc] at h
    split_ifs at h with hfree
    cases h
    exact ⟨rfl, hfree.1, hfree.2, rfl⟩
  | _ => rw [hpc] at h; cases h

/-- The start of a process keeps the ownership of slots. -/
theorem Owns.start {p i : ℕ} (hc : Owns n s) (h : s.start n p i = some t) : Owns n t := by
  obtain ⟨-, hlt, hfree, rfl⟩ := start_spec h
  refine ⟨fun q hq => ?_, fun q hq => ?_⟩
  · by_cases hqp : q = p
    · subst hqp
      simp only [update_self]
    · simp only [update_of_ne hqp] at hq ⊢
      rw [update_of_ne (hc.myProcNumber_ne hqp hq (Or.inr hfree)), hc.owned q hq]
  · by_cases hqp : q = p
    · subst hqp
      simp only [update_self]
      exact hlt
    · simp only [update_of_ne hqp] at hq ⊢
      exact hc.number_lt q hq

/-- A move keeps the generations consistent. -/
theorem Consistent.moves {ran : Option ProcSignalBarrierType} (hc : Consistent n c s)
    (hm : Moves s q ran t) : Consistent n c t where
  generation := by rw [hm.generation, hc.generation]
  owned := (hc.owns.moves hm).owned
  number_lt := (hc.owns.moves hm).number_lt
  localOk := fun p => by
    by_cases hpq : p = q
    · subst hpq
      obtain ⟨hslot, hread⟩ := hm.advance.generations (P := fun g => g.toNat ≤ c)
        (Nat.le_of_eq hc.generation) (hc.localOk p).slot_le (hc.localOk p).read_le
      exact ⟨hslot, hread⟩
    · by_cases hp : (s.procs p).pc.live = true
      · rw [hc.owns.slotOf_eq hm hpq hp, hm.procs p hpq]
        exact hc.localOk p
      · rw [hm.procs p hpq]
        exact localOk_of_not_live hp
  awaits_le := fun w g hg => hc.awaits_le w g (by rwa [← hm.calls])

/-- A quiet step keeps the generations consistent, if no call waits for a later one. -/
theorem Consistent.quiet (hc : Consistent n c s) (hq : Quiet s t)
    (hcalls : ∀ w g, (t.calls w).awaits = some g → g.toNat ≤ c) : Consistent n c t where
  generation := by rw [hq.generation, hc.generation]
  owned := (hc.owns.quiet hq).owned
  number_lt := (hc.owns.quiet hq).number_lt
  localOk := fun p => by
    rw [hq.pc]
    refine (hc.localOk p).of_same ?_ (fun hadv => hadv) (fun _ hg => hg)
    rw [State.slotOf, hq.myProcNumber, hq.slots]
    rfl
  awaits_le := hcalls

/-- The start of a process keeps the generations consistent. -/
theorem Consistent.start {p i : ℕ} (hc : Consistent n c s) (h : s.start n p i = some t) :
    Consistent n c t := by
  have howns := hc.owns.start h
  obtain ⟨-, -, -, rfl⟩ := start_spec h
  refine ⟨hc.generation, howns.owned, howns.number_lt, fun q => ?_, hc.awaits_le⟩
  by_cases hqp : q = p
  · subst hqp
    simp only [update_self]
    exact ⟨nofun, nofun⟩
  · simp only [State.slotOf, update_of_ne hqp]
    exact hc.localOk q

theorem awaits_setCall (hc : Consistent n c s) {k : ℕ} {call : Call}
    (hcall : ∀ g, call.awaits = some g → g.toNat ≤ c) (w : ℕ) (g : UInt64)
    (h : (update s.calls k call w).awaits = some g) : g.toNat ≤ c :=
  (forall_update_iff s.calls fun _ call => ∀ g, call.awaits = some g → g.toNat ≤ c).2
    ⟨hcall, fun w _ => hc.awaits_le w⟩ w g h

end Generations

/-! ### The steps of calls -/

section Calls

variable {n c : ℕ} {s t : State} {k w : ℕ}

/-- A step of `EmitProcSignalBarrier` other than the increase of the generation. -/
structure Emits (s : State) (k : ℕ) (t : State) (call : Call) : Prop where
  calls : t.calls = update s.calls k call
  isEmit : call.isEmit = true
  awaits : call.awaits = none
  passed : ∀ i, call.passed i = none
  generation : call.generation = (s.calls k).generation
  setting : ∀ type i, call = .setting type i → (s.calls k = .none ∧ i = 0) ∨
    ∃ j, s.calls k = .setting type j ∧ i = j + 1 ∧
      (t.slots j).barrierCheckMask.getLsbD type.toNat = true

/-- The beginning of `EmitProcSignalBarrier`. -/
theorem emits_of_emitBegin {type : ProcSignalBarrierType} (h : s.emitBegin k type = some t) :
    Quiet s t ∧ Emits s k t (.setting type 0) := by
  rw [State.emitBegin.eq_def] at h
  cases hcall : s.calls k with
  | none =>
    rw [hcall] at h
    cases h
    refine ⟨quiet_setCall .., rfl, rfl, rfl, fun _ => rfl, by rw [hcall]; rfl,
      fun type' i hset => ?_⟩
    cases hset
    exact Or.inl ⟨hcall, rfl⟩
  | _ => rw [hcall] at h; cases h

/-- Every step of `EmitProcSignalBarrier` but the increment. -/
theorem emits_of_emit (h : s.emit n k = some t) : Quiet s t ∧ ∃ call, Emits s k t call := by
  rw [State.emit.eq_def] at h
  cases hcall : s.calls k with simp only [hcall] at h
  | none | emitted | waiting | waited => cases h
  | setting type i =>
    split_ifs at h with hi
    cases h
    refine ⟨Quiet.setCall (quiet_setSlot rfl fun pos hbit => ?_),
      .setting type (i + 1), rfl, rfl, rfl, fun _ => rfl, by rw [hcall]; rfl,
      fun type' j hset => ?_⟩
    · rw [BitVec.getLsbD_or, hbit, Bool.true_or]
    · cases hset
      refine Or.inr ⟨i, hcall, rfl, ?_⟩
      rw [State.setCall_slots, State.setSlot_slots, update_self, BitVec.getLsbD_or,
        getLsbD_flagbit type.toNat_lt, decide_eq_true rfl, Bool.or_true]
  | signalling _ i =>
    cases i with
    | zero =>
      cases h
      exact ⟨quiet_setCall .., _, rfl, rfl, rfl, fun _ => rfl, by rw [hcall]; rfl, nofun⟩
    | succ i =>
      cases hpid : (s.slots i).pid with simp only [hpid] at h
      | none | some pid =>
        cases h
        exact ⟨quiet_setCall .., _, rfl, rfl, rfl, fun _ => rfl, by rw [hcall]; rfl, nofun⟩
  | flagging =>
    cases h
    exact ⟨Quiet.setCall (quiet_setSlot rfl fun _ hbit => hbit), _, rfl, rfl, rfl,
      fun _ => rfl, by rw [hcall]; rfl, nofun⟩
  | killing =>
    cases h
    exact ⟨Quiet.setCall (quiet_setProc rfl rfl), _, rfl, rfl, rfl, fun _ => rfl,
      by rw [hcall]; rfl, nofun⟩

/-- A step of `WaitForProcSignalBarrier`. -/
structure Waits (n : ℕ) (s : State) (w : ℕ) (t : State) (call : Call) : Prop where
  calls : t.calls = update s.calls w call
  isEmit : (s.calls w).isEmit = false
  awaits : ∀ g, call.awaits = some g → (s.calls w).awaits = some g ∨ g ≤ s.barrierGeneration
  passed : ∀ i < n, ∀ g, call.passed i = some g →
    (s.calls w).passed i = some g ∨ ¬(s.slots i).barrierGeneration < g

/-- The beginning of `WaitForProcSignalBarrier`. -/
theorem waits_of_waitBegin {generation : UInt64} (h : s.waitBegin n w generation = some t) :
    Quiet s t ∧ ∃ call, Waits n s w t call := by
  rw [State.waitBegin.eq_def] at h
  cases hcall : s.calls w with
  | none =>
    simp only [hcall] at h
    split_ifs at h with hle
    cases h
    refine ⟨quiet_setCall .., _, rfl, by rw [hcall]; rfl, fun g hg => ?_, fun i hi g hg => ?_⟩
    · cases hg
      exact Or.inr hle
    · rw [Call.passed, if_neg (Nat.not_le.2 hi)] at hg
      cases hg
  | _ => rw [hcall] at h; cases h

/-- Every later step of `WaitForProcSignalBarrier`. -/
theorem waits_of_wait (h : s.wait w = some t) : Quiet s t ∧ ∃ call, Waits n s w t call := by
  rw [State.wait.eq_def] at h
  cases hcall : s.calls w with
  | waiting _ i =>
    simp only [hcall] at h
    cases i with
    | zero =>
      cases h
      refine ⟨quiet_setCall .., _, rfl, by rw [hcall]; rfl, fun g hg => ?_,
        fun i _ g hg => ?_⟩
      · rw [hcall]
        exact Or.inl hg
      · rw [hcall, Call.passed, if_pos (Nat.zero_le i)]
        exact Or.inl hg
    | succ =>
      simp only at h
      split_ifs at h with hlt
      · cases h
        refine ⟨⟨rfl, rfl, fun _ => rfl, fun _ => rfl, fun _ => rfl, fun _ _ h => h⟩, s.calls w,
          (update_eq_self ..).symm, by rw [hcall]; rfl,
          fun _ hg => Or.inl hg, fun _ _ _ hg => Or.inl hg⟩
      · cases h
        refine ⟨quiet_setCall .., _, rfl, by rw [hcall]; rfl, fun g hg => ?_,
          fun j _ g hg => ?_⟩
        · rw [hcall]
          exact Or.inl hg
        · rw [Call.passed] at hg
          split_ifs at hg with hj
          cases hg
          rw [hcall]
          -- the slot just passed is not behind
          rcases Nat.eq_or_lt_of_le hj with rfl | hij
          · exact Or.inr hlt
          · exact Or.inl (if_pos hij)
  | _ => rw [hcall] at h; cases h

end Calls

end PgCutover.ProcSignal
