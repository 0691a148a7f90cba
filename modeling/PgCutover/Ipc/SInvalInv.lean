import PgCutover.Lib.Memory
import PgCutover.Ipc.SInvalSteps

/-!
# Invariants of the queue of invalidation messages

Message number `n` is entry `base + n` of the log of all messages. The buffer holds the entries
from `minMsgNum` on, and a backend that is not in reset state is never behind that.
-/

namespace PgCutover.SInval

open Function State Lib List

variable {Msg : Type}

/-- The outputs walk along the log: a message is the next entry, and a reset goes on at an entry
no later than what had been inserted when it was returned. -/
inductive Explains (log : List Msg) (registered : ℕ) : List (Output Msg) → ℕ → Prop where
  | nil : Explains log registered [] registered
  | message {output : List (Output Msg)} {pos : ℕ} {msg : Msg}
      (h : Explains log registered output pos) (hmsg : log[pos]? = some msg) :
      Explains log registered (output ++ [.message msg]) (pos + 1)
  | reset {output : List (Output Msg)} {pos pos' inserted : ℕ}
      (h : Explains log registered output pos) (hpos : pos ≤ pos') (hinserted : pos' ≤ inserted)
      (hlog : inserted ≤ log.length) : Explains log registered (output ++ [.reset inserted]) pos'

variable {log : List Msg} {registered : ℕ} {output : List (Output Msg)}

theorem Explains.mono {log' : List Msg} {pos : ℕ}
    (h : Explains log registered output pos) (hlog : log <+: log') :
    Explains log' registered output pos := by
  induction h with
  | nil => exact .nil
  | message _ hmsg ih =>
    obtain ⟨_, rfl⟩ := hlog
    refine ih.message ?_
    rw [List.getElem?_append_left (List.getElem?_eq_some_iff.1 hmsg).1, hmsg]
  | reset _ hpos hinserted hlen ih =>
    exact ih.reset hpos hinserted (Nat.le_trans hlen hlog.length_le)

/-- The backend got the message at its turn, or a reset returned after the insertion. -/
def Got (log : List Msg) (registered : ℕ) (output : List (Output Msg)) (j : ℕ) : Prop :=
  (∃ before msg after, output = before ++ .message msg :: after ∧ log[j]? = some msg ∧
    Explains log registered before j) ∨
  ∃ inserted, .reset inserted ∈ output ∧ j < inserted

theorem Got.append {j : ℕ} (h : Got log registered output j) (more : List (Output Msg)) :
    Got log registered (output ++ more) j := by
  rcases h with ⟨before, msg, after, rfl, hmsg, hbefore⟩ | ⟨inserted, hmem, hlt⟩
  · exact .inl ⟨before, msg, after ++ more, by simp, hmsg, hbefore⟩
  · exact .inr ⟨inserted, mem_append_left _ hmem, hlt⟩

/-- Every message between the registration and the position is accounted for. -/
theorem Explains.got {pos j : ℕ}
    (h : Explains log registered output pos) (hj : registered ≤ j) (hlt : j < pos) :
    Got log registered output j := by
  induction h with
  | nil => omega
  | @message output pos msg h hmsg ih =>
    rcases Nat.lt_or_ge j pos with hjp | hjp
    · exact (ih hjp).append _
    · obtain rfl : j = pos := by omega
      exact .inl ⟨output, msg, [], rfl, hmsg, h⟩
  | @reset output pos pos' inserted h hpos hinserted hlog ih =>
    rcases Nat.lt_or_ge j pos with hjp | hjp
    · exact (ih hjp).append _
    · exact .inr ⟨inserted, mem_append_right _ mem_cons_self, by omega⟩

/-! ### The invariant -/

/-- The counters and the buffer. -/
structure QueueOk (min max : ℤ) (base : ℕ) (log : List Msg) (buffer : ℕ → Msg) : Prop where
  logLength : (log.length : ℤ) = base + max
  dvd : 4096 ∣ base
  min_nonneg : 0 ≤ min
  min_le : min ≤ max
  max_le : max ≤ min + 4096
  ring : RingHolds 4096 buffer log (base + min).toNat

/-- The state of a backend, and what it has got. -/
structure DataOk (min max : ℤ) (base : ℕ) (log : List Msg) (stateP : ProcState)
    (registered pos : ℕ) (output : List (Output Msg)) : Prop where
  next_le : stateP.nextMsgNum ≤ max
  inactive : stateP.active = false → stateP.nextMsgNum = 0
  current : stateP.receives = true → stateP.resetState = false →
    min ≤ stateP.nextMsgNum ∧ (pos : ℤ) = base + stateP.nextMsgNum
  pos_le : pos ≤ log.length
  explained : Explains log registered output pos

/-- What a reader that has fetched `max` relies on. -/
structure LocalMax (s : State Msg) (p : ℕ) (max : ℤ) : Prop where
  receives : (s.procState p).receives = true
  min_le : s.minMsgNum ≤ max
  le_max : max ≤ s.maxMsgNum
  pos_le : (s.hist.pos p : ℤ) ≤ s.hist.base + max

/-- What a process relies on in the middle of something. -/
def PcOk (s : State Msg) (p : ℕ) : Pc Msg → Prop
  | .insertStore stored todo _ max =>
    max = s.maxMsgNum + stored.length ∧
      s.maxMsgNum + stored.length + todo.length ≤ s.minMsgNum + 4096 ∧
      RingHolds 4096 s.buffer (s.hist.log ++ stored) (s.hist.base + s.minMsgNum).toNat
  | .getAcquire _ | .getClear _ | .getMax _ => (s.procState p).receives = true
  | .getTest _ max => LocalMax s p max
  | .getCopy _ _ max => LocalMax s p max ∧ (s.procState p).resetState = false
  | _ => True

/-- What holds of one backend. -/
structure ProcOk (s : State Msg) (p : ℕ) : Prop where
  data : DataOk s.minMsgNum s.maxMsgNum s.hist.base s.hist.log (s.procState p)
    (s.hist.registered p) (s.hist.pos p) (s.hist.output p)
  writes : (s.pc p).writes = true → s.writeLock = some p
  reads : (s.pc p).reads = true → p ∈ s.readers
  pc : PcOk s p (s.pc p)

/-- What holds in every reachable state. -/
structure Inv (s : State Msg) : Prop where
  queue : QueueOk s.minMsgNum s.maxMsgNum s.hist.base s.hist.log s.buffer
  nodup : s.pgprocnos.Nodup
  mem_pgprocnos (p : ℕ) : p ∈ s.pgprocnos ↔ (s.procState p).active = true
  procs (p : ℕ) : ProcOk s p

theorem inv_init (buffer : ℕ → Msg) : Inv (init buffer) where
  queue := ⟨rfl, Nat.dvd_zero _, Int.le_refl _, Int.le_refl _, Int.zero_le_ofNat _,
    .of_length_le (Nat.zero_le _)⟩
  nodup := nodup_nil
  mem_pgprocnos _ := ⟨nofun, nofun⟩
  procs _ := ⟨⟨Int.le_refl _, fun _ => rfl, nofun, Nat.le_refl _, .nil⟩,
    nofun, nofun, trivial⟩

section Queue

variable {min max n : ℤ} {base : ℕ} {buffer : ℕ → Msg}

/-- The cell of a message number is that of its entry in the log. -/
theorem cell_eq (hdvd : 4096 ∣ base) (hn : 0 ≤ n) {j : ℕ} (hj : (j : ℤ) = base + n) :
    cell n = j % 4096 := by
  obtain ⟨k, rfl⟩ := hdvd
  obtain ⟨m, rfl⟩ := Int.eq_ofNat_of_zero_le hn
  obtain rfl : j = 4096 * k + m := by omega
  rw [Nat.mul_add_mod]
  exact Int.toNat_natCast (m % 4096)

/-- The buffer has every message that is still to be read. -/
theorem QueueOk.buffer_cell (h : QueueOk min max base log buffer) (hmin : min ≤ n) (hmax : n < max)
    {j : ℕ} (hj : (j : ℤ) = base + n) : log[j]? = some (buffer (cell n)) := by
  have hlog := h.logLength
  have hnonneg := h.min_nonneg
  have hlt : j < log.length := by omega
  rw [cell_eq h.dvd (by omega) hj, List.getElem?_eq_getElem hlt,
    h.ring j _ (by omega) (List.getElem?_eq_getElem hlt)]

end Queue

/-! ### Steps that do not clean the queue -/

section Move

variable {s t : State Msg} {e : Event Msg} {p q : ℕ}

theorem ProcOk.keeps (h : ProcOk s q) (hk : Keeps s t q) : ProcOk t q where
  data := by
    rw [hk.min, hk.base, hk.registered, hk.pos, hk.output]
    refine ⟨?_, ?_, ?_, Nat.le_trans h.data.pos_le hk.log.length_le, h.data.explained.mono hk.log⟩
    · rw [hk.nextMsgNum]
      exact Int.le_trans h.data.next_le hk.max
    · rw [hk.active, hk.nextMsgNum]
      exact h.data.inactive
    · rw [hk.receives, hk.resetState, hk.nextMsgNum]
      exact h.data.current
  writes := by
    rw [hk.pc]
    exact fun hw => (hk.writeLock (h.writes hw)).1
  reads := by
    rw [hk.pc]
    exact fun hr => hk.readers (h.reads hr)
  pc := by
    have hmax : ∀ max, LocalMax s q max → LocalMax t q max := fun max hm =>
      ⟨hk.receives.trans hm.receives, hk.min ▸ hm.min_le, Int.le_trans hm.le_max hk.max,
        hk.pos ▸ hk.base ▸ hm.pos_le⟩
    have hpc := h.pc
    have hwrites := h.writes
    rw [hk.pc]
    cases hcase : s.pc q with
    | insertStore =>
      rw [hcase] at hpc hwrites
      obtain ⟨-, hmax, hbuffer, hlog⟩ := hk.writeLock (hwrites rfl)
      rw [PcOk, hmax, hbuffer, hlog, hk.min, hk.base]
      exact hpc
    | getTest _ max =>
      rw [hcase] at hpc
      exact hmax max hpc
    | getCopy _ _ max =>
      rw [hcase] at hpc
      exact ⟨hmax max hpc.1, hk.resetState.trans hpc.2⟩
    | getAcquire datasize | getClear datasize | getMax datasize =>
      rw [hcase] at hpc
      exact hk.receives.trans hpc
    | _ => trivial

theorem Inv.keeps (hs : Inv s) (h : Move s e t) (hq : e.actor ≠ some q) : Keeps s t q := by
  refine h.keeps hq (fun p => (hs.procs p).writes) ?_
  intro p _ _ _ _ hpc
  have hp := (hs.procs p).pc
  rw [hpc] at hp
  have := hp.1
  omega

theorem Inv.of_keeps (hs : Inv s) (hkeeps : ∀ q ≠ p, Keeps s t q)
    (hprocnos : t.pgprocnos = s.pgprocnos)
    (hactive : (t.procState p).active = (s.procState p).active)
    (hqueue : QueueOk t.minMsgNum t.maxMsgNum t.hist.base t.hist.log t.buffer)
    (hp : ProcOk t p) : Inv t where
  queue := hqueue
  nodup := hprocnos ▸ hs.nodup
  mem_pgprocnos q := by
    rw [hprocnos, hs.mem_pgprocnos]
    by_cases hq : q = p
    · rw [hq, hactive]
    · rw [(hkeeps q hq).active]
  procs q := by
    by_cases hq : q = p
    · exact hq ▸ hp
    · exact (hs.procs q).keeps (hkeeps q hq)

theorem writes_insertLoop (data : List Msg) : (insertLoop data).writes = false := by
  rcases insertLoop_eq data with h | h <;> rw [h] <;> rfl

theorem reads_insertLoop (data : List Msg) : (insertLoop data).reads = false := by
  rcases insertLoop_eq data with h | h <;> rw [h] <;> rfl

theorem pcOk_insertLoop (data : List Msg) : PcOk t p (insertLoop data) := by
  rcases insertLoop_eq data with h | h <;> rw [h] <;> trivial

/-- A process that goes on to another point of its program. -/
theorem ProcOk.of_pc {pc : Pc Msg} (hdata : DataOk t.minMsgNum t.maxMsgNum t.hist.base t.hist.log
    (t.procState p) (t.hist.registered p) (t.hist.pos p) (t.hist.output p)) (hpc : t.pc p = pc)
    (hwrites : pc.writes = true → t.writeLock = some p)
    (hreads : pc.reads = true → p ∈ t.readers) (hok : PcOk t p pc) : ProcOk t p := by
  subst hpc
  exact ⟨hdata, hwrites, hreads, hok⟩

theorem ProcOk.setPc (h : ProcOk s p) {pc : Pc Msg}
    (hwrites : pc.writes = true → s.writeLock = some p)
    (hreads : pc.reads = true → p ∈ s.readers) (hpc : PcOk (s.setPc p pc) p pc) :
    ProcOk (s.setPc p pc) p :=
  .of_pc h.data (update_self ..) hwrites hreads hpc

theorem Inv.init (hs : Inv s) {sendOnly : Bool} (h : Move s (.init p sendOnly) t) : Inv t := by
  have hkeeps : ∀ q ≠ p, Keeps s t q :=
    fun q hq => hs.keeps h fun h => hq (Option.some.inj h).symm
  cases h with
  | init hpc _ hactive =>
    refine ⟨hs.queue, ?_, fun q => ?_, fun q => ?_⟩
    · refine nodup_append.2 ⟨hs.nodup, nodup_singleton p, ?_⟩
      rintro q hq r hr rfl
      rw [mem_singleton.1 hr, hs.mem_pgprocnos, hactive] at hq
      cases hq
    · dsimp only
      rw [mem_append, hs.mem_pgprocnos]
      by_cases hq : q = p
      · simp [hq]
      · simp [hq]
    · by_cases hq : q = p
      · subst hq
        refine .of_pc ?_ hpc nofun nofun trivial
        dsimp only
        rw [update_self, update_self, update_self, update_self]
        exact ⟨Int.le_refl _, nofun,
          fun _ _ => ⟨hs.queue.min_le, hs.queue.logLength⟩, Nat.le_refl _, .nil⟩
      · exact (hs.procs q).keeps (hkeeps q hq)

theorem Inv.exit (hs : Inv s) (h : Move s (.exit p) t) : Inv t := by
  have hkeeps : ∀ q ≠ p, Keeps s t q :=
    fun q hq => hs.keeps h fun h => hq (Option.some.inj h).symm
  cases h with
  | exit hpc _ hactive =>
    have hp : p ∈ s.pgprocnos := (hs.mem_pgprocnos p).2 hactive
    refine ⟨hs.queue, nodup_removeProcno hs.nodup, fun q => ?_, fun q => ?_⟩
    · dsimp only
      rw [mem_removeProcno hs.nodup hp, hs.mem_pgprocnos]
      by_cases hq : q = p
      · simp [hq]
      · simp [hq]
    · by_cases hq : q = p
      · subst hq
        have hdata := (hs.procs q).data
        refine .of_pc ?_ hpc nofun nofun trivial
        dsimp only
        rw [update_self]
        exact ⟨Int.le_trans hs.queue.min_nonneg hs.queue.min_le, fun _ => rfl,
          nofun, hdata.pos_le, hdata.explained⟩
      · exact (hs.procs q).keeps (hkeeps q hq)

variable {max : ℤ} {rest : List Msg}

theorem Inv.pcOk (hs : Inv s) {pc : Pc Msg} (hpc : s.pc p = pc) : PcOk s p pc :=
  hpc ▸ (hs.procs p).pc

/-- The steps of `SIInsertDataEntries`. -/
theorem Inv.insertStore (hs : Inv s) {stored todo : List Msg} {msg : Msg}
    (hpc : s.pc p = .insertStore stored (msg :: todo) rest max) (hkeeps : ∀ q ≠ p, Keeps s t q)
    (ht : t = { s.setPc p (.insertStore (stored ++ [msg]) todo rest (max + 1)) with
      buffer := update s.buffer (cell max) msg }) : Inv t := by
  subst ht
  have hp := hs.procs p
  have hq := hs.queue
  obtain ⟨hmax, hfit, hring⟩ := hs.pcOk hpc
  have hwrites := hp.writes
  rw [hpc] at hwrites
  have hlog := hq.logLength
  have hnonneg := hq.min_nonneg
  have hle := hq.min_le
  rw [length_cons] at hfit
  have hcell : cell max = (s.hist.log ++ stored).length % 4096 := by
    refine cell_eq hq.dvd (by omega) ?_
    rw [length_append]
    omega
  have hring' : RingHolds 4096 (update s.buffer (cell max) msg) (s.hist.log ++ (stored ++ [msg]))
      (s.hist.base + s.minMsgNum).toNat := by
    rw [hcell, ← append_assoc]
    refine hring.store msg ?_
    rw [length_append]
    omega
  refine hs.of_keeps hkeeps rfl rfl ⟨hlog, hq.dvd, hnonneg, hle, hq.max_le, hring'.of_append⟩
    (.of_pc hp.data (update_self ..) (fun _ => hwrites rfl) nofun ⟨?_, ?_, hring'⟩) <;>
    dsimp only [State.setPc] <;> rw [length_append, length_singleton] <;> omega

theorem Inv.insertPublish (hs : Inv s) {stored : List Msg}
    (hpc : s.pc p = .insertStore stored [] rest max) (hkeeps : ∀ q ≠ p, Keeps s t q)
    (ht : t = { s.setPc p (.insertFlag s.pgprocnos rest) with
      maxMsgNum := max
      hist := { s.hist with log := s.hist.log ++ stored } }) : Inv t := by
  subst ht
  have hp := hs.procs p
  have hq := hs.queue
  obtain ⟨rfl, hfit, hring⟩ := hs.pcOk hpc
  have hwrites := hp.writes
  rw [hpc] at hwrites
  have hlog := hq.logLength
  have hle := hq.min_le
  have hnext := hp.data.next_le
  rw [length_nil] at hfit
  refine hs.of_keeps hkeeps rfl rfl ⟨?_, hq.dvd, hq.min_nonneg, ?_, ?_, hring⟩
    (.of_pc ⟨?_, hp.data.inactive, hp.data.current, ?_, ?_⟩ (update_self ..)
      (fun _ => hwrites rfl) nofun trivial)
  all_goals dsimp only [State.setPc]
  · rw [length_append]
    omega
  · omega
  · omega
  · omega
  · rw [length_append]
    exact Nat.le_trans hp.data.pos_le (Nat.le_add_right _ _)
  · exact hp.data.explained.mono (prefix_append _ _)

theorem update_hasMessages (procState : ℕ → ProcState) (i p : ℕ) :
    ∃ b, update procState i { procState i with hasMessages := true } p =
      { procState p with hasMessages := b } := by
  by_cases hp : p = i
  · subst hp
    exact ⟨true, update_self ..⟩
  · exact ⟨_, update_of_ne hp ..⟩

theorem Inv.insertFlag (hs : Inv s) {i : ℕ} {todo : List ℕ}
    (hpc : s.pc p = .insertFlag (i :: todo) rest) (hkeeps : ∀ q ≠ p, Keeps s t q)
    (ht : t = (s.setProcState i { s.procState i with hasMessages := true }).setPc p
      (.insertFlag todo rest)) : Inv t := by
  subst ht
  have hp := hs.procs p
  have hwrites := hp.writes
  rw [hpc] at hwrites
  obtain ⟨b, hb⟩ := update_hasMessages s.procState i p
  refine hs.of_keeps hkeeps rfl ?_ hs.queue
    (.of_pc ?_ (update_self ..) (fun _ => hwrites rfl) nofun trivial)
  all_goals dsimp only [State.setPc, State.setProcState]
  · rw [hb]
  · rw [hb]
    exact { hp.data with }

/-- The steps of `SIGetDataEntries` under the lock. -/
theorem Inv.of_read (hs : Inv s) (hkeeps : ∀ q ≠ p, Keeps s t q)
    (hreads : (s.pc p).reads = true) (hreaders : t.readers = s.readers)
    (hprocnos : t.pgprocnos = s.pgprocnos)
    (hactive : (t.procState p).active = (s.procState p).active)
    (hqueue : QueueOk t.minMsgNum t.maxMsgNum t.hist.base t.hist.log t.buffer)
    (hdata : DataOk t.minMsgNum t.maxMsgNum t.hist.base t.hist.log
      (t.procState p) (t.hist.registered p) (t.hist.pos p) (t.hist.output p))
    {pc : Pc Msg} (hpc : t.pc p = pc) (hwrites : pc.writes = false) (hok : PcOk t p pc) :
    Inv t := by
  refine hs.of_keeps hkeeps hprocnos hactive hqueue (.of_pc hdata hpc ?_ (fun _ => ?_) hok)
  · rw [hwrites]
    exact nofun
  · rw [hreaders]
    exact (hs.procs p).reads hreads

theorem Inv.getReset (hs : Inv s) {datasize : ℕ} (hpc : s.pc p = .getTest datasize max)
    (hkeeps : ∀ q ≠ p, Keeps s t q) (ht : t = ((s.setProcState p { s.procState p with
      nextMsgNum := max, resetState := false, signaled := false }).setOutput p
        (.reset s.hist.log.length) (s.hist.base + max).toNat).setPc p .getRelease) : Inv t := by
  subst ht
  have hdata := (hs.procs p).data
  have hmax : LocalMax s p max := hs.pcOk hpc
  have hlog := hs.queue.logLength
  have hmin := hmax.min_le
  have hle := hmax.le_max
  have hpos := hmax.pos_le
  refine hs.of_read hkeeps (by rw [hpc]; rfl) rfl rfl (by simp) hs.queue ?_ (update_self ..) rfl
    trivial
  dsimp only [State.setPc, State.setOutput, State.setProcState]
  rw [update_self, update_self, update_self]
  refine ⟨hle, ?_, fun _ _ => ⟨hmin, by dsimp only; omega⟩, by omega, ?_⟩
  · intro hinactive
    have := hmax.receives
    simp [ProcState.receives] at hinactive this
    simp [hinactive] at this
  · exact hdata.explained.reset (by omega) (by omega) (Nat.le_refl _)

theorem Inv.getMessage (hs : Inv s) {datasize n : ℕ}
    (hpc : s.pc p = .getCopy datasize n max) (hlt : (s.procState p).nextMsgNum < max)
    (hkeeps : ∀ q ≠ p, Keeps s t q) (ht : t = ((s.setProcState p { s.procState p with
      nextMsgNum := (s.procState p).nextMsgNum + 1 }).setOutput p
        (.message (s.buffer (cell (s.procState p).nextMsgNum))) (s.hist.pos p + 1)).setPc p
          (.getCopy datasize (n + 1) max)) : Inv t := by
  subst ht
  have hdata := (hs.procs p).data
  obtain ⟨hmax, hreset⟩ : LocalMax s p max ∧ (s.procState p).resetState = false := hs.pcOk hpc
  obtain ⟨hcurrent, hpos⟩ := hdata.current hmax.receives hreset
  have hlog := hs.queue.logLength
  have hmin := hmax.min_le
  have hle := hmax.le_max
  refine hs.of_read hkeeps (by rw [hpc]; rfl) rfl rfl (by simp) hs.queue ?_ (update_self ..) rfl
    ⟨⟨?_, hmin, hle, ?_⟩, ?_⟩
  all_goals dsimp only [State.setPc, State.setOutput, State.setProcState]
  all_goals rw [update_self]
  · rw [update_self, update_self]
    refine ⟨?_, ?_, fun _ _ => ⟨?_, ?_⟩, by omega, ?_⟩
    · dsimp only
      omega
    · intro hinactive
      have := hmax.receives
      simp [ProcState.receives] at hinactive this
      simp [hinactive] at this
    · dsimp only
      omega
    · dsimp only
      omega
    · exact hdata.explained.message (hs.queue.buffer_cell hcurrent (by omega) hpos)
  · exact hmax.receives
  · omega
  · exact hreset

theorem Inv.move (hs : Inv s) (h : Move s e t) : Inv t := by
  have hkeeps : ∀ p, e.actor = some p → ∀ q ≠ p, Keeps s t q :=
    fun p he q hq => hs.keeps h fun h => hq (Option.some.inj (he.symm.trans h)).symm
  have hqueue := hs.queue
  have hmove := h
  cases h
  case getNothing => exact hs
  case init => exact hs.init hmove
  case exit => exact hs.exit hmove
  case insertStore hpc => exact hs.insertStore hpc (hkeeps _ rfl) rfl
  case insertPublish hpc => exact hs.insertPublish hpc (hkeeps _ rfl) rfl
  case insertFlag hpc => exact hs.insertFlag hpc (hkeeps _ rfl) rfl
  case insert p data hpc =>
    refine hs.of_keeps (hkeeps p rfl) rfl rfl hqueue
      ((hs.procs p).setPc ?_ ?_ (pcOk_insertLoop data))
    · rw [writes_insertLoop]
      exact nofun
    · rw [reads_insertLoop]
      exact nofun
  case get p datasize hpc hreceives hmessages =>
    exact hs.of_keeps (hkeeps p rfl) rfl rfl hqueue
      ((hs.procs p).setPc nofun nofun hreceives)
  case insertAcquire p data hpc hlock =>
    exact hs.of_keeps (hkeeps p rfl) rfl rfl hqueue
      (.of_pc (hs.procs p).data (update_self ..) (fun _ => rfl) nofun trivial)
  case insertBegin p data hpc hfits =>
    have hwrites := (hs.procs p).writes
    rw [hpc] at hwrites
    refine hs.of_keeps (hkeeps p rfl) rfl rfl hqueue
      ((hs.procs p).setPc (fun _ => hwrites rfl) nofun ⟨?_, ?_, ?_⟩)
    · exact (Int.add_zero _).symm
    · have hlen := length_take_le (nthistime data) data
      rw [maxNumMessages] at hfits
      dsimp only [State.setPc, length_nil]
      omega
    · rw [append_nil]
      exact hqueue.ring
  case insertRelease p rest hpc =>
    refine hs.of_keeps (hkeeps p rfl) rfl rfl hqueue
      (.of_pc (hs.procs p).data (update_self ..) ?_ ?_ (pcOk_insertLoop rest))
    · rw [writes_insertLoop]
      exact nofun
    · rw [reads_insertLoop]
      exact nofun
  case getAcquire p datasize hpc =>
    have hreceives : (s.procState p).receives = true := hs.pcOk hpc
    exact hs.of_keeps (hkeeps p rfl) rfl rfl hqueue
      (.of_pc (hs.procs p).data (update_self ..) nofun (fun _ => mem_cons_self) hreceives)
  case getClear p datasize hpc =>
    refine hs.of_read (hkeeps p rfl) (by rw [hpc]; rfl) rfl rfl (by simp) hqueue ?_
      (update_self ..) rfl ?_
    all_goals dsimp only [PcOk, State.setPc, State.setProcState]
    all_goals rw [update_self]
    · exact { (hs.procs p).data with }
    · exact hs.pcOk hpc
  case getMax p datasize hpc =>
    have hp := hs.procs p
    have hreads := hp.reads
    rw [hpc] at hreads
    refine hs.of_keeps (hkeeps p rfl) rfl rfl hqueue
      (hp.setPc nofun (fun _ => hreads rfl)
        ⟨hs.pcOk hpc, hqueue.min_le, Int.le_refl _, ?_⟩)
    have hpos := hp.data.pos_le
    have hlog := hqueue.logLength
    dsimp only [State.setPc]
    omega
  case getBegin p datasize max hpc hreset =>
    have hp := hs.procs p
    have hreads := hp.reads
    have hmax : LocalMax s p max := hs.pcOk hpc
    rw [hpc] at hreads
    exact hs.of_keeps (hkeeps p rfl) rfl rfl hqueue
      (hp.setPc nofun (fun _ => hreads rfl) ⟨{ hmax with }, hreset⟩)
  case getReset hpc hreset => exact hs.getReset hpc (hkeeps _ rfl) rfl
  case getMessage hpc hlt => exact hs.getMessage hpc hlt (hkeeps _ rfl) rfl
  case getAll p datasize n max hpc hge | getMore p datasize n max hpc hfull =>
    refine hs.of_read (hkeeps p rfl) (by rw [hpc]; rfl) rfl rfl (by simp) hqueue ?_
      (update_self ..) rfl trivial
    dsimp only [State.setPc, State.setProcState]
    rw [update_self]
    exact { (hs.procs p).data with }
  case getRelease p hpc =>
    exact hs.of_keeps (hkeeps p rfl) rfl rfl hqueue
      (.of_pc (hs.procs p).data (update_self ..) nofun nofun trivial)

end Move

/-! ### Steps that clean the queue -/

section Cleans

variable {s t : State Msg} {e : Event Msg} {d : ℕ}

/-- Nobody is in the middle of something, but for the one who cleans. -/
structure Quiet (s : State Msg) : Prop where
  readers : s.readers = []
  writeLock (q : ℕ) : s.writeLock = some q → ∃ data, s.pc q = .insertCheck data

theorem quiet_of_writeLock (hreaders : s.readers = []) (hlock : s.writeLock = none) : Quiet s :=
  ⟨hreaders, fun q h => by cases hlock.symm.trans h⟩

theorem Inv.counts (hs : Inv s) :
    ∀ q ∈ s.pgprocnos, (s.procState q).counts = true →
      s.minMsgNum ≤ (s.procState q).nextMsgNum := by
  intro q hq hcounts
  rw [ProcState.counts, Bool.and_eq_true, Bool.not_eq_true'] at hcounts
  refine ((hs.procs q).data.current ?_ hcounts.1).1
  rw [ProcState.receives, (hs.mem_pgprocnos q).1 hq]
  exact hcounts.2

theorem Inv.cleaned (hs : Inv s) (hquiet : Quiet s) (h : Cleaned s t d) : Inv t := by
  have hqueue := hs.queue
  have hmin := h.min_nonneg
  have hlow := h.le_min
  have hle := h.min_le
  have hmax := h.max
  have hfull := hqueue.max_le
  have hlog := hqueue.logLength
  refine ⟨?_, h.pgprocnos ▸ hs.nodup, fun q => ?_, fun q => ?_⟩
  · rw [h.log, h.buffer, h.base]
    refine ⟨by omega, (Nat.dvd_add_right hqueue.dvd).2 h.dvd, hmin, hle, by omega, ?_⟩
    exact hqueue.ring.mono (by omega)
  · rw [h.pgprocnos, h.active, hs.mem_pgprocnos]
  · have hp := hs.procs q
    have hnext := h.nextMsgNum q
    refine ⟨⟨?_, ?_, ?_, ?_, ?_⟩, ?_, ?_, ?_⟩
    · split_ifs at hnext with hq
      · have := hp.data.next_le
        omega
      · rw [hs.mem_pgprocnos, Bool.not_eq_true] at hq
        have := hp.data.inactive hq
        omega
    · rw [h.active]
      intro hinactive
      rw [if_neg (by rw [hs.mem_pgprocnos, hinactive]; exact nofun)] at hnext
      rw [hnext, hp.data.inactive hinactive]
      rfl
    · intro hreceives hreset
      rw [ProcState.receives, h.active, h.sendOnly] at hreceives
      have hreset' : (s.procState q).resetState = false := by
        cases hr : (s.procState q).resetState with
        | false => rfl
        | true => exact (hreset.symm.trans (h.resetState q hr)).symm
      have hpos := (hp.data.current hreceives hreset').2
      rw [Bool.and_eq_true] at hreceives
      have hq : q ∈ s.pgprocnos := (hs.mem_pgprocnos q).2 hreceives.1
      rw [if_pos hq] at hnext
      refine ⟨h.min_le_next q hq ?_, ?_⟩
      · rw [ProcState.counts, hreset, h.sendOnly]
        exact hreceives.2
      · rw [h.pos, h.base]
        omega
    · rw [h.pos, h.log]
      exact hp.data.pos_le
    · rw [h.pos, h.log, h.registered, h.output]
      exact hp.data.explained
    · rw [h.pc, h.writeLock]
      exact hp.writes
    · rw [h.pc, h.readers]
      exact hp.reads
    · have hreads := hp.reads
      have hwrites := hp.writes
      have hpc := hp.pc
      rw [h.pc]
      -- readers hold a lock that nobody holds, and the one who cleans has stored nothing yet
      cases hcase : s.pc q with
      | insertStore =>
        rw [hcase] at hwrites
        obtain ⟨_, hdata⟩ := hquiet.writeLock q (hwrites rfl)
        cases hcase.symm.trans hdata
      | getClear datasize | getMax datasize | getTest datasize max | getCopy datasize n max =>
        rw [hcase, hquiet.readers] at hreads
        cases hreads rfl
      | getAcquire =>
        rw [hcase] at hpc
        rw [PcOk, ProcState.receives, h.active, h.sendOnly]
        exact hpc
      | _ => trivial

/-- Cleaning the queue, after which the locks may be released to send a signal. -/
structure CleansTo (s : State Msg) (e : Event Msg) (u t : State Msg) (d : ℕ) : Prop where
  quiet : Quiet s
  cleaned : Cleaned s u d
  shift : d = 0 ∨ (d : ℤ) = msgNumWraparound
  min_lt : s.maxMsgNum < 2 * msgNumWraparound →
    (e = .resetAll → s.maxMsgNum < msgNumWraparound) → u.minMsgNum < msgNumWraparound
  result : t = u ∨ ∃ p data, e = .advance p ∧ s.pc p = .insertCheck data ∧
    t = { u.setPc p (.insertAcquire data) with writeLock := none }

theorem Inv.cleans (hs : Inv s) (h : Cleans s e t) : ∃ u d, CleansTo s e u t d := by
  have hqueue := hs.queue
  have hclean := cleaned_siCleanupQueue hs.nodup hqueue.min_nonneg hqueue.min_le hs.counts
  have hholder : ∀ p data, s.readers = [] → s.pc p = .insertCheck data → Quiet s := by
    intro p data hreaders hpc
    refine ⟨hreaders, fun q hq => ⟨data, ?_⟩⟩
    have hwrites := (hs.procs p).writes
    rw [hpc] at hwrites
    rw [← hpc, Option.some.inj (hq.symm.trans (hwrites rfl))]
  cases h with
  | insertSignal hpc _ hreaders =>
    obtain ⟨d, hcleaned, hd, hlt⟩ := hclean _
    exact ⟨_, d, hholder _ _ hreaders hpc, hcleaned, hd, fun h _ => hlt h,
      .inr ⟨_, _, rfl, hpc, rfl⟩⟩
  | insertClean hpc _ hreaders =>
    obtain ⟨d, hcleaned, hd, hlt⟩ := hclean _
    exact ⟨_, d, hholder _ _ hreaders hpc, hcleaned, hd, fun h _ => hlt h, .inl rfl⟩
  | cleanup hlock hreaders =>
    obtain ⟨d, hcleaned, hd, hlt⟩ := hclean _
    exact ⟨_, d, quiet_of_writeLock hreaders hlock, hcleaned, hd, fun h _ => hlt h, .inl rfl⟩
  | resetAll hlock hreaders =>
    exact ⟨_, 0, quiet_of_writeLock hreaders hlock,
      cleaned_resetAll hqueue.min_nonneg hqueue.min_le, .inl rfl, fun _ h => h rfl, .inl rfl⟩

variable {u : State Msg}

theorem keeps_release {p q : ℕ} {data : List Msg} (hu : Inv u)
    (hpc : u.pc p = .insertCheck data) (hq : q ≠ p) :
    Keeps u { u.setPc p (.insertAcquire data) with writeLock := none } q := by
  have hlock : u.writeLock ≠ some q := by
    have hwrites := (hu.procs p).writes
    rw [hpc] at hwrites
    rw [hwrites rfl]
    exact fun h => hq (Option.some.inj h).symm
  constructor <;> simp [hq, hlock]

theorem Inv.release {p : ℕ} {data : List Msg} (hu : Inv u) (hpc : u.pc p = .insertCheck data) :
    Inv { u.setPc p (.insertAcquire data) with writeLock := none } := by
  refine hu.of_keeps (fun q => keeps_release hu hpc) rfl rfl hu.queue
    ⟨(hu.procs p).data, ?_, ?_, ?_⟩
  all_goals
    dsimp only [State.setPc]
    rw [update_self]
  · exact nofun
  · exact nofun
  · trivial

theorem CleansTo.inv (h : CleansTo s e u t d) (hs : Inv s) : Inv u ∧ Inv t := by
  have hu := hs.cleaned h.quiet h.cleaned
  refine ⟨hu, ?_⟩
  rcases h.result with rfl | ⟨p, _, -, hpc, rfl⟩
  · exact hu
  · exact hu.release (h.cleaned.pc ▸ hpc)

/-- The invariant holds after every step. -/
theorem Inv.step (hs : Inv s) (h : step s e = some t) : Inv t := by
  rcases move_of_step h with h | h
  · exact hs.move h
  · obtain ⟨u, d, h⟩ := hs.cleans h
    exact (h.inv hs).2

end Cleans

end PgCutover.SInval
