import PgCutover.Ipc.SInvalCounters
import PgCutover.Lib.Runs

/-!
# Delivery of invalidation messages

A message that a backend has not got is announced: by the backend's flag, by the counter that the
backend has just fetched, or by the inserter that is still at it.
-/

namespace PgCutover.SInval

open Function State Lib

variable {Msg : Type}

/-! ### The flags -/

/-- The process will see that there is a message with the number. -/
def Pc.sees (base : ℕ) (hasMessages : Bool) (j : ℕ) : Pc Msg → Prop
  | .getClear _ | .getMax _ => True
  | .getTest _ max | .getCopy _ _ max => (j : ℤ) < base + max ∨ hasMessages = true
  | _ => hasMessages = true

theorem Pc.sees_true (base j : ℕ) (pc : Pc Msg) : pc.sees base true j := by
  cases pc <;> first | exact rfl | exact trivial | exact .inr rfl

theorem Pc.sees_of_reads {pc : Pc Msg} (h : pc.reads = false) (base j : ℕ) (hasMessages : Bool) :
    pc.sees base hasMessages j ↔ hasMessages = true := by
  cases pc <;> first | exact Iff.rfl | cases h

/-- The backend has got past the message, or will see that it is there. -/
def Notified (s : State Msg) (p j : ℕ) : Prop :=
  s.hist.pos p ≤ j → (s.pc p).sees s.hist.base (s.procState p).hasMessages j

section Notified

variable {s t u : State Msg} {e : Event Msg} {p q j d : ℕ}

/-- A backend whose flag is set will look. -/
theorem notified_of_hasMessages (h : (s.procState p).hasMessages = true) : Notified s p j := by
  intro _
  rw [h]
  exact Pc.sees_true ..

/-- Steps of other processes leave a backend notified. -/
theorem Notified.keeps (h : Notified s p j) (hk : Keeps s t p) : Notified t p j := by
  intro hpos
  rw [hk.pos] at hpos
  cases hmessages : (s.procState p).hasMessages with
  | true => exact notified_of_hasMessages (hk.hasMessages hmessages) (hk.pos ▸ hpos)
  | false =>
    have := h hpos
    rw [hk.pc, hk.base]
    cases hmessages' : (t.procState p).hasMessages with
    | true => exact Pc.sees_true ..
    | false => exact hmessages ▸ this

/-- Nobody reads while both locks are held for a cleanup. -/
theorem Quiet.reads (hquiet : Quiet s) (hs : Inv s) (p : ℕ) : (s.pc p).reads = false := by
  cases hr : (s.pc p).reads with
  | false => rfl
  | true =>
    have := (hs.procs p).reads hr
    rw [hquiet.readers] at this
    cases this

/-- A cleanup renumbers the messages and leaves a backend notified. -/
theorem Notified.cleaned (h : Notified s p j) (hs : Inv s) (hquiet : Quiet s)
    (hc : Cleaned s u d) : Notified u p j := by
  have hreads := hquiet.reads hs p
  intro hpos
  rw [hc.pos] at hpos
  rw [hc.pc, Pc.sees_of_reads hreads]
  exact hc.hasMessages p ((Pc.sees_of_reads hreads ..).1 (h hpos))

theorem Notified.of_reads (h : Notified s p j) (hs : (s.pc p).reads = false)
    (ht : (t.pc p).reads = false) (hpos : t.hist.pos p = s.hist.pos p)
    (hmessages : (s.procState p).hasMessages = true → (t.procState p).hasMessages = true) :
    Notified t p j := by
  intro hle
  rw [hpos] at hle
  exact (Pc.sees_of_reads ht ..).2 (hmessages ((Pc.sees_of_reads hs ..).1 (h hle)))

/-- A backend's own steps lose no announcement before the message is read. -/
theorem Notified.own (h : Notified s p j) (hs : Inv s) (hmove : Move s e t)
    (he : e.actor = some p) (hreceives : (s.procState p).receives = true) (hexit : e ≠ .exit p)
    (hj : j < s.hist.log.length) : Notified t p j := by
  have hlog := hs.queue.logLength
  have hdata := (hs.procs p).data
  cases hmove
  all_goals obtain rfl := Option.some.inj he
  case exit => exact absurd rfl hexit
  case init p _ hpc hlock hactive =>
    rw [ProcState.receives, hactive] at hreceives
    cases hreceives
  case getNothing => exact h
  -- the steps of `SIInsertDataEntries`, and those before the lock is taken
  case insert hpc | insertRelease hpc =>
    exact h.of_reads (by rw [hpc]; rfl) (by simp [reads_insertLoop]) rfl id
  case get hpc _ _ | insertAcquire hpc _ | insertBegin hpc _ | insertStore hpc |
      insertPublish hpc =>
    exact h.of_reads (by rw [hpc]; rfl) (by simp [Pc.reads]) rfl id
  case insertFlag p i todo rest hpc =>
    refine h.of_reads (by rw [hpc]; rfl) (by simp [Pc.reads]) rfl fun hmessages => ?_
    by_cases hi : p = i
    · simp [hi]
    · simp [hi, hmessages]
  -- the steps of `SIGetDataEntries`
  case getAcquire | getClear =>
    intro _
    simp [Pc.sees]
  case getMax hpc =>
    intro _
    simp only [setPc_pc, update_self, setPc_hist]
    exact .inl (by omega)
  case getReset p datasize max hpc hreset =>
    have hmax := (hs.procs p).pc
    rw [hpc] at hmax
    have hpos := hmax.pos_le
    intro hle
    simp only [setPc_hist, setOutput_hist_pos, update_self] at hle
    have hsees := h (by omega)
    rw [hpc] at hsees
    simp only [setPc_pc, update_self, Pc.sees, setPc_procState, setOutput_procState,
      setProcState_procState]
    exact hsees.resolve_left (by omega)
  case getBegin hpc _ | getRelease hpc =>
    intro hle
    have hsees := h hle
    rw [hpc] at hsees
    simp only [setPc_pc, update_self]
    exact hsees
  case getMessage hpc hlt =>
    intro hle
    simp only [setPc_hist, setOutput_hist_pos, update_self] at hle
    have hsees := h (by omega)
    rw [hpc] at hsees
    simp only [setPc_pc, update_self, Pc.sees, setPc_procState, setOutput_procState,
      setProcState_procState]
    exact hsees
  case getAll p datasize n max hpc hge =>
    have hmax := (hs.procs p).pc
    rw [hpc] at hmax
    have hpos := (hdata.current hreceives hmax.2).2
    intro hle
    have hle : s.hist.pos p ≤ j := hle
    have hsees := h hle
    rw [hpc] at hsees
    simp only [setPc_pc, update_self, setPc_procState, setProcState_procState]
    exact hsees.resolve_left (by omega)
  case getMore =>
    exact notified_of_hasMessages (by simp)

/-- Whether a backend receives messages is decided when it is registered. -/
theorem Inv.receives_eq (hs : Inv s) (h : SInval.step s e = some t) (hexit : e ≠ .exit p)
    (hinit : ∀ sendOnly, e ≠ .init p sendOnly) :
    (t.procState p).receives = (s.procState p).receives := by
  rcases move_of_step h with h | h
  · by_cases he : e.actor = some p
    · cases h
      all_goals obtain rfl := Option.some.inj he
      case exit => exact absurd rfl hexit
      case init sendOnly _ _ _ => exact absurd rfl (hinit sendOnly)
      case insertFlag p i _ _ hpc =>
        obtain ⟨b, hb⟩ := update_hasMessages s.procState i p
        simp only [setPc_procState, setProcState_procState, hb]
        rfl
      all_goals first
        | rfl
        | simp only [setPc_procState, setOutput_procState, setProcState_procState, update_self]
          rfl
    · exact (hs.keeps h he).receives
  · obtain ⟨u, d, h⟩ := hs.cleans h
    have hu : (u.procState p).receives = (s.procState p).receives := by
      rw [ProcState.receives, h.cleaned.active, h.cleaned.sendOnly, ProcState.receives]
    rcases h.result with rfl | ⟨q, _, -, -, rfl⟩
    · exact hu
    · exact hu

theorem ne_init_of_receives {sendOnly : Bool} (h : SInval.step s e = some t)
    (hreceives : (s.procState p).receives = true) : e ≠ .init p sendOnly := by
  rintro rfl
  rcases move_of_step h with h | h <;> cases h
  rename_i hactive
  rw [ProcState.receives, hactive] at hreceives
  cases hreceives

/-- Only a new registration changes where a backend begins. -/
theorem Inv.registered_step (hs : Inv s) (h : SInval.step s e = some t)
    (hreceives : (s.procState p).receives = true) :
    t.hist.registered p = s.hist.registered p := by
  have hinit := fun b => @ne_init_of_receives _ s t e p b h hreceives
  rcases move_of_step h with h | h
  · by_cases he : e.actor = some p
    · cases h
      all_goals obtain rfl := Option.some.inj he
      case init sendOnly _ _ _ => exact absurd rfl (hinit sendOnly)
      all_goals rfl
    · exact (hs.keeps h he).registered
  · obtain ⟨u, d, h⟩ := hs.cleans h
    have hu := congrFun h.cleaned.registered p
    rcases h.result with rfl | ⟨q, _, -, -, rfl⟩
    · exact hu
    · exact hu

theorem Inv.receives_step (hs : Inv s) (h : SInval.step s e = some t) (hexit : e ≠ .exit p)
    (hreceives : (s.procState p).receives = true) : (t.procState p).receives = true :=
  (hs.receives_eq h hexit fun _ => ne_init_of_receives h hreceives).trans hreceives

/-- A backend that receives messages did so before, or has just been registered. -/
theorem Inv.receives_of_step (hs : Inv s) (h : SInval.step s e = some t)
    (hreceives : (t.procState p).receives = true) :
    (s.procState p).receives = true ∧ e ≠ .exit p ∨ t.hist.pos p = t.hist.log.length := by
  by_cases hinit : ∃ sendOnly, e = .init p sendOnly
  · obtain ⟨_, rfl⟩ := hinit
    rcases move_of_step h with h | h <;> cases h
    exact .inr (update_self ..)
  · have hexit : e ≠ .exit p := by
      rintro rfl
      rcases move_of_step h with h | h <;> cases h
      simp [ProcState.receives] at hreceives
    exact .inl ⟨(hs.receives_eq h hexit fun b hb => hinit ⟨b, hb⟩).symm.trans hreceives, hexit⟩

/-- A backend stays notified of a message until it has it. -/
theorem Notified.step (h : Notified s p j) (hs : Inv s) (hstep : SInval.step s e = some t)
    (hreceives : (s.procState p).receives = true) (hexit : e ≠ .exit p)
    (hj : j < s.hist.log.length) : Notified t p j := by
  rcases move_of_step hstep with hmove | hclean
  · by_cases he : e.actor = some p
    · exact h.own hs hmove he hreceives hexit hj
    · exact h.keeps (hs.keeps hmove he)
  · obtain ⟨u, d, hu⟩ := hs.cleans hclean
    have hn := h.cleaned hs hu.quiet hu.cleaned
    rcases hu.result with rfl | ⟨q, _, -, hpc, rfl⟩
    · exact hn
    · by_cases hq : p = q
      · subst hq
        refine hn.of_reads ?_ (by simp [Pc.reads]) rfl id
        rw [hu.cleaned.pc, hpc]
        rfl
      · exact hn.keeps (keeps_release (hu.inv hs).1 (hu.cleaned.pc ▸ hpc) hq)

end Notified

/-! ### The inserter that is still at it -/

/-- Some process has still to set the backend's flag. -/
def ToBeTold (s : State Msg) (p : ℕ) : Prop :=
  ∃ q todo rest, s.pc q = .insertFlag todo rest ∧ p ∈ todo

/-- Every backend that receives messages is notified, or will be. -/
def AllTold (s : State Msg) : Prop :=
  ∀ p, (s.procState p).receives = true →
    ToBeTold s p ∨ ∀ j < s.hist.log.length, Notified s p j

theorem allTold_init (buffer : ℕ → Msg) : AllTold (init buffer) :=
  nofun

section Told

variable {s t u : State Msg} {e : Event Msg} {p q j d : ℕ}

/-- Messages are inserted only when all backends are about to be told. -/
theorem Inv.log_step (hs : Inv s) (h : SInval.step s e = some t) :
    t.hist.log = s.hist.log ∨
      s.hist.log <+: t.hist.log ∧ t.procState = s.procState ∧
        ∃ q rest, t.pc q = .insertFlag s.pgprocnos rest := by
  rcases move_of_step h with h | h
  · cases h
    case insertPublish p stored rest max hpc =>
      exact .inr ⟨List.prefix_append _ _, rfl, p, rest, update_self ..⟩
    all_goals exact .inl rfl
  · obtain ⟨u, d, h⟩ := hs.cleans h
    rcases h.result with rfl | ⟨q, _, -, -, rfl⟩
    all_goals exact .inl h.cleaned.log

/-- The inserter goes through its list. -/
theorem Inv.toBeTold_step (hs : Inv s) (h : SInval.step s e = some t) (htold : ToBeTold s p) :
    ToBeTold t p ∨ (t.procState p).hasMessages = true := by
  obtain ⟨q, todo, rest, hpc, hp⟩ := htold
  rcases move_of_step h with h | h
  · by_cases he : e.actor = some q
    · cases h
      all_goals obtain rfl := Option.some.inj he
      case insertFlag q i todo' rest' hpc' =>
        cases hpc.symm.trans hpc'
        rcases List.mem_cons.1 hp with rfl | hp
        · exact .inr (by simp)
        · exact .inl ⟨q, todo', rest, by simp, hp⟩
      all_goals simp_all
    · exact .inl ⟨q, todo, rest, (hs.keeps h he).pc.trans hpc, hp⟩
  · obtain ⟨u, d, h⟩ := hs.cleans h
    have hwrites := (hs.procs q).writes
    rw [hpc] at hwrites
    obtain ⟨_, hdata⟩ := h.quiet.writeLock q (hwrites rfl)
    cases hpc.symm.trans hdata

/-- Every step keeps all backends told of all messages. -/
theorem AllTold.step (h : AllTold s) (hs : Inv s) (hstep : SInval.step s e = some t) :
    AllTold t := by
  intro p hp
  rcases hs.log_step hstep with hlog | ⟨-, hproc, q, rest, hpc⟩
  · rcases hs.receives_of_step hstep hp with ⟨hreceives, hexit⟩ | hpos
    · rcases h p hreceives with htold | hnotified
      · rcases hs.toBeTold_step hstep htold with htold | hmessages
        · exact .inl htold
        · exact .inr fun j _ => notified_of_hasMessages hmessages
      · rw [hlog]
        exact .inr fun j hj => (hnotified j hj).step hs hstep hreceives hexit hj
    · exact .inr fun j hj hle => by omega
  · refine .inl ⟨q, _, rest, hpc, ?_⟩
    rw [hproc, ProcState.receives, Bool.and_eq_true] at hp
    exact (hs.mem_pgprocnos p).2 hp.1

end Told

/-! ### A backend that keeps calling -/

/-- The call in progress may still get its first message. -/
def firstOf (datasize n : ℕ) : ℕ := if 0 < datasize ∧ n = 0 then 1 else 0

/-- Every call so far has got a message, but for the one in progress, which will. -/
def Pc.paid (base j pos calls : ℕ) : Pc Msg → Prop
  | .getAcquire datasize | .getClear datasize | .getMax datasize =>
    calls ≤ pos + firstOf datasize 0
  | .getTest datasize max => (j : ℤ) < base + max ∧ calls ≤ pos + firstOf datasize 0
  | .getCopy datasize n max => (j : ℤ) < base + max ∧ calls ≤ pos + firstOf datasize n
  | _ => calls ≤ pos

/-- A backend that has not got past the message `j` made at most so many calls. -/
def Progress (s : State Msg) (p j calls : ℕ) : Prop :=
  s.hist.pos p ≤ j → calls = 0 ∨ (s.pc p).paid s.hist.base j (s.hist.pos p) calls

/-- A call of `SIGetDataEntries` by the backend that has room for a message. -/
def isGet (p : ℕ) : Event Msg → Bool
  | .get q datasize => decide (q = p) && decide (0 < datasize)
  | _ => false

section Progress

variable {s t u : State Msg} {e : Event Msg} {p q j d calls : ℕ}

/-- A call is paid for by a message that is read, but for one. -/
theorem Pc.le_of_paid {pc : Pc Msg} {base pos : ℕ} (h : pc.paid base j pos calls) :
    calls ≤ pos + 1 := by
  have hfirst : ∀ datasize n, firstOf datasize n ≤ 1 := by
    intro _ n
    rw [firstOf]
    split_ifs <;> omega
  cases pc with
  | getAcquire datasize | getClear datasize | getMax datasize =>
    exact Nat.le_trans h (Nat.add_le_add_left (hfirst ..) _)
  | getTest datasize max | getCopy datasize n max =>
    exact Nat.le_trans h.2 (Nat.add_le_add_left (hfirst ..) _)
  | _ => exact Nat.le_succ_of_le h

theorem Pc.paid_of_reads {pc : Pc Msg} (h : pc.reads = false) {base base' pos : ℕ}
    (hpaid : pc.paid base j pos calls) : pc.paid base' j pos calls := by
  cases pc <;> first | exact hpaid | cases h

theorem isGet_of_actor (he : e.actor ≠ some p) : isGet p e = false := by
  cases e with
  | get q =>
    rw [isGet, decide_eq_false fun h : q = p => he (congrArg some h)]
    rfl
  | _ => rfl

/-- Steps of other processes leave the progress alone. -/
theorem Progress.keeps (h : Progress s p j calls) (hk : Keeps s t p) : Progress t p j calls := by
  rw [Progress, hk.pc, hk.base, hk.pos]
  exact h

/-- So does a cleanup. -/
theorem Progress.cleaned (h : Progress s p j calls) (hs : Inv s) (hquiet : Quiet s)
    (hc : Cleaned s u d) : Progress u p j calls := by
  intro hpos
  rw [hc.pos] at hpos ⊢
  rw [hc.pc]
  exact (h hpos).imp_right (Pc.paid_of_reads (hquiet.reads hs p))

theorem isGet_toNat (p datasize : ℕ) :
    (isGet p (.get p datasize : Event Msg)).toNat = firstOf datasize 0 := by
  rw [isGet, firstOf]
  by_cases h : 0 < datasize <;> simp [h]

theorem firstOf_succ (datasize n : ℕ) : firstOf datasize (n + 1) = 0 := by
  simp [firstOf]

theorem firstOf_eq_zero {datasize n : ℕ} (h : datasize ≤ n) : firstOf datasize n = 0 := by
  rw [firstOf, if_neg (by omega)]

/-- A call of the backend brings it forward by a message or ends its wait. -/
theorem Progress.own (h : Progress s p j calls) (hs : Inv s) (hmove : Move s e t)
    (he : e.actor = some p) (hreceives : (s.procState p).receives = true) (hexit : e ≠ .exit p)
    (hj : j < s.hist.log.length) (hn : Notified s p j) :
    Progress t p j (calls + (isGet p e).toNat) := by
  have hlog := hs.queue.logLength
  have hdata := (hs.procs p).data
  cases hmove
  all_goals obtain rfl := Option.some.inj he
  case exit => exact absurd rfl hexit
  case init p _ hpc hlock hactive =>
    rw [ProcState.receives, hactive] at hreceives
    cases hreceives
  -- a call that finds no messages has missed none
  case getNothing hpc hmessages =>
    intro hle
    have hsees := hn hle
    rw [hpc, hmessages] at hsees
    cases hsees
  case get p datasize hpc _ _ =>
    intro hle
    have hpaid := h hle
    rw [hpc] at hpaid
    rw [isGet_toNat]
    simp only [setPc_pc, update_self, Pc.paid, setPc_hist] at hpaid ⊢
    omega
  case insert p rest hpc | insertRelease p rest hpc =>
    intro hle
    have hpaid := h hle
    rw [hpc] at hpaid
    simp only [setPc_pc, update_self]
    rcases insertLoop_eq rest with h | h <;> rw [h] <;> exact hpaid
  case insertAcquire hpc _ | insertBegin hpc _ | insertStore hpc | insertPublish hpc |
      insertFlag hpc | getAcquire hpc | getClear hpc | getBegin hpc _ | getRelease hpc =>
    intro hle
    have hpaid := h hle
    rw [hpc] at hpaid
    simp only [setPc_pc, update_self]
    exact hpaid
  case getMax p datasize hpc =>
    intro hle
    have hpaid := h hle
    rw [hpc] at hpaid
    simp only [setPc_pc, update_self, setPc_hist] at hpaid ⊢
    exact hpaid.imp_right fun hcalls => ⟨by omega, hcalls⟩
  case getReset p datasize max hpc hreset =>
    have hmax := (hs.procs p).pc
    rw [hpc] at hmax
    have hpos := hmax.pos_le
    intro hle
    simp only [setPc_hist, setOutput_hist_pos, update_self] at hle
    have hpaid := h (by omega)
    rw [hpc] at hpaid
    exact hpaid.imp_right fun hpaid => by
      have := hpaid.1
      omega
  case getMessage p datasize n max hpc hlt =>
    intro hle
    simp only [setPc_hist, setOutput_hist_pos, update_self] at hle
    have hpaid := h (by omega)
    rw [hpc] at hpaid
    simp only [setPc_pc, update_self, Pc.paid, setPc_hist, setOutput_hist_pos, firstOf_succ]
    refine hpaid.imp_right fun hpaid => ⟨hpaid.1, ?_⟩
    have hcalls : calls ≤ s.hist.pos p + 1 := Pc.le_of_paid hpaid
    exact hcalls
  case getAll p datasize n max hpc hge =>
    have hmax := (hs.procs p).pc
    rw [hpc] at hmax
    have hpos := (hdata.current hreceives hmax.2).2
    intro hle
    have hle : s.hist.pos p ≤ j := hle
    have hpaid := h hle
    rw [hpc] at hpaid
    exact hpaid.imp_right fun hpaid => by
      have := hpaid.1
      omega
  case getMore p datasize n max hpc hfull =>
    intro hle
    have hpaid := h hle
    rw [hpc] at hpaid
    simp only [setPc_pc, update_self]
    refine hpaid.imp_right fun hpaid => ?_
    have hcalls := hpaid.2
    rw [firstOf_eq_zero hfull] at hcalls
    exact hcalls

/-- What is kept for a backend that keeps calling, from the insertion of the message `j` on. -/
structure Waiting (s : State Msg) (p j calls : ℕ) : Prop where
  receives : (s.procState p).receives = true
  registered : s.hist.registered p ≤ j
  inserted : j < s.hist.log.length
  notified : Notified s p j
  progress : Progress s p j calls

/-- A step keeps the account of a backend that waits for a message. -/
theorem Waiting.step (h : Waiting s p j calls) (hs : Inv s) (hstep : SInval.step s e = some t)
    (hexit : e ≠ .exit p) : Waiting t p j (calls + (isGet p e).toNat) := by
  refine ⟨hs.receives_step hstep hexit h.receives,
    hs.registered_step hstep h.receives ▸ h.registered, ?_,
    h.notified.step hs hstep h.receives hexit h.inserted, ?_⟩
  · rcases hs.log_step hstep with hlog | ⟨hlog, -⟩
    · exact hlog ▸ h.inserted
    · exact Nat.lt_of_lt_of_le h.inserted hlog.length_le
  · rcases move_of_step hstep with hmove | hclean
    · by_cases he : e.actor = some p
      · exact h.progress.own hs hmove he h.receives hexit h.inserted h.notified
      · rw [isGet_of_actor he]
        exact h.progress.keeps (hs.keeps hmove he)
    · obtain ⟨u, d, hu⟩ := hs.cleans hclean
      have hp := h.progress.cleaned hs hu.quiet hu.cleaned
      have hget : isGet p e = false := by
        cases hclean <;> rfl
      rw [hget]
      rcases hu.result with rfl | ⟨q, _, -, hpc, rfl⟩
      · exact hp
      · have hpc' := hu.cleaned.pc ▸ hpc
        by_cases hq : p = q
        · subst hq
          intro hle
          have hpaid := hp hle
          rw [hpc'] at hpaid
          simp only [setPc_pc, update_self]
          exact hpaid
        · exact hp.keeps (keeps_release (hu.inv hs).1 hpc' hq)

/-- A backend that has not got past the message has not called often. -/
theorem Waiting.lt_pos (h : Waiting s p j calls) (hcalls : j + 2 ≤ calls) : j < s.hist.pos p := by
  refine Nat.lt_of_not_le fun hle => ?_
  rcases h.progress hle with h | h
  · omega
  · have := Pc.le_of_paid h
    omega

end Progress

/-! ### All runs -/

/-- What holds in every state that is reached. -/
structure Reached (s : State Msg) : Prop where
  inv : Inv s
  bounded : Bounded s
  allTold : AllTold s

section Runs

variable {s t : State Msg} {p j : ℕ}

/-- What holds in reachable states is kept by every step. -/
theorem Reached.step {e : Event Msg} (h : Reached s) (hstep : okStep s e = some t) : Reached t :=
  have hs := (okStep_eq_some.1 hstep).2
  ⟨h.inv.step hs, h.bounded.step h.inv hstep, h.allTold.step h.inv hs⟩

theorem reached_of_trace {buffer : ℕ → Msg} {l : List (Event Msg)}
    (h : trace okStep (init buffer) l = some s) : Reached s :=
  trace_invariant (fun _ _ _ => Reached.step)
    ⟨inv_init buffer, bounded_init buffer, allTold_init buffer⟩ h

/-- The calls are counted along the run. -/
theorem Waiting.trace (hs : Reached s) (h : Waiting s p j 0) {l : List (Event Msg)}
    (htrace : Lib.trace okStep s l = some t) (hexit : .exit p ∉ l) :
    Waiting t p j (l.countP (isGet p)) := by
  have hhist := @trace_history _ _ okStep s t l
    (fun l u => Reached u ∧ (.exit p ∉ l → Waiting u p j (l.countP (isGet p))))
    (fun l u e v ih hstep => by
      refine ⟨ih.1.step hstep, fun hexit => ?_⟩
      rw [List.mem_append, not_or, List.mem_singleton] at hexit
      have hwait := (ih.2 hexit.1).step ih.1.inv (okStep_eq_some.1 hstep).2 (Ne.symm hexit.2)
      rw [List.countP_append, List.countP_singleton]
      cases hget : isGet p e <;> rw [hget] at hwait <;> exact hwait)
    ⟨hs, fun _ => h⟩ htrace
  exact hhist.2 hexit

/-- A value of the type `int`. -/
def IsInt (n : ℤ) : Prop := -2147483648 ≤ n ∧ n ≤ 2147483647

theorem Reached.isInt (h : Reached s) :
    IsInt s.minMsgNum ∧ IsInt s.maxMsgNum ∧ ∀ p, IsInt (s.procState p).nextMsgNum := by
  have hnonneg := h.inv.queue.min_nonneg
  have hle := h.inv.queue.min_le
  have hmax := h.inv.queue.max_le
  have hlt := h.bounded.min_lt
  have hw : msgNumWraparound = 1073741824 := by decide
  refine ⟨⟨by omega, by omega⟩, ⟨by omega, by omega⟩, fun p => ?_⟩
  have hge := h.bounded.next_ge p
  have hnext := (h.inv.procs p).data.next_le
  exact ⟨by omega, by omega⟩

end Runs

/-- In every run whose steps all meet the condition: the outputs of a backend walk along the log
of messages; a backend that keeps calling gets every message inserted after it was registered, or
a reset; the unread messages of a backend that is not in reset state are in the buffer; and the
counters are `int`s. -/
theorem sharedInvalidation_spec (buffer : ℕ → Msg) (l : List (Event Msg)) (s : State Msg)
    (h : trace okStep (init buffer) l = some s) :
    (∀ p, Explains s.hist.log (s.hist.registered p) (s.hist.output p) (s.hist.pos p)) ∧
    (∀ p j l' t, (s.procState p).receives = true → ¬ ToBeTold s p →
      s.hist.registered p ≤ j → j < s.hist.log.length →
      trace okStep s l' = some t → .exit p ∉ l' → j + 2 ≤ l'.countP (isGet p) →
      Got t.hist.log (t.hist.registered p) (t.hist.output p) j) ∧
    (∀ p n, (s.procState p).receives = true → (s.procState p).resetState = false →
      (s.procState p).nextMsgNum ≤ n → n < s.maxMsgNum →
      s.hist.log[(s.hist.base + n).toNat]? = some (s.buffer (cell n))) ∧
    IsInt s.minMsgNum ∧ IsInt s.maxMsgNum ∧ ∀ p, IsInt (s.procState p).nextMsgNum := by
  have hs := reached_of_trace h
  refine ⟨fun p => (hs.inv.procs p).data.explained, ?_, ?_, hs.isInt⟩
  · intro p j _ t hreceives htold hregistered hj htrace hexit hcalls
    have hnotified := (hs.allTold p hreceives).resolve_left htold
    have hwait : Waiting s p j 0 :=
      ⟨hreceives, hregistered, hj, hnotified j hj, fun _ => .inl rfl⟩
    have ht := hwait.trace hs htrace hexit
    have hinv := (trace_invariant (fun _ _ _ => Reached.step) hs htrace).inv
    exact (hinv.procs p).data.explained.got ht.registered (ht.lt_pos hcalls)
  · intro p n hreceives hreset hn hmax
    have hmin := ((hs.inv.procs p).data.current hreceives hreset).1
    have hnonneg := hs.inv.queue.min_nonneg
    exact hs.inv.queue.buffer_cell (by omega) hmax (by omega)

/-- A backend is registered, another process inserts a message. -/
def insertRun : List (Event ℕ) :=
  [.init 0 false, .insert 1 [7]] ++ List.replicate 6 (.advance 1)

/-- The backend calls twice. -/
def getRun : List (Event ℕ) := .get 0 32 :: List.replicate 7 (.advance 0) ++ [.get 0 32]

theorem sharedInvalidation_spec_getRun :
    ∃ s t, trace okStep (init fun _ => 0) insertRun = some s ∧ trace okStep s getRun = some t ∧
      Got t.hist.log (t.hist.registered 0) (t.hist.output 0) 0 := by
  obtain ⟨s, hs, hfacts⟩ := Option.map_eq_some_iff.1 (show
    (trace okStep (init fun _ => 0) insertRun).map (fun s =>
      (s.hist.registered 0, s.hist.log.length, (s.procState 0).receives, s.writeLock)) =
    some (0, 1, true, none) by decide +kernel)
  obtain ⟨t, ht⟩ : ∃ t, trace okStep (init fun _ => 0) (insertRun ++ getRun) = some t :=
    Option.isSome_iff_exists.1 (by decide +kernel)
  rw [trace_append, hs] at ht
  simp only [Prod.mk.injEq] at hfacts
  obtain ⟨hregistered, hlength, hreceives, hlock⟩ := hfacts
  have htold : ¬ ToBeTold s 0 := by
    rintro ⟨q, _, _, hpc, -⟩
    have hwrites := ((reached_of_trace hs).inv.procs q).writes
    rw [hpc, hlock] at hwrites
    cases hwrites rfl
  exact ⟨s, t, hs, ht, (sharedInvalidation_spec _ _ s hs).2.1 0 0 getRun t hreceives htold
    (Nat.le_of_eq hregistered) (by omega) ht (by simp [getRun]) (by decide)⟩

/-! ### The counters without the condition -/

/-- A process inserts one message, and then all backends are reset. -/
def resetRound : List (Event Unit) :=
  .insert 0 [()] :: List.replicate 5 (.advance 0) ++ [.resetAll]

/-- Nobody is at work, the queue is empty, and so many messages have been inserted. -/
structure IsReset (s : State Unit) (m : ℕ) : Prop where
  pc : s.pc 0 = .idle
  writeLock : s.writeLock = none
  readers : s.readers = []
  pgprocnos : s.pgprocnos = []
  min : s.minMsgNum = m
  max : s.maxMsgNum = m
  threshold : s.nextThreshold = cleanupMin

/-- A round raises the counters by one, and nothing is subtracted. -/
theorem IsReset.round {s : State Unit} {m : ℕ} (h : IsReset s m) :
    ∃ t, trace step s resetRound = some t ∧ IsReset t (m + 1) := by
  obtain ⟨hpc, hlock, hreaders, hprocnos, hmin, hmax, hthr⟩ := h
  simp [resetRound, List.replicate, trace, step, State.insert, hpc, insertLoop, State.advance,
    hlock, State.insertCheck, hmin, hmax, hthr, nthistime, writeQuantum, maxNumMessages, cleanupMin,
    hprocnos, State.siResetAll, hreaders]
  constructor <;> simp [cleanupMin, maxNumMessages]

/-- The counters can get as high as one likes. -/
theorem exists_isReset (m : ℕ) :
    ∃ l s, trace step (init fun _ => ()) l = some s ∧ IsReset s m := by
  induction m with
  | zero => exact ⟨[], _, rfl, rfl, rfl, rfl, rfl, rfl, rfl, rfl⟩
  | succ m ih =>
    obtain ⟨l, s, hl, hs⟩ := ih
    obtain ⟨t, ht, hreset⟩ := hs.round
    exact ⟨l ++ resetRound, t, trace_append_eq_some.2 ⟨s, hl, ht⟩, hreset⟩

/-- Resetting all backends before the queue fills up lets `maxMsgNum` grow without bound. -/
theorem maxMsgNum_resetAll_overflow :
    ∃ l s, trace step (init fun _ => ()) l = some s ∧ ¬ IsInt s.maxMsgNum := by
  obtain ⟨l, s, hl, hs⟩ := exists_isReset 2147483648
  refine ⟨l, s, hl, fun h => ?_⟩
  have := h.2
  rw [hs.max] at this
  omega

end PgCutover.SInval
