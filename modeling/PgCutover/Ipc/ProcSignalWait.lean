import PgCutover.Ipc.ProcSignalBarrier
import PgCutover.Lib.Runs

/-!
# When a wait for a barrier returns

Each event keeps what a process owes to a call that emits a barrier, until the process has run
the handler or is gone. A wait passes the slot of the process only when nothing is owed.
-/

namespace PgCutover.ProcSignal

open Function Lib List

/-- Does the event increase the shared generation? -/
def Event.isIncrement : Event → Bool
  | .emitIncrement _ => true
  | _ => false

/-! ### Generations along a run -/

section Generations

variable {n c : ℕ} {s t : State}

theorem LocalOk.mono {c' : ℕ} {slot : ProcSignalSlot} {pc : Pc} (h : LocalOk c slot pc)
    (hle : c ≤ c') : LocalOk c' slot pc :=
  ⟨fun hpc => Nat.le_trans (h.slot_le hpc) hle, fun g hg => Nat.le_trans (h.read_le g hg) hle⟩

theorem consistent_init : Consistent n 0 State.init :=
  ⟨rfl, nofun, nofun, fun _ => ⟨nofun, nofun⟩, nofun⟩

/-- The last flag is set, and the generation is a new one. -/
theorem emitIncrement_spec {k : ℕ} (h : s.emitIncrement n k = some t) :
    ∃ type g, s.calls k = .setting type n ∧ g = s.barrierGeneration + 1 ∧
      t = { s with barrierGeneration := g, calls := update s.calls k (.signalling g n) } := by
  rw [State.emitIncrement.eq_def] at h
  cases hcall : s.calls k with
  | setting type =>
    simp only [hcall] at h
    split_ifs at h with hi
    cases h
    exact ⟨type, _, by rw [hi], rfl, rfl⟩
  | _ => rw [hcall] at h; cases h

section

variable (hc : Consistent n c s)
include hc

theorem Consistent.toNat_succ (hfit : c + 1 < 2 ^ 64) :
    (s.barrierGeneration + 1).toNat = c + 1 := by
  rw [← hc.generation] at hfit ⊢
  exact Nat.mod_eq_of_lt hfit

theorem Consistent.emitIncrement {k : ℕ} (hfit : c + 1 < 2 ^ 64)
    (h : s.emitIncrement n k = some t) : Consistent n (c + 1) t := by
  obtain ⟨type, g, hcall, hg, rfl⟩ := emitIncrement_spec h
  refine ⟨hg ▸ hc.toNat_succ hfit, hc.owned, hc.number_lt,
    fun p => (hc.localOk p).mono (Nat.le_succ c), fun w g' hw => ?_⟩
  exact Nat.le_trans (awaits_setCall hc (fun g hg => by cases hg) w g' hw) (Nat.le_succ c)

theorem Consistent.emits {k : ℕ} {call : Call} (hq : Quiet s t)
    (he : Emits s k t call) : Consistent n c t := by
  refine hc.quiet hq fun w g hg => ?_
  rw [he.calls] at hg
  exact awaits_setCall hc (fun g hg => by rw [he.awaits] at hg; cases hg) w g hg

theorem Consistent.waits {w : ℕ} {call : Call} (hq : Quiet s t)
    (hw : Waits n s w t call) : Consistent n c t := by
  refine hc.quiet hq fun w' g hg => ?_
  rw [hw.calls] at hg
  refine awaits_setCall hc (fun g hg => ?_) w' g hg
  rcases hw.awaits g hg with hg | hg
  · exact hc.awaits_le w g hg
  · rw [← hc.generation]
    exact UInt64.le_iff_toNat_le.1 hg

theorem Consistent.step {a : Event} (h : step n s a = some t)
    (hfit : c + [a].countP Event.isIncrement < 2 ^ 64) :
    Consistent n (c + [a].countP Event.isIncrement) t := by
  cases a with
  | start => exact hc.start h
  | exit => exact hc.moves (moves_of_exit h)
  | process => exact hc.moves (moves_of_process h)
  | handler => exact hc.moves (moves_of_handler h)
  | sigusr1 =>
    have hq := quiet_of_sigusr1 h
    exact hc.quiet hq.1 fun w g hg => hc.awaits_le w g (by rwa [← hq.2])
  | proc => exact hc.moves (moves_of_proc h)
  | emitBegin =>
    have he := emits_of_emitBegin h
    exact hc.emits he.1 he.2
  | emitIncrement => exact hc.emitIncrement hfit h
  | emit =>
    obtain ⟨hq, call, he⟩ := emits_of_emit h
    exact hc.emits hq he
  | waitBegin =>
    obtain ⟨hq, call, hw⟩ := waits_of_waitBegin h
    exact hc.waits hq hw
  | wait =>
    obtain ⟨hq, call, hw⟩ := waits_of_wait (n := n) h
    exact hc.waits hq hw

end

end Generations

/-! ### What a process owes -/

/-- The process in the slot has not run the handler since the call began. -/
structure Owed (type : ProcSignalBarrierType) (call : Call) (i : ℕ) (slot : ProcSignalSlot)
    (pc : Pc) : Prop where
  advertises : pc.advertises = true ∧ pc.live = true ∧ pc ≠ .initPid
  setting : ∀ type' j, call = .setting type' j → type' = type
  isEmit : call.isEmit = true
  flagged : pc.registered = true → call.hasFlagged i = true →
    slot.barrierCheckMask.getLsbD type.toNat = true ∨ pc.flags.getLsbD type.toNat = true
  behind : ∀ g, call.generation = some g → slot.barrierGeneration < g
  skips : ∀ g, call.generation = some g → ∀ shared, pc.skips type.toNat = some shared → shared < g

section Owed

variable {type : ProcSignalBarrierType} {call : Call} {i : ℕ} {s t : State} {p : ℕ}

theorem Owed.of_same {slot slot' : ProcSignalSlot} {pc pc' : Pc} (h : Owed type call i slot pc)
    (hslot : slot'.barrierGeneration = slot.barrierGeneration)
    (hadv : pc'.advertises = true ∧ pc'.live = true ∧ pc' ≠ .initPid)
    (hflag : pc'.registered = true → pc.registered = true ∧
      (slot.barrierCheckMask.getLsbD type.toNat = true ∨ pc.flags.getLsbD type.toNat = true →
        slot'.barrierCheckMask.getLsbD type.toNat = true ∨ pc'.flags.getLsbD type.toNat = true))
    (hskip : ∀ shared, pc'.skips type.toNat = some shared → pc.skips type.toNat = some shared) :
    Owed type call i slot' pc' where
  advertises := hadv
  setting := h.setting
  isEmit := h.isEmit
  flagged := fun hreg hcall => (hflag hreg).2 (h.flagged (hflag hreg).1 hcall)
  behind := fun g hg => hslot ▸ h.behind g hg
  skips := fun g hg shared hshared => h.skips g hg shared (hskip shared hshared)

theorem hasFlagged_of_generation {g : UInt64} (h : call.generation = some g) :
    call.hasFlagged i = true := by
  cases call with
  | none | setting | waiting | waited => cases h
  | signalling | flagging | killing | emitted => rfl

theorem hasFlagged_cases (h : call.hasFlagged i = true) :
    (∃ type j, call = .setting type j ∧ i < j) ∨ ∃ g, call.generation = some g := by
  cases call with
  | none | waiting | waited => cases h
  | setting type j => exact Or.inl ⟨type, j, rfl, of_decide_eq_true h⟩
  | signalling | flagging | killing | emitted => exact Or.inr ⟨_, rfl⟩

theorem Owed.clear {g : UInt64} {flags : BitVec 32} {success : Bool} {slot : ProcSignalSlot}
    {pos : ℕ} (ho : Owed type call i slot (.handle g flags success)) (hne : type.toNat ≠ pos) :
    Owed type call i slot (.handle g (barrierClearBit flags pos) success) := by
  have hbit := @getLsbD_barrierClearBit flags _ _ type.toNat_lt hne
  refine ho.of_same rfl ⟨rfl, rfl, nofun⟩ (fun _ => ⟨rfl, ?_⟩) fun shared hshared => ?_
  · rw [Pc.flags, Pc.flags, hbit]
    exact id
  · cases success with
    | false => cases hshared
    | true => rwa [Pc.skips, hbit] at hshared

/-- What is owed stays so until the handler has run. -/
theorem Owed.advance {gen : UInt64} {slot slot' : ProcSignalSlot} {pc pc' : Pc}
    {ran : Option ProcSignalBarrierType} (ho : Owed type call i slot pc)
    (h : Advance gen p slot pc ran slot' pc') (hran : ran ≠ some type) :
    Owed type call i slot' pc' ∨ pc'.exited = true := by
  cases h with
  | initFlags | initMask | initRead | initGeneration => cases ho.advertises.1
  | initPid => exact absurd rfl ho.advertises.2.2
  | idle => exact Or.inl ho
  | process | readLocal | upToDate | behind =>
    exact Or.inl (ho.of_same rfl ⟨rfl, rfl, nofun⟩ (fun _ => ⟨rfl, id⟩) nofun)
  | exchange =>
    have hmask := fun hcall => (ho.flagged rfl hcall).resolve_right (by simp [Pc.flags])
    refine Or.inl ⟨⟨rfl, rfl, nofun⟩, ho.setting, ho.isEmit, fun _ hcall => Or.inr (hmask hcall),
      ho.behind, fun g hg shared hshared => ?_⟩
    -- the bit is in the mask when the generation is there
    rw [Pc.skips, if_pos (hmask (hasFlagged_of_generation hg))] at hshared
    cases hshared
  | @finished g flags success hnone =>
    have hbit := getLsbD_of_rightmostOnePos32_eq_none hnone type.toNat_lt
    have hmask : slot.barrierCheckMask.getLsbD type.toNat = true ∨
        (Pc.handle g flags success).flags.getLsbD type.toNat = true →
        slot.barrierCheckMask.getLsbD type.toNat = true := by
      rintro (hmask | hflag)
      · exact hmask
      · rw [Pc.flags, hbit] at hflag
        cases hflag
    cases success with
    | false =>
      exact Or.inl (ho.of_same rfl ⟨rfl, rfl, nofun⟩
        (fun _ => ⟨rfl, fun h => Or.inl (hmask h)⟩) nofun)
    | true =>
      refine Or.inl (ho.of_same rfl ⟨rfl, rfl, nofun⟩
        (fun _ => ⟨rfl, fun h => Or.inl (hmask h)⟩) fun shared hshared => ?_)
      rw [Pc.skips, hbit]
      exact hshared
  | unknown hother =>
    refine Or.inl (ho.clear ?_)
    rintro rfl
    cases hother
  | @processed _ _ _ type' =>
    exact Or.inl (ho.clear
      (ProcSignalBarrierType.toNat_ne fun heq => hran (congrArg some heq.symm)))
  | notProcessed type' =>
    refine Or.inl (ho.of_same rfl ⟨rfl, rfl, nofun⟩ (fun _ => ⟨rfl, fun hbit => ?_⟩) nofun)
    by_cases htype : type = type'
    · subst htype
      refine Or.inl ?_
      rw [BitVec.getLsbD_or, getLsbD_flagbit type.toNat_lt, decide_eq_true rfl, Bool.or_true]
    · rw [Pc.flags, getLsbD_barrierClearBit type.toNat_lt (ProcSignalBarrierType.toNat_ne htype),
        BitVec.getLsbD_or]
      refine hbit.imp_left fun hmask => ?_
      rw [hmask, Bool.true_or]
  | error =>
    refine Or.inl (ho.of_same rfl ⟨rfl, rfl, nofun⟩ (fun _ => ⟨rfl, fun hbit => Or.inl ?_⟩) nofun)
    rw [BitVec.getLsbD_or, Bool.or_eq_true]
    exact hbit
  | advertise =>
    exact Or.inl ⟨⟨rfl, rfl, nofun⟩, ho.setting, ho.isEmit, fun _ hcall => ho.flagged rfl hcall,
      fun g hg => ho.skips g hg _ rfl, nofun⟩
  | exit | cleanupCheck => exact Or.inl (ho.of_same rfl ⟨rfl, rfl, nofun⟩ nofun nofun)
  | cleanupGeneration | released => exact Or.inr rfl

end Owed

/-! ### Runs -/

/-- The process owes the handler to the call, and no wait for the call's generation has passed
the slot of the process. -/
structure Pending (n p k i : ℕ) (type : ProcSignalBarrierType) (s : State) : Prop where
  number : (s.procs p).myProcNumber = i
  lt : i < n
  owed : Owed type (s.calls k) i (s.slots i) (s.procs p).pc
  unpassed : ∀ w g, (s.calls w).passed i = some g → (s.calls k).generation ≠ some g

section Runs

variable {n c p k i : ℕ} {type : ProcSignalBarrierType} {s t : State}

section

variable (h : Pending n p k i type s)
include h

theorem Pending.live : (s.procs p).pc.live = true :=
  h.owed.advertises.2.1

/-- A step of the process itself or of another one. -/
theorem Pending.moves (hc : Consistent n c s) {q : ℕ}
    {ran : Option ProcSignalBarrierType} (hm : Moves s q ran t) (hran : p = q → ran ≠ some type) :
    Pending n p k i type t ∨ (t.procs p).pc.exited = true := by
  by_cases hq : p = q
  · subst hq
    have howed := h.owed
    rw [← h.number] at howed
    refine (howed.advance hm.advance (hran rfl)).imp_left fun ho => ?_
    have hnumber := hm.myProcNumber.trans h.number
    refine ⟨hnumber, h.lt, ?_, ?_⟩
    · rw [State.slotOf, hnumber, h.number, ← hm.calls] at ho
      exact ho
    · rw [hm.calls]
      exact h.unpassed
  · have hslot : i ≠ (s.procs q).myProcNumber := by
      rw [← h.number]
      exact hc.owns.myProcNumber_ne hq h.live (Or.inl (hc.owned q hm.live))
    refine Or.inl ⟨by rw [hm.procs p hq, h.number], h.lt, ?_, by rw [hm.calls]; exact h.unpassed⟩
    rw [hm.calls, hm.slots i hslot, hm.procs p hq]
    exact h.owed

theorem Pending.start {q j : ℕ}
    (hstart : s.start n q j = some t) : Pending n p k i type t := by
  obtain ⟨hpc, -, -, rfl⟩ := start_spec hstart
  have hpq : p ≠ q := by
    rintro rfl
    have hlive := h.live
    rw [hpc] at hlive
    cases hlive
  refine ⟨by simp only [update_of_ne hpq, h.number], h.lt, ?_, h.unpassed⟩
  simp only [update_of_ne hpq]
  exact h.owed

omit h in
theorem Owed.quiet {call : Call} (h : Owed type call i (s.slots i) (s.procs p).pc)
    (hq : Quiet s t) : Owed type call i (t.slots i) (t.procs p).pc := by
  rw [hq.pc]
  exact h.of_same (hq.slots i) h.advertises
    (fun hreg => ⟨hreg, fun hbit => hbit.imp_left (hq.masks i _)⟩) fun _ hshared => hshared

theorem Pending.emits (hq : Quiet s t) {k' : ℕ} {call : Call}
    (he : Emits s k' t call) : Pending n p k i type t := by
  have howed := h.owed.quiet hq
  refine ⟨(hq.myProcNumber p).trans h.number, h.lt, ?_, fun w g hg => ?_⟩
  · by_cases hk : k = k'
    · subst hk
      rw [he.calls, update_self]
      refine ⟨howed.advertises, fun type' j hset => ?_, he.isEmit, fun hreg hflag => ?_, ?_, ?_⟩
      · rcases he.setting type' j hset with ⟨hnone, _⟩ | ⟨j', hj', _⟩
        · have hemit : Call.none.isEmit = true := hnone ▸ h.owed.isEmit
          cases hemit
        · exact h.owed.setting type' j' hj'
      · rcases hasFlagged_cases hflag with ⟨type', j, hset, hj⟩ | ⟨g, hg⟩
        · rcases he.setting type' j hset with ⟨_, rfl⟩ | ⟨j', hj', rfl, hbit⟩
          · exact absurd hj (Nat.not_lt_zero i)
          · -- the slot whose flag is set now, or one before it
            rcases Nat.lt_succ_iff_lt_or_eq.1 hj with hlt | rfl
            · refine howed.flagged hreg ?_
              rw [hj']
              exact decide_eq_true hlt
            · rw [h.owed.setting type' i hj'] at hbit
              exact Or.inl hbit
        · rw [he.generation] at hg
          exact howed.flagged hreg (hasFlagged_of_generation hg)
      · rw [he.generation]
        exact howed.behind
      · rw [he.generation]
        exact howed.skips
    · rw [he.calls, update_of_ne hk]
      exact howed
  · have hgen : (t.calls k).generation = (s.calls k).generation := by
      rw [he.calls]
      by_cases hk : k = k'
      · subst hk
        rw [update_self, he.generation]
      · rw [update_of_ne hk]
    rw [he.calls] at hg
    rw [hgen]
    by_cases hw : w = k'
    · subst hw
      rw [update_self, he.passed] at hg
      cases hg
    · rw [update_of_ne hw] at hg
      exact h.unpassed w g hg

theorem Pending.waits (hq : Quiet s t) {w : ℕ} {call : Call}
    (hw : Waits n s w t call) : Pending n p k i type t := by
  have hk : t.calls k = s.calls k := by
    rw [hw.calls, update_of_ne]
    rintro rfl
    have hemit := h.owed.isEmit
    rw [hw.isEmit] at hemit
    cases hemit
  refine ⟨(hq.myProcNumber p).trans h.number, h.lt, ?_, fun w' g hg => ?_⟩
  · rw [hk]
    exact h.owed.quiet hq
  · rw [hk]
    rw [hw.calls] at hg
    by_cases hw' : w' = w
    · subst hw'
      rw [update_self] at hg
      rcases hw.passed i h.lt g hg with hg | hlt
      · exact h.unpassed w' g hg
      · exact fun hk => hlt (h.owed.behind g hk)
    · rw [update_of_ne hw'] at hg
      exact h.unpassed w' g hg

omit h in
theorem readGen_of_skips {pc : Pc} {pos : ℕ} {shared : UInt64} (h : pc.skips pos = some shared) :
    pc.readGen = some shared := by
  cases pc with
  | handle _ _ success =>
    cases success with
    | false => cases h
    | true =>
      rw [Pc.skips] at h
      split_ifs at h
      exact h
  | advertise => exact h
  | _ => cases h

omit h in
theorem awaits_of_passed {call : Call} {g : UInt64} (h : call.passed i = some g) :
    call.awaits = some g := by
  cases call with
  | waiting =>
    rw [Call.passed] at h
    split_ifs at h
    exact h
  | waited => exact h
  | _ => cases h

/-- The generation is new: nobody advertises it, is about to or waits for it. -/
theorem Pending.emitIncrement (hc : Consistent n c s)
    (hfit : c + 1 < 2 ^ 64) {k' : ℕ} (hstep : s.emitIncrement n k' = some t) :
    Pending n p k i type t := by
  obtain ⟨type', g, hcall, hnext, rfl⟩ := emitIncrement_spec hstep
  have hg : g.toNat = c + 1 := hnext ▸ hc.toNat_succ hfit
  have hpassed : ∀ w g', (update s.calls k' (.signalling g n) w).passed i = some g' →
      (s.calls w).passed i = some g' := by
    intro w g' hw
    by_cases hk : w = k'
    · subst hk
      rw [update_self] at hw
      cases hw
    · rwa [update_of_ne hk] at hw
  by_cases hk : k = k'
  · subst hk
    have hnew : ∀ g' : UInt64, g'.toNat ≤ c → g' < g := fun g' hle =>
      UInt64.lt_iff_toNat_lt.2 (by omega)
    refine ⟨h.number, h.lt, ?_, fun w g' hw => ?_⟩
    all_goals dsimp only
    all_goals rw [update_self]
    · refine ⟨h.owed.advertises, fun _ _ h => (by cases h), rfl,
        fun hreg _ => h.owed.flagged hreg ?_,
        fun g' hg' => ?_, fun g' hg' shared hshared => ?_⟩
      · rw [hcall]
        exact decide_eq_true h.lt
      · cases hg'
        have hslot := (hc.localOk p).slot_le h.owed.advertises.1
        rw [State.slotOf, h.number] at hslot
        exact hnew _ hslot
      · cases hg'
        exact hnew shared ((hc.localOk p).read_le shared (readGen_of_skips hshared))
    · have hle := hc.awaits_le w g' (awaits_of_passed (hpassed w g' hw))
      rintro hg'
      cases hg'
      omega
  · refine ⟨h.number, h.lt, ?_, fun w g' hw => ?_⟩
    all_goals dsimp only
    all_goals rw [update_of_ne hk]
    · exact h.owed
    · exact h.unpassed w g' (hpassed w g' hw)

/-- An event keeps what is owed, or the process runs the handler or is gone. -/
theorem Pending.step {a : Event} (hc : Consistent n c s)
    (hfit : c + [a].countP Event.isIncrement < 2 ^ 64) (hstep : step n s a = some t)
    (hne : a ≠ .handler p type .processed) :
    Pending n p k i type t ∨ (t.procs p).pc.exited = true := by
  cases a with
  | start => exact Or.inl (h.start hstep)
  | exit => exact h.moves hc (moves_of_exit hstep) fun _ => nofun
  | process => exact h.moves hc (moves_of_process hstep) fun _ => nofun
  | handler =>
    refine h.moves hc (moves_of_handler hstep) ?_
    rintro rfl hran
    split_ifs at hran with houtcome
    exact hne (by rw [Option.some.inj hran, houtcome])
  | sigusr1 =>
    obtain ⟨hq, hcalls⟩ := quiet_of_sigusr1 hstep
    refine Or.inl ⟨(hq.myProcNumber p).trans h.number, h.lt, ?_, ?_⟩
    all_goals rw [hcalls]
    · exact h.owed.quiet hq
    · exact h.unpassed
  | proc => exact h.moves hc (moves_of_proc hstep) fun _ => nofun
  | emitBegin =>
    have he := emits_of_emitBegin hstep
    exact Or.inl (h.emits he.1 he.2)
  | emitIncrement => exact Or.inl (h.emitIncrement hc hfit hstep)
  | emit =>
    obtain ⟨hq, call, he⟩ := emits_of_emit hstep
    exact Or.inl (h.emits hq he)
  | waitBegin =>
    obtain ⟨hq, call, hw⟩ := waits_of_waitBegin hstep
    exact Or.inl (h.waits hq hw)
  | wait =>
    obtain ⟨hq, call, hw⟩ := waits_of_wait (n := n) hstep
    exact Or.inl (h.waits hq hw)

end

theorem consistent_trace {l : List Event} (h : trace (ProcSignal.step n) State.init l = some s)
    (hfit : l.countP Event.isIncrement < 2 ^ 64) :
    Consistent n (l.countP Event.isIncrement) s := by
  refine @trace_history _ _ (ProcSignal.step n) State.init s l
    (fun l s => l.countP Event.isIncrement < 2 ^ 64 →
      Consistent n (l.countP Event.isIncrement) s)
    (fun l s a t ih hstep hfit => ?_) (fun _ => consistent_init) h hfit
  rw [countP_append] at hfit ⊢
  exact (ih (Nat.lt_of_le_of_lt (Nat.le_add_right ..) hfit)).step hstep hfit

/-- When the call begins, every registered process owes it the handler. -/
theorem pending_of_emitBegin (hc : Consistent n c s) (hreg : (s.procs p).pc.registered = true)
    (h : s.emitBegin k type = some t) : Pending n p k (s.procs p).myProcNumber type t := by
  rw [State.emitBegin.eq_def] at h
  cases hcall : s.calls k with
  | none =>
    rw [hcall] at h
    cases h
    have hself : (s.setCall k (.setting type 0)).calls k = .setting type 0 := by
      rw [State.setCall_calls, update_self]
    refine ⟨rfl, hc.number_lt p (live_of_registered hreg), ?_, fun w g _ h => ?_⟩
    · rw [hself]
      refine ⟨⟨advertises_of_registered hreg, live_of_registered hreg, fun hpc => ?_⟩,
        fun type' j hset => ?_, rfl, fun _ hflag => (by cases hflag), fun _ hg => (by cases hg),
        fun _ hg => (by cases hg)⟩
      · rw [State.setCall_procs] at hpc
        rw [hpc] at hreg
        cases hreg
      · cases hset
        rfl
    · rw [hself] at h
      cases h
  | _ => rw [hcall] at h; cases h

theorem Advance.exited {gen : UInt64} {slot slot' : ProcSignalSlot} {pc pc' : Pc}
    {ran : Option ProcSignalBarrierType} (h : Advance gen p slot pc ran slot' pc')
    (hp : pc.exited = true) : pc'.exited = true := by
  cases h with
  | exit hreg => cases pc <;> cases hreg <;> cases hp
  | released => rfl
  | _ => cases hp

/-- A process that is gone stays so. -/
theorem exited_step {a : Event} (h : ProcSignal.step n s a = some t)
    (hp : (s.procs p).pc.exited = true) : (t.procs p).pc.exited = true := by
  have hmoves {q : ℕ} {ran : Option ProcSignalBarrierType} (hm : Moves s q ran t) :
      (t.procs p).pc.exited = true := by
    by_cases hq : p = q
    · subst hq
      exact hm.advance.exited hp
    · rwa [hm.procs p hq]
  have hquiet : Quiet s t → (t.procs p).pc.exited = true := fun hq => by rwa [hq.pc]
  cases a with
  | start q =>
    obtain ⟨hpc, -, -, rfl⟩ := start_spec h
    by_cases hq : p = q
    · subst hq
      rw [hpc] at hp
      cases hp
    · simpa only [update_of_ne hq] using hp
  | exit => exact hmoves (moves_of_exit h)
  | process => exact hmoves (moves_of_process h)
  | handler => exact hmoves (moves_of_handler h)
  | sigusr1 => exact hquiet (quiet_of_sigusr1 h).1
  | proc => exact hmoves (moves_of_proc h)
  | emitBegin => exact hquiet (emits_of_emitBegin h).1
  | emitIncrement =>
    obtain ⟨_, _, -, -, rfl⟩ := emitIncrement_spec h
    exact hp
  | emit => exact hquiet (emits_of_emit h).1
  | waitBegin => exact hquiet (waits_of_waitBegin h).1
  | wait => exact hquiet (waits_of_wait (n := n) h).1

end Runs

/-- Let a process be registered when `EmitProcSignalBarrier` is called. Once the call has returned
a generation and a wait for the generation has returned, the process has run the handler since
the call or is gone, unless the generations have wrapped around. -/
theorem waitForProcSignalBarrier_spec {n p k w : ℕ} {type : ProcSignalBarrierType} {g : UInt64}
    {l₁ l₂ : List Event} {s₁ s₂ : State} (h₁ : trace (step n) State.init l₁ = some s₁)
    (hreg : (s₁.procs p).pc.registered = true)
    (h₂ : trace (step n) s₁ (.emitBegin k type :: l₂) = some s₂)
    (hfit : (l₁ ++ l₂).countP Event.isIncrement < 2 ^ 64)
    (hemit : s₂.calls k = .emitted g) (hwait : s₂.calls w = .waited g) :
    .handler p type .processed ∈ l₂ ∨ (s₂.procs p).pc.exited = true := by
  rw [countP_append] at hfit
  have hc := consistent_trace h₁ (Nat.lt_of_le_of_lt (Nat.le_add_right ..) hfit)
  obtain ⟨u, hbegin, h₂⟩ := trace_cons_eq_some.1 h₂
  have hcu := hc.step hbegin (Nat.lt_of_le_of_lt (Nat.le_add_right ..) hfit)
  have hpending := pending_of_emitBegin hc hreg hbegin
  have hinv := @trace_history _ _ (step n) u s₂ l₂
    (fun l s => l₁.countP Event.isIncrement + l.countP Event.isIncrement < 2 ^ 64 →
      Consistent n (l₁.countP Event.isIncrement + l.countP Event.isIncrement) s ∧
      (.handler p type .processed ∈ l ∨ (s.procs p).pc.exited = true ∨
        Pending n p k (s₁.procs p).myProcNumber type s))
    (fun l s a t ih hstep hfit => ?_) (fun _ => ⟨hcu, Or.inr (Or.inr hpending)⟩) h₂ hfit
  · rcases hinv.2 with hmem | hexited | hpending
    · exact Or.inl hmem
    · exact Or.inr hexited
    · -- the wait has passed the slot
      refine absurd ?_ (hpending.unpassed w g (by rw [hwait]; rfl))
      rw [hemit]
      rfl
  · rw [countP_append, ← Nat.add_assoc] at hfit ⊢
    obtain ⟨hcs, hs⟩ := ih (Nat.lt_of_le_of_lt (Nat.le_add_right ..) hfit)
    refine ⟨hcs.step hstep hfit, ?_⟩
    rcases hs with hmem | hexited | hpending
    · exact Or.inl (mem_append_left [a] hmem)
    · exact Or.inr (Or.inl (exited_step hstep hexited))
    · by_cases ha : a = .handler p type .processed
      · rw [ha]
        exact Or.inl (mem_append_right l (mem_singleton.2 rfl))
      · exact Or.inr ((hpending.step hcs hfit hstep ha).symm)

/-! A process that registers, absorbs a barrier and is waited for. -/

/-- A process registers in slot 0. -/
def registerEvents : List Event := .start 0 0 :: List.replicate 5 (.proc 0)

/-- A whole call of `EmitProcSignalBarrier` with one slot. -/
def emitEvents (k : ℕ) : List Event :=
  [.emitBegin k .smgrRelease, .emit k, .emitIncrement k, .emit k, .emit k, .emit k, .emit k]

/-- The process in slot 0 absorbs the barrier. -/
def absorbEvents : List Event :=
  [.sigusr1 0, .process 0, .proc 0, .proc 0, .proc 0, .handler 0 .smgrRelease .processed, .proc 0,
    .proc 0]

/-- A whole call of `WaitForProcSignalBarrier` with one slot. -/
def waitEvents (w : ℕ) (generation : UInt64) : List Event :=
  [.waitBegin w generation, .wait w, .wait w]

theorem waitForProcSignalBarrier_spec_oneProcess :
    ∃ s₁ s₂, trace (step 1) State.init registerEvents = some s₁ ∧
      trace (step 1) s₁ (emitEvents 0 ++ absorbEvents ++ waitEvents 1 1) = some s₂ ∧
      s₂.calls 0 = .emitted 1 ∧ s₂.calls 1 = .waited 1 ∧
      (.handler 0 .smgrRelease .processed ∈ (emitEvents 0).tail ++ absorbEvents ++ waitEvents 1 1 ∨
        (s₂.procs 0).pc.exited = true) := by
  obtain ⟨s₁, h₁, hreg, s₂, h₂, hemit, hwait⟩ :
      ∃ s₁, trace (step 1) State.init registerEvents = some s₁ ∧
        (s₁.procs 0).pc.registered = true ∧
        ∃ s₂, trace (step 1) s₁ (emitEvents 0 ++ absorbEvents ++ waitEvents 1 1) = some s₂ ∧
          s₂.calls 0 = .emitted 1 ∧ s₂.calls 1 = .waited 1 :=
    ⟨_, rfl, rfl, _, rfl, rfl, rfl⟩
  exact ⟨s₁, s₂, h₁, h₂, hemit, hwait,
    waitForProcSignalBarrier_spec h₁ hreg h₂ (by decide) hemit hwait⟩

/-! ### The generations wrap around -/

/-- One process is registered in the only slot, has not absorbed anything, and `m` barriers have
been emitted. -/
structure AfterEmits (m : ℕ) (s : State) : Prop where
  generation : s.barrierGeneration = UInt64.ofNat m
  calls : ∀ k, m ≤ k → s.calls k = .none
  pid : (s.slots 0).pid = some 0
  slot : (s.slots 0).barrierGeneration = 0
  idle : (s.procs 0).pc = .idle

theorem afterEmits_register : ∃ s, trace (step 1) State.init registerEvents = some s ∧
    AfterEmits 0 s :=
  ⟨_, rfl, rfl, fun _ _ => rfl, rfl, rfl, rfl⟩

theorem afterEmits_emit {m : ℕ} {s : State} (h : AfterEmits m s) :
    ∃ t, trace (step 1) s (emitEvents m) = some t ∧ AfterEmits (m + 1) t ∧
      t.calls m = .emitted (UInt64.ofNat (m + 1)) := by
  have hgen : s.barrierGeneration + 1 = UInt64.ofNat (m + 1) := by
    rw [h.generation, UInt64.ofNat_add]
    rfl
  have hcall := h.calls m (Nat.le_refl m)
  refine ⟨{ s with
    barrierGeneration := s.barrierGeneration + 1
    slots := update s.slots 0 { s.slots 0 with
      barrierFlag := true
      barrierCheckMask := (s.slots 0).barrierCheckMask ||| flagbit 0 }
    procs := update s.procs 0 { s.procs 0 with signalled := true }
    calls := update s.calls m (.emitted (s.barrierGeneration + 1)) }, ?_, ?_, ?_⟩
  · simp [emitEvents, trace_cons, step, State.emitBegin, State.emit, State.emitIncrement,
      State.setCall, State.setSlot, State.setProc, ProcSignalBarrierType.toNat, hcall, h.pid]
  · refine ⟨hgen, fun k hk => ?_, ?_, ?_, ?_⟩
    · dsimp only
      rw [update_of_ne (Nat.ne_of_gt hk)]
      exact h.calls k (Nat.le_of_succ_le hk)
    · simp [h.pid]
    · simp [h.slot]
    · simp [h.idle]
  · dsimp only
    rw [update_self, hgen]

/-- The events of the first `m` calls. -/
def emitAll (m : ℕ) : List Event := (List.range m).flatMap emitEvents

theorem afterEmits_emitAll (m : ℕ) : ∃ s, trace (step 1) State.init
    (registerEvents ++ emitAll m) = some s ∧ AfterEmits m s := by
  induction m with
  | zero =>
    obtain ⟨s, hs, h⟩ := afterEmits_register
    exact ⟨s, by rwa [emitAll, range_zero, flatMap_nil, append_nil], h⟩
  | succ m ih =>
    obtain ⟨s, hs, h⟩ := ih
    obtain ⟨t, ht, hafter, _⟩ := afterEmits_emit h
    refine ⟨t, ?_, hafter⟩
    rw [emitAll, range_succ, flatMap_append, flatMap_singleton, ← append_assoc,
      trace_append_eq_some]
    exact ⟨s, hs, ht⟩

theorem trace_waitEvents_zero {t : State} {w : ℕ} (hgen : t.barrierGeneration = 0)
    (hslot : (t.slots 0).barrierGeneration = 0) (hcall : t.calls w = .none) :
    trace (step 1) t (waitEvents w 0) = some (t.setCall w (.waited 0)) := by
  simp [waitEvents, trace_cons, step, State.waitBegin, State.wait, State.setCall, hgen, hslot,
    hcall]

/-- After so many barriers that the generations wrap around, a wait returns at once. -/
theorem waitForProcSignalBarrier_wraparound :
    ∃ (l₁ l₂ : List Event) (s₁ s₂ : State) (k w : ℕ) (g : UInt64),
      trace (step 1) State.init l₁ = some s₁ ∧ (s₁.procs 0).pc.registered = true ∧
      trace (step 1) s₁ (.emitBegin k .smgrRelease :: l₂) = some s₂ ∧
      s₂.calls k = .emitted g ∧ s₂.calls w = .waited g ∧
      ¬(.handler 0 .smgrRelease .processed ∈ l₂ ∨ (s₂.procs 0).pc.exited = true) := by
  obtain ⟨s₁, h₁, hafter⟩ := afterEmits_emitAll (2 ^ 64 - 1)
  obtain ⟨t, ht, hlast, hemitted⟩ := afterEmits_emit hafter
  have hgen : t.barrierGeneration = 0 := hlast.generation
  have hwait := trace_waitEvents_zero hgen hlast.slot (hlast.calls (2 ^ 64) (Nat.le_refl _))
  refine ⟨registerEvents ++ emitAll (2 ^ 64 - 1), (emitEvents (2 ^ 64 - 1)).tail ++
    waitEvents (2 ^ 64) 0, s₁, t.setCall (2 ^ 64) (.waited 0), 2 ^ 64 - 1, 2 ^ 64, 0, h₁, ?_, ?_,
    ?_, ?_, ?_⟩
  · rw [hafter.idle]
    rfl
  · exact trace_append_eq_some.2 ⟨t, ht, hwait⟩
  · rw [State.setCall_calls, update_of_ne (by omega), hemitted]
    rfl
  · rw [State.setCall_calls, update_self]
  · rw [State.setCall_procs, hlast.idle]
    simp [emitEvents, waitEvents, Pc.exited]

/-!
## Registering while a barrier is emitted

`ProcSignalInit` reads the shared generation, writes it to its slot and only then its pid.
-/

/-- In `ProcSignalInit`. -/
def Pc.initialising : Pc → Bool
  | .initFlags | .initMask | .initRead | .initGeneration _ | .initPid => true
  | _ => false

/-- A call of `EmitProcSignalBarrier` is in progress. -/
def Call.emitting : Call → Bool
  | .setting .. | .signalling .. | .flagging .. | .killing .. => true
  | _ => false

/-- The call has still to look at the slot, as it has when it is setting the flags, or it is about
to signal the process. -/
def Call.Reaches (p i : ℕ) : Call → Prop
  | .setting .. => True
  | .signalling _ j => i < j
  | .flagging _ j pid | .killing _ j pid => i < j ∨ pid = p
  | _ => False

namespace State

/-- No call of `EmitProcSignalBarrier` and no `ProcSignalInit` is in progress. -/
def Settled (s : State) : Prop :=
  (∀ k, (s.calls k).emitting = false) ∧ ∀ p, (s.procs p).pc.initialising = false

/-- Every registered process that is behind has a signal pending, or is among those that were sent
one. -/
def AllTold (s : State) (told : ℕ → Bool) : Prop :=
  ∀ p, (s.procs p).pc.registered = true → (s.slotOf p).barrierGeneration < s.barrierGeneration →
    (s.procs p).signalled = true ∨ told p = true

def Announced (s : State) (p : ℕ) : Prop := ∃ k, (s.calls k).Reaches p (s.procs p).myProcNumber

/-- A process that has got behind by the end of `ProcSignalInit` is still found by a call. -/
def Orderly (s : State) : Event → Prop
  | .proc p => (s.procs p).pc = .initPid →
      (s.slotOf p).barrierGeneration < s.barrierGeneration → s.Announced p
  | _ => True

end State

/-- The processes that were sent a signal since the last barrier's generation was made. -/
def tell (s : State) (told : ℕ → Bool) : Event → ℕ → Bool
  | .emitIncrement _ => fun _ => false
  | .emit k =>
    match s.calls k with
    | .killing _ _ pid => update told pid true
    | _ => told
  | _ => told

def observe (n : ℕ) (o : State × (ℕ → Bool)) (e : Event) : Option (State × (ℕ → Bool)) :=
  (step n o.1 e).map fun t => (t, tell o.1 o.2 e)

/-- Every step of the run is orderly. -/
def OrderlyRun (n : ℕ) (o : State × (ℕ → Bool)) : List Event → Prop
  | [] => True
  | e :: l => o.1.Orderly e ∧ ∀ o' ∈ observe n o e, OrderlyRun n o' l

/-- A registered process is up to date, was told or will be. -/
structure Informed (n : ℕ) (s : State) (told : ℕ → Bool) : Prop where
  owns : Owns n s
  pid : ∀ p, (s.procs p).pc.registered = true → (s.slotOf p).pid = some p
  told : ∀ p, (s.procs p).pc.registered = true → told p = true ∨ s.Announced p ∨
    ¬(s.slotOf p).barrierGeneration < s.barrierGeneration ∧
      ∀ g, (s.procs p).pc.readGen = some g → ¬g < s.barrierGeneration

section Steps

variable {n : ℕ} {s t : State} {told told' : ℕ → Bool} {k q : ℕ} {call : Call}
  {ran : Option ProcSignalBarrierType}

theorem Advance.registered {gen : UInt64} {slot slot' : ProcSignalSlot} {pc pc' : Pc}
    (h : Advance gen q slot pc ran slot' pc') (hpc : pc'.registered = true) :
    pc.registered = true ∧ slot'.pid = slot.pid ∨
      pc = .initPid ∧ pc' = .idle ∧ slot' = { slot with pid := some q } := by
  cases h with
  | initPid => exact .inr ⟨rfl, rfl, rfl⟩
  | initFlags | initMask | initRead | initGeneration | exit | cleanupCheck | cleanupGeneration
    | released => cases hpc
  | _ => exact .inl ⟨rfl, rfl⟩

section

variable (h : Informed n s told)
include h

theorem Informed.moves (hm : Moves s q ran t)
    (hinit : (s.procs q).pc = .initPid →
      (s.slotOf q).barrierGeneration < s.barrierGeneration → s.Announced q) :
    Informed n t told := by
  have hann (p : ℕ) : t.Announced p ↔ s.Announced p := by
    rw [State.Announced, State.Announced, hm.calls]
    by_cases hpq : p = q
    · subst hpq
      rw [hm.myProcNumber]
    · rw [hm.procs p hpq]
  refine ⟨h.owns.moves hm, fun p hp => ?_, fun p hp => ?_⟩ <;> by_cases hpq : p = q
  · subst hpq
    rcases hm.advance.registered hp with ⟨hreg, hpid⟩ | ⟨-, -, hslot⟩
    · rw [hpid, h.pid p hreg]
    · rw [hslot]
  · rw [hm.procs p hpq] at hp
    rw [h.owns.slotOf_eq hm hpq (live_of_registered hp), h.pid p hp]
  · subst hpq
    rw [hann, hm.generation]
    rcases hm.advance.registered hp with ⟨hreg, -⟩ | ⟨hpc, hidle, hslot⟩
    · refine (h.told p hreg).imp_right (Or.imp_right fun ⟨hslot, hread⟩ => ?_)
      obtain ⟨hslot', hread'⟩ := hm.advance.generations
        (P := fun g => ¬g < s.barrierGeneration) (UInt64.lt_irrefl _) (fun _ => hslot) hread
      exact ⟨hslot' (advertises_of_registered hp), hread'⟩
    · rw [hslot, hidle]
      by_cases hlt : (s.slotOf p).barrierGeneration < s.barrierGeneration
      · exact .inr (.inl (hinit hpc hlt))
      · exact .inr (.inr ⟨hlt, nofun⟩)
  · rw [hm.procs p hpq] at hp
    rw [hann, hm.generation, hm.procs p hpq,
      h.owns.slotOf_eq hm hpq (live_of_registered hp)]
    exact h.told p hp

theorem Informed.calls (hq : Quiet s t)
    (hpid : ∀ i, (t.slots i).pid = (s.slots i).pid) (hcalls : t.calls = update s.calls k call)
    (htold : ∀ p, told p = true → told' p = true)
    (hreach : ∀ p, (s.slotOf p).pid = some p →
      (s.calls k).Reaches p (s.procs p).myProcNumber →
      told' p = true ∨ call.Reaches p (s.procs p).myProcNumber) : Informed n t told' := by
  have hslot (p : ℕ) : t.slotOf p = t.slots (s.procs p).myProcNumber := by
    rw [State.slotOf, hq.myProcNumber]
  refine ⟨h.owns.quiet hq, fun p hp => ?_, fun p hp => ?_⟩ <;> rw [hq.pc] at hp
  · rw [hslot, hpid]
    exact h.pid p hp
  · rw [hslot, hq.slots, hq.generation, hq.pc]
    rcases h.told p hp with ht | ⟨k', hk'⟩ | hcurrent
    · exact .inl (htold p ht)
    · rw [State.Announced, hcalls, hq.myProcNumber]
      by_cases hkk : k' = k
      · subst hkk
        exact (hreach p (h.pid p hp) hk').imp_right fun hr => .inl ⟨k', by rwa [update_self]⟩
      · exact .inr (.inl ⟨k', by rwa [update_of_ne hkk]⟩)
    · exact .inr (.inr hcurrent)

/-- A call that does not signal anybody. -/
theorem Informed.setCall (hcall : ∀ p i, ¬(s.calls k).Reaches p i) :
    Informed n (s.setCall k call) told :=
  h.calls (quiet_setCall ..) (fun _ => rfl) rfl (fun _ => id) fun _ _ hr => absurd hr (hcall _ _)

omit h in
theorem pid_setSlot {i j : ℕ} {slot : ProcSignalSlot} (h : slot.pid = (s.slots j).pid) :
    ((s.setSlot j slot).slots i).pid = (s.slots i).pid := by
  by_cases hi : i = j
  · subst hi
    rw [State.setSlot_slots, update_self, h]
  · rw [State.setSlot_slots, update_of_ne hi]

theorem Informed.emit (hstep : s.emit n k = some t) :
    Informed n t (tell s told (.emit k)) := by
  have hq := (emits_of_emit hstep).1
  rw [State.emit.eq_def] at hstep
  rw [tell]
  cases hcall : s.calls k with simp only [hcall] at hstep
  | none | emitted | waiting | waited => cases hstep
  | setting =>
    split_ifs at hstep
    cases hstep
    exact h.calls hq (fun _ => pid_setSlot rfl) rfl (fun _ => id) (by simp [hcall, Call.Reaches])
  | signalling g i =>
    cases i with
    | zero =>
      cases hstep
      exact h.calls hq (fun _ => rfl) rfl (fun _ => id) (by simp [hcall, Call.Reaches])
    | succ i =>
      -- a process whose pid is in the slot is found there
      have hfound (p : ℕ) (hp : (s.slotOf p).pid = some p)
          (hr : (s.calls k).Reaches p (s.procs p).myProcNumber) :
          (s.procs p).myProcNumber < i ∨ (s.slots i).pid = some p := by
        rw [hcall] at hr
        refine (Nat.lt_succ_iff_lt_or_eq.1 hr).imp_right fun heq => ?_
        rwa [State.slotOf, heq] at hp
      cases hpid : (s.slots i).pid with simp only [hpid] at hstep
      | none =>
        cases hstep
        refine h.calls hq (fun _ => rfl) rfl (fun _ => id) fun p hp hr => .inr ?_
        exact (hfound p hp hr).resolve_right (by simp [hpid])
      | some =>
        cases hstep
        refine h.calls hq (fun _ => rfl) rfl (fun _ => id) fun p hp hr => .inr ?_
        exact (hfound p hp hr).imp_right fun hp => Option.some.inj (hpid.symm.trans hp)
  | flagging =>
    cases hstep
    refine h.calls hq (fun _ => pid_setSlot rfl) rfl (fun _ => id) fun p _ hr => .inr ?_
    rwa [hcall] at hr
  | killing g i pid =>
    cases hstep
    dsimp only
    refine h.calls hq (fun _ => rfl) rfl (fun p hp => ?_) fun p _ hr => ?_
    · by_cases hpq : p = pid
      · rw [hpq, update_self]
      · rwa [update_of_ne hpq]
    · rw [hcall] at hr
      rcases hr with hlt | rfl
      · exact .inr hlt
      · exact .inl (update_self ..)

theorem Informed.start {i : ℕ} (hstep : s.start n q i = some t) :
    Informed n t told := by
  have howns := h.owns.start hstep
  obtain ⟨-, -, -, rfl⟩ := start_spec hstep
  have hne {p : ℕ} (hp : (update s.procs q ⟨i, .initFlags, false, false⟩ p).pc.registered = true) :
      p ≠ q := by
    rintro rfl
    rw [update_self] at hp
    cases hp
  refine ⟨howns, fun p hp => ?_, fun p hp => ?_⟩
  all_goals have hpq := hne hp
  · simp only [State.slotOf, update_of_ne hpq] at hp ⊢
    exact h.pid p hp
  · simp only [State.slotOf, State.Announced, update_of_ne hpq] at hp ⊢
    exact h.told p hp

theorem Informed.emitIncrement (hstep : s.emitIncrement n k = some t) :
    Informed n t fun _ => false := by
  obtain ⟨_, _, -, -, rfl⟩ := emitIncrement_spec hstep
  refine ⟨⟨h.owns.owned, h.owns.number_lt⟩, h.pid, fun p hp => .inr (.inl ⟨k, ?_⟩)⟩
  dsimp only
  rw [update_self]
  exact h.owns.number_lt p (live_of_registered hp)

theorem Informed.step {e : Event} (hok : s.Orderly e)
    (hstep : step n s e = some t) : Informed n t (tell s told e) := by
  cases e with
  | start => exact h.start hstep
  | exit =>
    refine h.moves (moves_of_exit hstep) fun hpc => ?_
    rw [ProcSignal.step, State.exit, hpc] at hstep
    cases hstep
  | process =>
    refine h.moves (moves_of_process hstep) fun hpc => ?_
    rw [ProcSignal.step, State.process.eq_def, hpc] at hstep
    cases hstep
  | handler =>
    refine h.moves (moves_of_handler hstep) fun hpc => ?_
    rw [ProcSignal.step, State.handler.eq_def, hpc] at hstep
    cases hstep
  | sigusr1 =>
    have hq := quiet_of_sigusr1 hstep
    rw [ProcSignal.step, State.sigusr1] at hstep
    refine h.calls (k := 0) hq.1 (fun i => ?_) (hq.2.trans (update_eq_self 0 _).symm) (fun _ => id)
      fun _ _ => .inr
    split_ifs at hstep <;> cases hstep
    · exact pid_setSlot rfl
    · rfl
  | proc => exact h.moves (moves_of_proc hstep) hok
  | emitBegin =>
    rw [ProcSignal.step, State.emitBegin.eq_def] at hstep
    split at hstep <;> cases hstep
    exact h.setCall (by simp [*, Call.Reaches])
  | emitIncrement => exact h.emitIncrement hstep
  | emit => exact h.emit hstep
  | waitBegin =>
    rw [ProcSignal.step, State.waitBegin.eq_def] at hstep
    split at hstep
    · split_ifs at hstep
      cases hstep
      exact h.setCall (by simp [*, Call.Reaches])
    · cases hstep
  | wait =>
    rw [ProcSignal.step, State.wait.eq_def] at hstep
    split at hstep
    · split_ifs at hstep
      all_goals cases hstep
      · exact h
      · exact h.setCall (by simp [*, Call.Reaches])
    · cases hstep
      exact h.setCall (by simp [*, Call.Reaches])
    · cases hstep

end

theorem Informed.run {o o' : State × (ℕ → Bool)} {l : List Event} (h : Informed n o.1 o.2)
    (hok : OrderlyRun n o l) (hrun : trace (observe n) o l = some o') : Informed n o'.1 o'.2 := by
  induction l generalizing o with
  | nil =>
    cases hrun
    exact h
  | cons e l ih =>
    obtain ⟨u, hu, hrun⟩ := trace_cons_eq_some.1 hrun
    refine ih ?_ (hok.2 u hu) hrun
    obtain ⟨t, ht, rfl⟩ := Option.map_eq_some_iff.1 hu
    exact h.step hok.1 ht

end Steps

/-- Let every process that is behind when it stores its pid be still ahead of some call of
`EmitProcSignalBarrier`. Then no registered process is left behind without having been told,
whenever no call and no `ProcSignalInit` is in progress. -/
theorem allTold_of_orderly {n : ℕ} {l : List Event} {s : State} {told : ℕ → Bool}
    (hrun : trace (observe n) (State.init, fun _ => false) l = some (s, told))
    (hok : OrderlyRun n (State.init, fun _ => false) l) (hsettled : s.Settled) :
    s.AllTold told := by
  have hinit : Informed n State.init fun _ => false := ⟨⟨nofun, nofun⟩, nofun, nofun⟩
  intro p hreg hlt
  rcases (hinit.run hok hrun).told p hreg with htold | ⟨k, hk⟩ | ⟨hcurrent, -⟩
  · exact .inr htold
  · have hquiet := hsettled.1 k
    cases hcall : s.calls k <;> simp_all [Call.emitting, Call.Reaches]
  · exact absurd hlt hcurrent

/-- A process that registers before the barrier is emitted. -/
theorem allTold_of_orderly_registered :
    ∃ s told, trace (observe 1) (State.init, fun _ => false) (registerEvents ++ emitEvents 0) =
        some (s, told) ∧ (s.slotOf 0).barrierGeneration < s.barrierGeneration ∧
      s.AllTold told := by
  have hok : OrderlyRun 1 (State.init, fun _ => false) (registerEvents ++ emitEvents 0) := by
    repeat' first
      | exact trivial
      | refine ⟨trivial, ?_⟩
      | refine ⟨nofun, ?_⟩
      | rintro _ ⟨⟩
  refine ⟨_, _, rfl, by decide, allTold_of_orderly rfl hok ⟨fun k => ?_, fun p => ?_⟩⟩
  · cases k <;> rfl
  · cases p <;> rfl

/-- The process has read the generation, the barrier is emitted, the process stores its pid. -/
def overlookedEvents : List Event :=
  .start 0 0 :: List.replicate 3 (.proc 0) ++
    [.emitBegin 0 .smgrRelease, .emit 0, .emitIncrement 0, .emit 0, .emit 0, .proc 0, .proc 0]

theorem not_allTold_overlooked :
    ∃ s told, trace (observe 1) (State.init, fun _ => false) overlookedEvents = some (s, told) ∧
      s.Settled ∧ ¬s.AllTold told := by
  refine ⟨_, _, rfl, ⟨fun k => ?_, fun p => ?_⟩, fun h => ?_⟩
  · cases k <;> rfl
  · cases p <;> rfl
  · rcases h 0 rfl (by decide) with hsignalled | htold
    · cases hsignalled
    · cases htold

end PgCutover.ProcSignal
