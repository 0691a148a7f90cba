import PgCutover.Ipc.SInvalInv

/-!
# The message counters

`SICleanupQueue` keeps the counters small by subtracting the same amount from all of them.
`SIResetAll` moves `minMsgNum` up without doing so, and the counter of a backend that is in reset
state, or only sends, is decremented over and over. The counters stay in the range of an `int` in
every run that avoids both.
-/

namespace PgCutover.SInval

open Function State Lib

variable {Msg : Type}

/-- The next step of the process cleans the queue. -/
def State.isFull (s : State Msg) (p : ℕ) : Bool :=
  match s.pc p with
  | .insertCheck data =>
    decide (s.maxMsgNum - s.minMsgNum + nthistime data > maxNumMessages) ||
      decide (s.maxMsgNum - s.minMsgNum ≥ s.nextThreshold)
  | _ => false

/-- No counter is far below zero when all of them may be decremented. -/
def CleanOk (s : State Msg) : Prop :=
  msgNumWraparound ≤ s.maxMsgNum →
    ∀ q ∈ s.pgprocnos, -msgNumWraparound ≤ (s.procState q).nextMsgNum

/-- When an event cannot make a counter overflow. -/
def StepOk (s : State Msg) : Event Msg → Prop
  | .resetAll => s.maxMsgNum < msgNumWraparound
  | .cleanup _ => CleanOk s
  | .advance p => s.isFull p = true → CleanOk s
  | _ => True

instance (s : State Msg) : Decidable (CleanOk s) :=
  inferInstanceAs (Decidable (_ → _))

instance (s : State Msg) : DecidablePred (StepOk s)
  | .resetAll => inferInstanceAs (Decidable (_ < _))
  | .cleanup _ => inferInstanceAs (Decidable (CleanOk s))
  | .advance p => inferInstanceAs (Decidable (s.isFull p = true → CleanOk s))
  | .init _ _ | .exit _ | .insert _ _ | .get _ _ => inferInstanceAs (Decidable True)

/-- The steps that meet the condition. -/
def okStep (s : State Msg) (e : Event Msg) : Option (State Msg) :=
  if StepOk s e then step s e else none

theorem okStep_eq_some {s t : State Msg} {e : Event Msg} :
    okStep s e = some t ↔ StepOk s e ∧ step s e = some t := by
  rw [okStep, Option.ite_none_right_eq_some]

structure Bounded (s : State Msg) : Prop where
  min_lt : s.minMsgNum < msgNumWraparound
  next_ge (p : ℕ) : -2 * msgNumWraparound ≤ (s.procState p).nextMsgNum

theorem bounded_init (buffer : ℕ → Msg) : Bounded (init buffer) where
  min_lt := show (0 : ℤ) < msgNumWraparound by decide
  next_ge _ := show -2 * msgNumWraparound ≤ 0 by decide

section Step

variable {s t : State Msg} {e : Event Msg}

theorem Move.minMsgNum (h : Move s e t) : t.minMsgNum = s.minMsgNum := by
  cases h <;> rfl

/-- A step by itself never lowers a counter below zero. -/
theorem Inv.le_nextMsgNum (hs : Inv s) (h : Move s e t) (q : ℕ) :
    (s.procState q).nextMsgNum ≤ (t.procState q).nextMsgNum ∨
      0 ≤ (t.procState q).nextMsgNum := by
  have hmin := hs.queue.min_nonneg
  have hle := hs.queue.min_le
  by_cases hq : e.actor = some q
  · cases h
    all_goals obtain rfl := Option.some.inj hq
    case init =>
      simp only [update_self]
      exact .inr (by omega)
    case exit => exact .inr (by simp)
    case getReset p _ _ hpc hreset =>
      have hmax := (hs.procs p).pc
      rw [hpc] at hmax
      have := hmax.min_le
      simp only [setPc_procState, setOutput_procState, setProcState_procState, update_self]
      exact .inr (by omega)
    case getMessage =>
      simp only [setPc_procState, setOutput_procState, setProcState_procState, update_self]
      exact .inl (by omega)
    case insertFlag p i _ _ hpc =>
      obtain ⟨b, hb⟩ := update_hasMessages s.procState i p
      exact .inl (by simp [hb])
    all_goals exact .inl (by simp)
  · exact .inl (Int.le_of_eq (hs.keeps h hq).nextMsgNum.symm)

theorem Cleans.cleanOk (h : Cleans s e t) (hok : StepOk s e) (hreset : e ≠ .resetAll) :
    CleanOk s := by
  cases h with
  | insertSignal hpc hfull _ | insertClean hpc hfull _ =>
    refine hok ?_
    rw [State.isFull, hpc]
    simpa using hfull
  | cleanup => exact hok
  | resetAll => exact absurd rfl hreset

theorem Bounded.step (hb : Bounded s) (hs : Inv s) (h : okStep s e = some t) : Bounded t := by
  obtain ⟨hok, h⟩ := okStep_eq_some.1 h
  rcases move_of_step h with h | h
  · refine ⟨h.minMsgNum ▸ hb.min_lt, fun q => ?_⟩
    have := hb.next_ge q
    have hw : 0 ≤ msgNumWraparound := by decide
    rcases hs.le_nextMsgNum h q with h | h <;> omega
  · obtain ⟨u, d, hu⟩ := hs.cleans h
    have hbound : Bounded u := by
      have hlt := hb.min_lt
      have hmax := hs.queue.max_le
      have hw : msgNumWraparound = 1073741824 := by decide
      refine ⟨hu.min_lt (by omega) ?_, fun q => ?_⟩
      · rintro rfl
        exact hok
      · have hnext := hu.cleaned.nextMsgNum q
        have hq := hb.next_ge q
        have hle := hu.cleaned.min_le
        have hnonneg := hu.cleaned.min_nonneg
        have hshift := hu.cleaned.max
        rcases hu.shift with rfl | hd
        · split_ifs at hnext <;> omega
        · -- the counters are decremented, so that they were large
          have hlarge : msgNumWraparound ≤ s.maxMsgNum := by omega
          have hreset : e ≠ .resetAll := by
            rintro rfl
            exact Int.not_le.2 hok hlarge
          split_ifs at hnext with hmem
          · have := h.cleanOk hok hreset hlarge q hmem
            omega
          · omega
    rcases hu.result with rfl | ⟨p, _, -, -, rfl⟩
    · exact hbound
    · exact ⟨hbound.min_lt, hbound.next_ge⟩

end Step

end PgCutover.SInval
