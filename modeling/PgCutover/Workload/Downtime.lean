import PgCutover.Lib.MachineNumbers
import PgCutover.Workload.Errors

/-!
# The longest error window in the workload log

The script of the downtime check goes through the events of all workers in the order of the log.
-/

namespace PgCutover.Workload

open Function Lib List

/-- `MAX_DOWNTIME_SECS`. -/
def maxDowntimeSecs : ℕ := 15

/-- `int((ts - err_start).total_seconds() * 1000)` for two times in milliseconds. -/
def totalMillis (ts errStart : ℕ) : ℤ :=
  ⌊binary64 (binary64 (((ts - errStart) * 1000 : ℕ) / 1000000) * 1000)⌋

/-- The variables of the script. -/
structure Scan where
  maxMs : ℤ
  errStart : Option ℕ

/-- One turn of the loop of the script. -/
def scanEvent (scan : Scan) (ev : LogEvent) : Scan :=
  match ev.status, scan.errStart with
  | .error, none => { scan with errStart := some ev.ts }
  | .error, some _ => scan
  | .ok, some errStart => ⟨max scan.maxMs (totalMillis ev.ts errStart), none⟩
  | .ok, none => scan

/-- An error window that is still open is measured to the last event. -/
def Scan.close (scan : Scan) (last : ℕ) : ℤ :=
  match scan.errStart with
  | some errStart => max scan.maxMs (totalMillis last errStart)
  | none => scan.maxMs

/-- What the script prints; nothing is measured in an empty log. -/
def downtime (log : List LogEvent) : Option ℤ :=
  match log.getLast? with
  | some last => some ((log.foldl scanEvent ⟨0, none⟩).close last.ts)
  | none => none

/-! ### Spans of the log -/

/-- The log has the event `a`, then the events `mid`, then `b`, too long after `a`. -/
def Apart (log : List LogEvent) (a : LogEvent) (mid : List LogEvent) (b : LogEvent) : Prop :=
  ∃ before after, log = before ++ a :: (mid ++ b :: after) ∧ maxDowntimeSecs * 1000 < b.ts - a.ts

/-- Only errors from the first event on, up to an event that is too late. -/
def LongWindow (log : List LogEvent) : Prop :=
  ∃ a mid b, Apart log a mid b ∧ ∀ ev ∈ a :: mid, ev.status = .error

/-- Two events of HTTP workers with nothing but errors of HTTP workers from one to the other. -/
def HttpErrorSpan (a : LogEvent) (mid : List LogEvent) (b : LogEvent) : Prop :=
  a.op ≠ .cdcMarker ∧ b.op ≠ .cdcMarker ∧
    ∀ ev ∈ a :: (mid ++ [b]), ev.op ≠ .cdcMarker → ev.status = .error

/-- The log has a long span of errors of the HTTP workers. -/
def LongHttpErrorSpan (log : List LogEvent) : Prop :=
  ∃ a mid b, Apart log a mid b ∧ HttpErrorSpan a mid b

/-- The marker worker succeeds in the middle of a long span of errors. -/
def MarkerInSpan (log : List LogEvent) : Prop :=
  ∃ a mid b, Apart log a mid b ∧ HttpErrorSpan a mid b ∧
    ∃ ev ∈ mid, ev.op = .cdcMarker ∧ ev.status = .ok

/-! ### Measuring in floating point -/

/-- The product with 1000 is exact enough at the limit, and monotone. -/
theorem totalMillis_le_iff {ts errStart : ℕ} :
    totalMillis ts errStart ≤ 15000 ↔ ts - errStart ≤ maxDowntimeSecs * 1000 := by
  have hmono : ∀ {m n : ℕ}, m ≤ n → totalMillis m 0 ≤ totalMillis n 0 := by
    intro m n hmn
    refine Int.floor_mono (binary64_mono (mul_le_mul_of_nonneg_right ?_ (by norm_num)))
    refine binary64_mono (div_le_div_of_nonneg_right ?_ (by norm_num))
    exact_mod_cast Nat.mul_le_mul_right 1000 (by omega : m - 0 ≤ n - 0)
  have hshift : totalMillis ts errStart = totalMillis (ts - errStart) 0 := by
    rw [totalMillis, totalMillis, Nat.sub_zero]
  have hlimit : totalMillis 15000 0 = 15000 := by decide +kernel
  have hover : totalMillis 15001 0 = 15001 := by decide +kernel
  rw [maxDowntimeSecs]
  constructor
  · intro h
    by_contra hlt
    have := hmono (by omega : 15001 ≤ ts - errStart)
    omega
  · intro h
    have := hmono (show ts - errStart ≤ 15000 from h)
    omega

/-! ### Windows, event by event -/

/-- Errors up to an event that is too late for a window that starts at `t`. -/
def Reaches (t : ℕ) (log : List LogEvent) : Prop :=
  ∃ mid b after, log = mid ++ b :: after ∧ (∀ ev ∈ mid, ev.status = .error) ∧
    maxDowntimeSecs * 1000 < b.ts - t

section Windows

variable {t u : ℕ} {a ev : LogEvent} {log : List LogEvent}

theorem not_reaches_nil : ¬ Reaches t [] := by
  rintro ⟨_, b, _, h, -⟩
  exact append_ne_nil_of_right_ne_nil _ (cons_ne_nil _ _) h.symm

theorem reaches_cons :
    Reaches t (ev :: log) ↔
      maxDowntimeSecs * 1000 < ev.ts - t ∨ ev.status = .error ∧ Reaches t log := by
  constructor
  · rintro ⟨mid, b, after, h, hmid, hb⟩
    cases mid with
    | nil =>
      cases h
      exact .inl hb
    | cons _ mid =>
      cases h
      rw [forall_mem_cons] at hmid
      exact .inr ⟨hmid.1, mid, b, after, rfl, hmid.2, hb⟩
  · rintro (hev | ⟨hev, mid, b, after, rfl, hmid, hb⟩)
    · exact ⟨[], ev, log, rfl, nofun, hev⟩
    · exact ⟨ev :: mid, b, after, rfl, forall_mem_cons.2 ⟨hev, hmid⟩, hb⟩

/-- A window that starts earlier reaches as far. -/
theorem Reaches.mono (h : Reaches u log) (htu : t ≤ u) : Reaches t log := by
  obtain ⟨mid, b, after, hlog, hmid, hb⟩ := h
  exact ⟨mid, b, after, hlog, hmid, by omega⟩

theorem not_longWindow_nil : ¬ LongWindow [] := by
  rintro ⟨a, _, b, ⟨_, _, h, -⟩, -⟩
  exact append_ne_nil_of_right_ne_nil _ (cons_ne_nil _ _) h.symm

theorem longWindow_cons :
    LongWindow (a :: log) ↔ a.status = .error ∧ Reaches a.ts log ∨ LongWindow log := by
  constructor
  · rintro ⟨a', mid, b, ⟨before, after, h, hlong⟩, herr⟩
    cases before with
    | nil =>
      cases h
      rw [forall_mem_cons] at herr
      exact .inl ⟨herr.1, mid, b, after, rfl, herr.2, hlong⟩
    | cons _ before =>
      cases h
      exact .inr ⟨a', mid, b, ⟨before, after, rfl, hlong⟩, herr⟩
  · rintro (⟨ha, mid, b, after, rfl, hmid, hlong⟩ | ⟨a', mid, b, ⟨before, after, rfl, hlong⟩, herr⟩)
    · exact ⟨a, mid, b, ⟨[], after, rfl, hlong⟩, forall_mem_cons.2 ⟨ha, hmid⟩⟩
    · exact ⟨a', mid, b, ⟨a :: before, after, rfl, hlong⟩, herr⟩

end Windows

/-! ### What the script prints -/

/-- The time of the last event. -/
def lastTs (ts : ℕ) (log : List LogEvent) : ℕ := (log.getLast?.map LogEvent.ts).getD ts

theorem lastTs_cons (ts : ℕ) (ev : LogEvent) (log : List LogEvent) :
    lastTs ts (ev :: log) = lastTs ev.ts log := by
  rw [lastTs]
  cases log with
  | nil => rfl
  | cons => rw [List.getLast?_cons_cons, List.getLast?_eq_some_getLast (by simp)]; rfl

/-- The scan from the middle of the log on, without an open window and with one that is open since
`t` and whose last error so far is at `u`. -/
theorem scan_le_iff (log : List LogEvent) (m : ℤ) (u : ℕ)
    (hsorted : log.Pairwise fun a b => a.ts ≤ b.ts) (hu : ∀ ev ∈ log, u ≤ ev.ts) :
    ((log.foldl scanEvent ⟨m, none⟩).close (lastTs u log) ≤ 15000 ↔
      m ≤ 15000 ∧ ¬ LongWindow log) ∧
    ∀ t ≤ u, ((log.foldl scanEvent ⟨m, some t⟩).close (lastTs u log) ≤ 15000 ↔
      m ≤ 15000 ∧
        ¬ (maxDowntimeSecs * 1000 < u - t ∨ Reaches t log ∨ LongWindow log)) := by
  induction log generalizing m u with
  | nil =>
    refine ⟨?_, fun t ht => ?_⟩
    · simp [Scan.close, not_longWindow_nil]
    · simp [Scan.close, not_longWindow_nil, not_reaches_nil, lastTs, totalMillis_le_iff]
  | cons ev log ih =>
    rw [pairwise_cons] at hsorted
    rw [forall_mem_cons] at hu
    obtain ⟨ihNone, ihSome⟩ := ih m ev.ts hsorted.2 hsorted.1
    rw [foldl_cons, lastTs_cons, longWindow_cons]
    cases hstatus : ev.status with
    | ok =>
      have hclosed := fun m => (ih m ev.ts hsorted.2 hsorted.1).1
      refine ⟨?_, fun t ht => ?_⟩
      · rw [scanEvent, hstatus]
        simpa using ihNone
      · rw [foldl_cons, scanEvent, hstatus, reaches_cons, hstatus]
        rw [hclosed, max_le_iff, totalMillis_le_iff]
        simp only [reduceCtorEq, false_and, false_or, or_false, not_or, not_lt]
        constructor
        · rintro ⟨⟨hm, hev⟩, hlog⟩
          exact ⟨hm, by omega, hev, hlog⟩
        · rintro ⟨hm, -, hev, hlog⟩
          exact ⟨⟨hm, hev⟩, hlog⟩
    | error =>
      refine ⟨?_, fun t ht => ?_⟩
      · rw [scanEvent, hstatus]
        rw [ihSome ev.ts (Nat.le_refl _)]
        simp
      · rw [foldl_cons, scanEvent, hstatus, reaches_cons, hstatus]
        rw [ihSome t (by omega)]
        have hmono : Reaches ev.ts log → Reaches t log := fun h => h.mono (by omega)
        have hlate : maxDowntimeSecs * 1000 < u - t → maxDowntimeSecs * 1000 < ev.ts - t := by
          omega
        tauto

/-- The printed value is within the limit exactly when no window is too long. -/
theorem downtime_le_iff {log : List LogEvent} {v : ℤ}
    (hsorted : log.Pairwise fun a b => a.ts ≤ b.ts) (h : downtime log = some v) :
    v ≤ 15000 ↔ ¬ LongWindow log := by
  rw [downtime] at h
  cases hlast : log.getLast? with
  | none => simp [hlast] at h
  | some =>
    simp only [hlast, Option.some.injEq] at h
    have hscan := (scan_le_iff log 0 0 hsorted fun ev _ => Nat.zero_le _).1
    rw [lastTs, hlast, Option.map_some, Option.getD_some, h] at hscan
    rw [hscan]
    exact ⟨fun h => h.2, fun h => ⟨by decide, h⟩⟩

/-- A long span of errors without a success of the marker worker in it is a long window. -/
theorem longWindow_of_span {log : List LogEvent} (hspan : LongHttpErrorSpan log)
    (hmarker : ¬ MarkerInSpan log) : LongWindow log := by
  obtain ⟨a, mid, b, hapart, hhttp⟩ := hspan
  refine ⟨a, mid, b, hapart, ?_⟩
  rw [forall_mem_cons]
  refine ⟨hhttp.2.2 a mem_cons_self hhttp.1, fun ev hev => ?_⟩
  by_cases hop : ev.op = .cdcMarker
  · cases hstatus : ev.status with
    | error => rfl
    | ok => exact absurd ⟨a, mid, b, hapart, hhttp, ev, hev, hop, hstatus⟩ hmarker
  · exact hhttp.2.2 ev (mem_cons_of_mem _ (mem_append_left _ hev)) hop

theorem exists_downtime {log : List LogEvent} (h : log ≠ []) : ∃ v, downtime log = some v :=
  ⟨_, by rw [downtime, List.getLast?_eq_some_getLast h]⟩

/-- **Downtime.** A value within the limit rules out a long span of errors of the HTTP workers
exactly for the logs in which the marker worker does not succeed during such a span, or which have a
long window all the same. -/
theorem downtime_sound_iff (log : List LogEvent)
    (hsorted : log.Pairwise fun a b => a.ts ≤ b.ts) :
    (∀ v, downtime log = some v → v ≤ (maxDowntimeSecs * 1000 : ℕ) → ¬ LongHttpErrorSpan log) ↔
      (MarkerInSpan log → LongWindow log) := by
  constructor
  · rintro hsound ⟨a, mid, b, hapart, hhttp, -⟩
    have hne : log ≠ [] := by
      obtain ⟨_, _, rfl, -⟩ := hapart
      simp
    obtain ⟨v, hv⟩ := exists_downtime hne
    by_contra hwindow
    exact hsound v hv ((downtime_le_iff hsorted hv).2 hwindow) ⟨a, mid, b, hapart, hhttp⟩
  · intro h v hv hle hspan
    exact (downtime_le_iff hsorted hv).1 hle (by_contra fun hwindow =>
      hwindow (longWindow_of_span hspan fun hmarker => hwindow (h hmarker)))

/-- Two errors of HTTP workers twenty seconds apart, with a success of the marker worker. -/
def markerLog : List LogEvent :=
  [⟨0, .error, .read⟩, ⟨10000, .ok, .cdcMarker⟩, ⟨20000, .error, .write⟩]

theorem downtime_markerLog :
    downtime markerLog = some 10000 ∧ LongHttpErrorSpan markerLog := by
  refine ⟨by decide +kernel, ⟨0, .error, .read⟩, [⟨10000, .ok, .cdcMarker⟩],
    ⟨20000, .error, .write⟩, ⟨[], [], rfl, by decide⟩, by decide, by decide, ?_⟩
  intro _ hev hop
  simp only [cons_append, nil_append, mem_cons, not_mem_nil, or_false] at hev
  rcases hev with rfl | rfl | rfl
  · rfl
  · exact absurd rfl hop
  · rfl

/-- Errors for fourteen seconds, also of the marker worker. -/
def errorLog : List LogEvent :=
  [⟨0, .error, .read⟩, ⟨10000, .error, .cdcMarker⟩, ⟨14000, .ok, .write⟩]

theorem downtime_sound_iff_errorLog :
    downtime errorLog = some 14000 ∧ ¬ LongHttpErrorSpan errorLog := by
  have hprinted : downtime errorLog = some 14000 := by decide +kernel
  have hsorted : errorLog.Pairwise fun a b => a.ts ≤ b.ts := by decide
  refine ⟨hprinted, (downtime_sound_iff errorLog hsorted).2 ?_ 14000 hprinted (by decide)⟩
  rintro ⟨a, _, b, ⟨_, _, hlog, -⟩, -, ev, hev, hop, hok⟩
  have hmem : ev ∈ errorLog := by
    rw [hlog]
    simp [hev]
  simp only [errorLog, mem_cons, not_mem_nil, or_false] at hmem
  rcases hmem with rfl | rfl | rfl <;> simp_all

end PgCutover.Workload
