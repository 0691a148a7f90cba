import PgCutover.Workload.Downtime

/-!
# The worst error rate in the workload log

The script of the error rate check counts the events in buckets of thirty seconds from the epoch
on, leaves out the buckets with few events and prints the largest rate with six decimals. The
events of a window that is not aligned like the buckets are spread over two of them.
-/

namespace PgCutover.Workload

open Function Lib List

/-- The largest error rate that passes, in percent. -/
def maxWorkloadErrorRatePct : ℕ := 2

/-- The length of a bucket. -/
def errorRateWindowSecs : ℕ := 30

/-- The fewest events of a bucket that is counted. -/
def minReqs : ℕ := 10

/-- `int(ts.timestamp() // WINDOW_SECS)` for a time in milliseconds. -/
def bucket (ev : LogEvent) : ℤ := ⌊binary64 (ev.ts / 1000) / errorRateWindowSecs⌋

/-- The event is an error. -/
def isError (ev : LogEvent) : Bool := ev.status = .error

/-- The body of the first loop. The dictionary has the total and the errors of each bucket. -/
def countEvent (buckets : ℤ → ℕ × ℕ) (ev : LogEvent) : ℤ → ℕ × ℕ :=
  let count := buckets (bucket ev)
  Function.update buckets (bucket ev) (count.1 + 1, count.2 + (isError ev).toNat)

/-- The body of the second loop. -/
def worse (maxRate : ℚ) (count : ℕ × ℕ) : ℚ :=
  if count.1 < minReqs then maxRate
  else
    let rate := binary64 (count.2 / count.1)
    if rate > maxRate then rate else maxRate

/-- The second loop goes through the buckets that have an event. -/
def maxRate (log : List LogEvent) : ℚ :=
  ((log.map bucket).dedup.map (log.foldl countEvent 0)).foldl worse 0

/-- The rate is printed with six decimals and read again. -/
def maxRatePct (rate : ℚ) : ℚ := binary64 (binary64 (roundEven (rate * 1000000) / 1000000) * 100)

/-- Whether the test passes. The lines that are not JSON or have no time are skipped. -/
def lowErrorCount (lines : List (Option LogEvent)) : Bool :=
  let log := lines.reduceOption
  log ≠ [] ∧ maxRatePct (maxRate log) ≤ maxWorkloadErrorRatePct

/-- The event is in the window that begins at an instant, in milliseconds. -/
def inWindow (t : ℚ) (ev : LogEvent) : Bool :=
  t ≤ ev.ts ∧ ev.ts < t + errorRateWindowSecs * 1000

/-- So many events, and so many errors among them. -/
def tally (log : List LogEvent) : ℕ × ℕ := (log.length, log.countP isError)

/-- There are few events, or few of them are errors. -/
def LowRate (log : List LogEvent) : Prop :=
  (tally log).1 < minReqs ∨ 100 * (tally log).2 ≤ maxWorkloadErrorRatePct * (tally log).1

theorem foldl_countEvent (log : List LogEvent) (buckets : ℤ → ℕ × ℕ) (key : ℤ) :
    log.foldl countEvent buckets key = buckets key + tally (log.filter (bucket · = key)) := by
  induction log generalizing buckets with
  | nil => rfl
  | cons ev _ ih =>
    rw [foldl_cons, ih, filter_cons, countEvent]
    by_cases h : bucket ev = key
    · cases herror : isError ev <;> ext <;> simp [h, herror, tally] <;> omega
    · simp [h, Ne.symm h]

theorem le_foldl_worse (counts : List (ℕ × ℕ)) (m : ℚ) :
    m ≤ counts.foldl worse m ∧ ∀ count ∈ counts, minReqs ≤ count.1 →
      binary64 (count.2 / count.1) ≤ counts.foldl worse m := by
  induction counts generalizing m with
  | nil => exact ⟨le_rfl, nofun⟩
  | cons count _ ih =>
    have hstep : m ≤ worse m count ∧
        (minReqs ≤ count.1 → binary64 (count.2 / count.1) ≤ worse m count) := by
      simp only [worse]
      split_ifs with hfew hrate
      · exact ⟨le_rfl, fun h => absurd hfew (Nat.not_lt.2 h)⟩
      · exact ⟨hrate.le, fun _ => le_rfl⟩
      · exact ⟨le_rfl, fun _ => not_lt.1 hrate⟩
    obtain ⟨hle, hall⟩ := ih (worse m count)
    exact ⟨hstep.1.trans hle, forall_mem_cons.2 ⟨fun h => (hstep.2 h).trans hle, hall⟩⟩

theorem maxRatePct_mono {x y : ℚ} (h : x ≤ y) : maxRatePct x ≤ maxRatePct y := by
  refine binary64_mono (mul_le_mul_of_nonneg_right (binary64_mono ?_) (by norm_num))
  refine div_le_div_of_nonneg_right ?_ (by norm_num)
  exact_mod_cast roundEven_mono (mul_le_mul_of_nonneg_right h (by norm_num))

/-- The events of the window are those of one bucket, and not so many that the six decimals hide an
error. -/
def IsBucket (log : List LogEvent) (t : ℚ) : Prop :=
  ∃ key, (∀ ev ∈ log, inWindow t ev = decide (bucket ev = key)) ∧
    (log.filter (inWindow t)).length < 40049

/-- The rate of some bucket is counted and above the limit. -/
def HighBucket (log : List LogEvent) : Prop :=
  ∃ key, minReqs ≤ (tally (log.filter (bucket · = key))).1 ∧
    maxWorkloadErrorRatePct < maxRatePct (binary64 ((tally (log.filter (bucket · = key))).2 /
      (tally (log.filter (bucket · = key))).1))

/-- Many events of the window are errors, but it is no bucket that the script looks at. -/
def HiddenBurst (log : List LogEvent) (t : ℚ) : Prop :=
  ¬ LowRate (log.filter (inWindow t)) ∧ ¬ IsBucket log t

/-- The largest rate is zero or that of a bucket that is counted. -/
theorem foldl_worse_eq (counts : List (ℕ × ℕ)) (m : ℚ) :
    counts.foldl worse m = m ∨ ∃ count ∈ counts, minReqs ≤ count.1 ∧
      counts.foldl worse m = binary64 (count.2 / count.1) := by
  induction counts generalizing m with
  | nil => exact .inl rfl
  | cons count counts ih =>
    rw [foldl_cons]
    rcases ih (worse m count) with heq | ⟨other, hother, hmin, heq⟩
    · rw [heq]
      simp only [worse]
      split_ifs with hfew hrate
      · exact .inl rfl
      · exact .inr ⟨count, mem_cons_self, Nat.not_lt.1 hfew, rfl⟩
      · exact .inl rfl
    · exact .inr ⟨other, mem_cons_of_mem _ hother, hmin, heq⟩

/-- The test passes when there are events and no bucket that is counted has a rate above the limit.
-/
theorem lowErrorCount_iff (lines : List (Option LogEvent)) :
    lowErrorCount lines = true ↔ lines.reduceOption ≠ [] ∧ ¬ HighBucket lines.reduceOption := by
  have hcount (key : ℤ) : lines.reduceOption.foldl countEvent 0 key =
      tally (lines.reduceOption.filter (bucket · = key)) := by
    rw [foldl_countEvent, Pi.zero_apply, zero_add]
  rw [lowErrorCount, decide_eq_true_iff]
  refine and_congr_right fun _ => ⟨fun hpass ⟨key, hmin, hhigh⟩ => ?_, fun hnone => ?_⟩
  · have hkey : key ∈ (lines.reduceOption.map bucket).dedup := by
      obtain ⟨ev, hev⟩ := exists_mem_of_length_pos
        (Nat.lt_of_lt_of_le (by decide : 0 < minReqs) hmin)
      rw [mem_filter, decide_eq_true_iff] at hev
      exact mem_dedup.2 (mem_map.2 ⟨ev, hev⟩)
    have hle : minReqs ≤ _ → _ ≤ maxRate lines.reduceOption :=
      (le_foldl_worse _ 0).2 _ (mem_map_of_mem hkey)
    rw [hcount] at hle
    exact absurd (hhigh.trans_le (maxRatePct_mono (hle hmin))) hpass.not_gt
  · by_contra hmore
    rcases foldl_worse_eq ((lines.reduceOption.map bucket).dedup.map
        (lines.reduceOption.foldl countEvent 0)) 0 with hzero | ⟨count, hmem, hmin, hrate⟩
    · refine hmore ?_
      rw [maxRate, hzero]
      decide +kernel
    · obtain ⟨key, -, rfl⟩ := mem_map.1 hmem
      rw [hcount] at hmin hrate
      refine hnone ⟨key, hmin, ?_⟩
      rw [← hrate]
      exact not_le.1 hmore

/-- A rate above the limit of so few events is printed as one above the limit. -/
theorem lt_maxRatePct {n errors : ℕ} (hpos : 0 < n) (hlt : n < 40049)
    (hmore : maxWorkloadErrorRatePct * n < 100 * errors) :
    (maxWorkloadErrorRatePct : ℚ) < maxRatePct (binary64 (errors / n)) := by
  -- the smallest such rate
  have hover : (maxWorkloadErrorRatePct : ℚ) < maxRatePct (binary64 (800 / 39999)) := by
    decide +kernel
  refine hover.trans_le (maxRatePct_mono (binary64_mono ?_))
  rw [div_le_div_iff₀ (by norm_num) (by exact_mod_cast hpos)]
  rw [maxWorkloadErrorRatePct] at hmore
  exact_mod_cast (by omega : 800 * n ≤ errors * 39999)

/-- Errors on both sides of the boundary between two buckets. -/
def boundaryLog : List (Option LogEvent) :=
  replicate 9 (some ⟨29999, .error, .read⟩) ++ replicate 9 (some ⟨30000, .error, .read⟩)

end PgCutover.Workload
