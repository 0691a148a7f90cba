import PgCutover.Lib.BlockAllocator
import PgCutover.Lib.MachineNumbers

/-!
# Sequences

`nextval_internal`, with the three reservations that it takes values from: the cache of
the session, the values that are logged ahead of the page (`log_cnt`), and the limits of
the sequence. Around it is what decides the fate of a sequence at a crash: the page and
its image on disk, the WAL records of the sequence, and the redo pointer.
-/

namespace PgCutover.Sequence

open Lib

/-- `Form_pg_sequence`, the parameters of a sequence. -/
structure PgSequence where
  seqstart : ℤ
  seqincrement : ℤ
  seqmax : ℤ
  seqmin : ℤ
  seqcache : ℤ
  seqcycle : Bool
  deriving DecidableEq, Repr

/-- The parameters that `init_params` lets pass, of the type `int64`. -/
structure PgSequence.Admissible (pgs : PgSequence) : Prop where
  increment_ne_zero : pgs.seqincrement ≠ 0
  increment_fits : -2 ^ 63 ≤ pgs.seqincrement ∧ pgs.seqincrement < 2 ^ 63
  min_fits : -2 ^ 63 ≤ pgs.seqmin
  max_fits : pgs.seqmax < 2 ^ 63
  min_lt_max : pgs.seqmin < pgs.seqmax
  min_le_start : pgs.seqmin ≤ pgs.seqstart
  start_le_max : pgs.seqstart ≤ pgs.seqmax
  cache_pos : 0 < pgs.seqcache

/-- `Form_pg_sequence_data`, the tuple of a sequence. -/
structure PgSequenceData where
  lastValue : ℤ
  logCnt : ℤ
  isCalled : Bool
  deriving DecidableEq, Repr

/-- `SeqTableData`, what a session knows about a sequence. -/
structure SeqTableData where
  lastValid : Bool := false
  last : ℤ := 0
  cached : ℤ := 0
  increment : ℤ := 0
  deriving DecidableEq, Repr

/-- The errors of `nextval_internal` when a sequence is used up. -/
inductive NextvalError
  | reachedMaximum (maxv : ℤ)
  | reachedMinimum (minv : ℤ)
  deriving DecidableEq, Repr

/-- The text of the error. -/
def NextvalError.message (relname : String) : NextvalError → String
  | .reachedMaximum maxv =>
      "nextval: reached maximum value of sequence \"" ++ relname ++ "\" (" ++ toString maxv ++ ")"
  | .reachedMinimum minv =>
      "nextval: reached minimum value of sequence \"" ++ relname ++ "\" (" ++ toString minv ++ ")"

/-- The values that are logged in advance. -/
def seqLogVals : ℤ := 32

/-- What the fetch loop does with the next number. -/
inductive Fetched
  | stop
  | error (e : NextvalError)
  | value (next : ℤ)
  deriving DecidableEq, Repr

/-- The limit checks of the fetch loop. `found` tells whether there is a result
already. -/
def fetchNext (pgs : PgSequence) (next : ℤ) (found : Bool) : Fetched :=
  let incby := pgs.seqincrement
  let maxv := pgs.seqmax
  let minv := pgs.seqmin
  if incby > 0 then
    if (maxv ≥ 0 ∧ next > int64 (maxv - incby)) ∨ (maxv < 0 ∧ int64 (next + incby) > maxv) then
      if found then .stop
      else if !pgs.seqcycle then .error (.reachedMaximum maxv)
      else .value minv
    else .value (int64 (next + incby))
  else
    if (minv < 0 ∧ next < int64 (minv - incby)) ∨ (minv ≥ 0 ∧ int64 (next + incby) < minv) then
      if found then .stop
      else if !pgs.seqcycle then .error (.reachedMinimum minv)
      else .value maxv
    else .value (int64 (next + incby))

/-- The variables of the fetch loop. -/
structure FetchState where
  next : ℤ
  last : ℤ
  result : ℤ
  rescnt : ℤ
  log : ℤ
  deriving DecidableEq, Repr

/-- The body of the fetch loop, once the next number is known. -/
def FetchState.take (st : FetchState) (cache next : ℤ) : FetchState :=
  if st.rescnt < cache then
    { next := next
      last := next
      result := if st.rescnt + 1 = 1 then next else st.result
      rescnt := st.rescnt + 1
      log := st.log - 1 }
  else { st with next := next }

/-- `while (fetch)`: the state that the loop leaves, and what is left of `fetch`. -/
def fetchLoop (pgs : PgSequence) : ℕ → FetchState → Except NextvalError (FetchState × ℕ)
  | 0, st => .ok (st, 0)
  | fetch + 1, st =>
    match fetchNext pgs st.next (st.rescnt > 0) with
    | .stop => .ok (st, fetch + 1)
    | .error e => .error e
    | .value next => fetchLoop pgs fetch (st.take pgs.seqcache next)

/-- What `nextval_internal` leaves behind: the value, the cache of the session, the tuple,
and the tuple that it logged, if any. -/
structure NextvalOutcome where
  result : ℤ
  elm : SeqTableData
  seq : PgSequenceData
  logged : Option PgSequenceData := none
  deriving DecidableEq, Repr

/-- Whether `nextval_internal` writes a WAL record. -/
def logsNextval (pgs : PgSequence) (seq : PgSequenceData) (pageLsn redoptr : ℕ) : Bool :=
  let fetch := if seq.isCalled then pgs.seqcache else pgs.seqcache - 1
  seq.logCnt < fetch || !seq.isCalled || pageLsn ≤ redoptr

/-- `fetch` before the loop: the numbers that it tries to fetch. -/
def fetches (pgs : PgSequence) (seq : PgSequenceData) (pageLsn redoptr : ℕ) : ℤ :=
  (if seq.isCalled then pgs.seqcache else pgs.seqcache - 1) +
    if logsNextval pgs seq pageLsn redoptr then seqLogVals else 0

/-- The other variables before the loop. -/
def loopStart (pgs : PgSequence) (seq : PgSequenceData) (pageLsn redoptr : ℕ) : FetchState where
  next := seq.lastValue
  last := seq.lastValue
  result := seq.lastValue
  rescnt := if seq.isCalled then 0 else 1
  log := if logsNextval pgs seq pageLsn redoptr then fetches pgs seq pageLsn redoptr else seq.logCnt

/-- `nextval_internal` for a session that has used up its cache. -/
def nextvalFromPage (pgs : PgSequence) (seq : PgSequenceData) (pageLsn redoptr : ℕ) :
    Except NextvalError NextvalOutcome :=
  let logit := logsNextval pgs seq pageLsn redoptr
  match fetchLoop pgs (fetches pgs seq pageLsn redoptr).toNat
    (loopStart pgs seq pageLsn redoptr) with
  | .error e => .error e
  | .ok (st, unfetched) => .ok
      { result := st.result
        elm := { lastValid := true, last := st.result, cached := st.last,
                 increment := pgs.seqincrement }
        seq := { lastValue := st.last, logCnt := st.log - unfetched, isCalled := true }
        -- the record holds the state as it would be after all the fetches that it covers
        logged := if logit then some { lastValue := st.next, logCnt := 0, isCalled := true }
          else none }

/-- `nextval_internal`, for a sequence that needs WAL. -/
def nextvalInternal (pgs : PgSequence) (elm : SeqTableData) (seq : PgSequenceData)
    (pageLsn redoptr : ℕ) : Except NextvalError NextvalOutcome :=
  if elm.last ≠ elm.cached then
    let last := int64 (elm.last + elm.increment)
    .ok { result := last, elm := { elm with last := last }, seq := seq }
  else nextvalFromPage pgs seq pageLsn redoptr

/-! ### Crashes and checkpoints -/

/-- A sequence, the sessions that use it, and what a crash leaves of it. `wal` has the
records of the sequence with their positions, `returned` the values returned by
`nextval`, both newest first. -/
structure SeqSystem (ι : Type*) where
  page : PgSequenceData
  pageLsn : ℕ
  disk : PgSequenceData
  diskLsn : ℕ
  wal : List (ℕ × PgSequenceData)
  insertLsn : ℕ
  redo : ℕ
  sessions : ι → SeqTableData := fun _ => {}
  returned : List (ι × ℤ) := []

/-- The tuple of a new sequence. -/
def PgSequence.newTuple (pgs : PgSequence) : PgSequenceData where
  lastValue := pgs.seqstart
  logCnt := 0
  isCalled := false

/-- A sequence created just now, with the WAL record of its creation. -/
def SeqSystem.create (ι : Type*) (pgs : PgSequence) : SeqSystem ι where
  page := pgs.newTuple
  pageLsn := 1
  disk := pgs.newTuple
  diskLsn := 0
  wal := [(1, pgs.newTuple)]
  insertLsn := 1
  redo := 0

/-- What can happen to a sequence. -/
inductive SeqEvent (ι : Type*)
  | nextval (session : ι)
  /-- The session ends, or discards its cached values. -/
  | discard (session : ι)
  /-- The page is written out. -/
  | flush
  | checkpoint
  /-- Others write WAL. -/
  | otherWal (bytes : ℕ)
  | crash
  deriving DecidableEq, Repr

namespace SeqSystem

variable {ι : Type*} [DecidableEq ι]

omit [DecidableEq ι] in
/-- The page and its position after a crash: `seq_redo` overwrites the page for every
record from the redo pointer on, oldest first. -/
def recovered (s : SeqSystem ι) : PgSequenceData × ℕ :=
  (s.wal.filter (s.redo < ·.1)).foldr (fun record _ => (record.2, record.1)) (s.disk, s.diskLsn)

/-- `nextval` in a session. An error changes nothing. -/
def nextval (pgs : PgSequence) (s : SeqSystem ι) (session : ι) : SeqSystem ι :=
  match nextvalInternal pgs (s.sessions session) s.page s.pageLsn s.redo with
  | .error _ => s
  | .ok outcome =>
    let s := { s with
      page := outcome.seq
      sessions := Function.update s.sessions session outcome.elm
      returned := (session, outcome.result) :: s.returned }
    match outcome.logged with
    | none => s
    | some tuple => { s with
        pageLsn := s.insertLsn + 1
        wal := (s.insertLsn + 1, tuple) :: s.wal
        insertLsn := s.insertLsn + 1 }

/-- One event. -/
def step (pgs : PgSequence) (s : SeqSystem ι) : SeqEvent ι → SeqSystem ι
  | .nextval session => s.nextval pgs session
  | .discard session => { s with sessions := Function.update s.sessions session {} }
  | .flush => { s with disk := s.page, diskLsn := s.pageLsn }
  | .checkpoint => { s with disk := s.page, diskLsn := s.pageLsn, redo := s.insertLsn }
  | .otherWal bytes => { s with insertLsn := s.insertLsn + bytes }
  | .crash => { s with
      page := s.recovered.1
      pageLsn := s.recovered.2
      sessions := fun _ => {} }

end SeqSystem

/-!
## The values that `nextval` fetches

A sequence hands out the values `start`, `start + increment` and so on, so that its tuple stands for
a number of values consumed (`PgSequence.Consumed`).
-/

namespace PgSequence

variable (pgs : PgSequence)

/-- The values of the sequence, in order. -/
def value (i : ℕ) : ℤ := pgs.seqstart + i * pgs.seqincrement

/-- The first values are within the limits. -/
def InRange (n : ℕ) : Prop := ∀ i < n, pgs.seqmin ≤ pgs.value i ∧ pgs.value i ≤ pgs.seqmax

/-- The tuple stands for a number of values consumed. -/
def Consumed (seq : PgSequenceData) (n : ℕ) : Prop :=
  pgs.InRange n ∧
    (seq.isCalled = false ∧ seq.lastValue = pgs.seqstart ∧ n = 0 ∨
      seq.isCalled = true ∧ ∃ m, n = m + 1 ∧ seq.lastValue = pgs.value m)

variable {pgs}

@[simp] theorem value_zero : pgs.value 0 = pgs.seqstart := by simp [value]

theorem value_succ (i : ℕ) : pgs.value (i + 1) = pgs.value i + pgs.seqincrement := by
  unfold value
  push_cast
  ring

/-- Later values are further in the direction of the increment. -/
theorem value_lt (h : pgs.Admissible) {i j : ℕ} (hij : i < j) :
    if pgs.seqincrement > 0 then pgs.value i < pgs.value j else pgs.value j < pgs.value i := by
  have hne := h.increment_ne_zero
  unfold value
  split_ifs with hpos
  · nlinarith
  · have hneg : pgs.seqincrement < 0 := by omega
    nlinarith

theorem value_injective (h : pgs.Admissible) : Function.Injective pgs.value := by
  intro i j hij
  have hmul : (i : ℤ) * pgs.seqincrement = j * pgs.seqincrement := by
    unfold value at hij
    linarith
  exact_mod_cast mul_right_cancel₀ h.increment_ne_zero hmul

theorem InRange.mono {m n : ℕ} (h : pgs.InRange n) (hmn : m ≤ n) : pgs.InRange m :=
  fun i hi => h i (by omega)

theorem InRange.succ {n : ℕ} (h : pgs.InRange n)
    (hn : pgs.seqmin ≤ pgs.value n ∧ pgs.value n ≤ pgs.seqmax) : pgs.InRange (n + 1) := by
  intro i hi
  rcases Nat.lt_succ_iff_lt_or_eq.mp hi with hlt | rfl
  · exact h i hlt
  · exact hn

end PgSequence

section Loop

variable {pgs : PgSequence}

/-- The limit checks of the fetch loop. -/
def PgSequence.LimitReached (pgs : PgSequence) (next : ℤ) : Prop :=
  if pgs.seqincrement > 0 then
    (pgs.seqmax ≥ 0 ∧ next > int64 (pgs.seqmax - pgs.seqincrement)) ∨
      (pgs.seqmax < 0 ∧ int64 (next + pgs.seqincrement) > pgs.seqmax)
  else
    (pgs.seqmin < 0 ∧ next < int64 (pgs.seqmin - pgs.seqincrement)) ∨
      (pgs.seqmin ≥ 0 ∧ int64 (next + pgs.seqincrement) < pgs.seqmin)

/-- The checks do not overflow: they find out whether the next number is within the limits. -/
theorem limitReached_iff (h : pgs.Admissible) {x : ℤ} (hlo : pgs.seqmin ≤ x)
    (hhi : x ≤ pgs.seqmax) : pgs.LimitReached x ↔
      ¬ (pgs.seqmin ≤ x + pgs.seqincrement ∧ x + pgs.seqincrement ≤ pgs.seqmax) := by
  obtain ⟨hne, ⟨hilo, hihi⟩, hmin, hmax, -, -, -, -⟩ := h
  rw [PgSequence.LimitReached]
  split_ifs with hpos
  · rcases le_or_gt 0 pgs.seqmax with hsign | hsign
    · rw [int64_of_fits (x := pgs.seqmax - pgs.seqincrement) (by omega) (by omega)]
      omega
    · rw [int64_of_fits (x := x + pgs.seqincrement) (by omega) (by omega)]
      omega
  · rcases lt_or_ge pgs.seqmin 0 with hsign | hsign
    · rw [int64_of_fits (x := pgs.seqmin - pgs.seqincrement) (by omega) (by omega)]
      omega
    · rw [int64_of_fits (x := x + pgs.seqincrement) (by omega) (by omega)]
      omega

/-- The next number, or what is done at the limit. -/
theorem fetchNext_eq_ite (h : pgs.Admissible) {x : ℤ} (hlo : pgs.seqmin ≤ x)
    (hhi : x ≤ pgs.seqmax) (found : Bool) :
    fetchNext pgs x found =
      if pgs.seqmin ≤ x + pgs.seqincrement ∧ x + pgs.seqincrement ≤ pgs.seqmax then
        .value (x + pgs.seqincrement)
      else if found then .stop
      else if !pgs.seqcycle then .error (if pgs.seqincrement > 0 then .reachedMaximum pgs.seqmax
        else .reachedMinimum pgs.seqmin)
      else .value (if pgs.seqincrement > 0 then pgs.seqmin else pgs.seqmax) := by
  have hlimit := limitReached_iff h hlo hhi
  obtain ⟨-, -, hmin, hmax, -, -, -, -⟩ := h
  rw [PgSequence.LimitReached] at hlimit
  unfold fetchNext
  by_cases hpos : pgs.seqincrement > 0
  all_goals
    simp only [hpos, if_true, if_false] at hlimit ⊢
    simp only [hlimit]
    by_cases hin : pgs.seqmin ≤ x + pgs.seqincrement ∧ x + pgs.seqincrement ≤ pgs.seqmax
    · rw [int64_of_fits (x := x + pgs.seqincrement) (by omega) (by omega)]
      simp [hin]
    · simp [hin]

theorem fetchNext_eq (h : pgs.Admissible) (hcycle : pgs.seqcycle = false) {x : ℤ}
    (hlo : pgs.seqmin ≤ x) (hhi : x ≤ pgs.seqmax) (found : Bool) :
    fetchNext pgs x found =
      if pgs.seqmin ≤ x + pgs.seqincrement ∧ x + pgs.seqincrement ≤ pgs.seqmax then
        .value (x + pgs.seqincrement)
      else if found then .stop
      else .error (if pgs.seqincrement > 0 then .reachedMaximum pgs.seqmax
        else .reachedMinimum pgs.seqmin) := by
  rw [fetchNext_eq_ite h hlo hhi, hcycle]
  rfl

/-- The loop started from the number `base` with `found` results and the log count `log`. It
has fetched `k` numbers and taken the first `t` of them. -/
structure Fetching (pgs : PgSequence) (base found : ℕ) (log : ℤ) (k t : ℕ) (st : FetchState) :
    Prop where
  next : st.next = pgs.value (base + k)
  last : st.last = pgs.value (base + t)
  result : st.result = pgs.value (if found = 0 ∧ t ≠ 0 then base + 1 else base)
  rescnt : st.rescnt = found + t
  log : st.log = log - t
  le : t ≤ k
  full : t = k ∨ (found + t : ℤ) = pgs.seqcache
  cache : (found + t : ℤ) ≤ pgs.seqcache
  inRange : pgs.InRange (base + k + 1)

variable {base found k t : ℕ} {log : ℤ} {st : FetchState} {seq : PgSequenceData}

/-- One number more. -/
theorem Fetching.take
    (h : Fetching pgs base found log k t st) (hin : pgs.InRange (base + (k + 1) + 1)) :
    ∃ t', Fetching pgs base found log (k + 1) t'
      (st.take pgs.seqcache (pgs.value (base + (k + 1)))) := by
  obtain ⟨hnext, hlast, hresult, hrescnt, hlog, hle, hfull, hcache, -⟩ := h
  unfold FetchState.take
  by_cases hless : st.rescnt < pgs.seqcache
  · -- there is room in the cache, so nothing was left out so far
    obtain rfl : t = k := hfull.resolve_right (by omega)
    refine ⟨t + 1, ?_⟩
    rw [if_pos hless]
    refine ⟨rfl, rfl, ?_, by push_cast; omega, by push_cast; omega, le_rfl, Or.inl rfl,
      by push_cast; omega, hin⟩
    by_cases hfirst : st.rescnt + 1 = 1
    · have hzero : found = 0 ∧ t = 0 := by omega
      simp [hrescnt, hzero]
    · have hmore : ¬ (found = 0 ∧ t = 0) := by omega
      simp only [hresult]
      split_ifs <;> omega
  · refine ⟨t, ?_⟩
    rw [if_neg hless]
    exact ⟨rfl, hlast, hresult, hrescnt, hlog, by omega, Or.inr (by omega), hcache, hin⟩

/-- The loop ends with an error or after a number of fetches. It leaves some fetches out only
when there is a result. -/
theorem Fetching.loop (hadm : pgs.Admissible) (hcycle : pgs.seqcycle = false) (fetch : ℕ)
    (h : Fetching pgs base found log k t st) {st' : FetchState} {unfetched : ℕ}
    (hloop : fetchLoop pgs fetch st = .ok (st', unfetched)) :
    ∃ k' t', Fetching pgs base found log k' t' st' ∧ k' + unfetched = k + fetch ∧
      (unfetched ≠ 0 → 0 < found + t') := by
  induction fetch generalizing k t st with
  | zero =>
    obtain ⟨rfl, rfl⟩ : st = st' ∧ 0 = unfetched := by
      simpa [fetchLoop] using hloop
    exact ⟨k, t, h, rfl, fun hne => absurd rfl hne⟩
  | succ fetch ih =>
    obtain ⟨hlo, hhi⟩ := h.inRange (base + k) (by omega)
    rw [fetchLoop, h.next, fetchNext_eq hadm hcycle hlo hhi, ← PgSequence.value_succ] at hloop
    split_ifs at hloop with hin hfound
    · obtain ⟨u, hu⟩ := h.take (h.inRange.succ hin)
      obtain ⟨k', t', hend, hcount, hsome⟩ := ih hu hloop
      exact ⟨k', t', hend, by omega, hsome⟩
    · obtain ⟨rfl, rfl⟩ : st = st' ∧ fetch + 1 = unfetched := by
        simpa using hloop
      refine ⟨k, t, h, rfl, fun _ => ?_⟩
      have := of_decide_eq_true hfound
      have := h.rescnt
      omega

theorem Fetching.loop_complete (hadm : pgs.Admissible) (hcycle : pgs.seqcycle = false) (fetch : ℕ)
    (h : Fetching pgs base found log k t st) (hin : pgs.InRange (base + k + fetch + 1)) :
    ∃ st', fetchLoop pgs fetch st = .ok (st', 0) := by
  induction fetch generalizing k t st with
  | zero => exact ⟨st, rfl⟩
  | succ _ ih =>
    obtain ⟨hlo, hhi⟩ := h.inRange (base + k) (by omega)
    have hnext := hin (base + k + 1) (by omega)
    obtain ⟨u, hu⟩ := h.take (h.inRange.succ hnext)
    obtain ⟨st', hst'⟩ := ih hu (hin.mono (by omega))
    refine ⟨st', ?_⟩
    rw [fetchLoop, h.next, fetchNext_eq hadm hcycle hlo hhi, ← PgSequence.value_succ, if_pos hnext]
    exact hst'

/-- The variables of the loop before its first round. -/
theorem PgSequence.Consumed.fetching (hadm : pgs.Admissible) {c : ℕ}
    (h : pgs.Consumed seq c) (log : ℤ) :
    ∃ base found : ℕ, c + found = base + 1 ∧ (found : ℤ) = (if seq.isCalled then 0 else 1) ∧
      Fetching pgs base found log 0 0
        { next := seq.lastValue, last := seq.lastValue, result := seq.lastValue,
          rescnt := if seq.isCalled then 0 else 1, log := log } := by
  have hcache := hadm.cache_pos
  obtain ⟨hin, ⟨hcalled, hlast, rfl⟩ | ⟨hcalled, m, rfl, hlast⟩⟩ := h
  · have hstart : pgs.InRange 1 := hin.succ (by simp [hadm.min_le_start, hadm.start_le_max])
    refine ⟨0, 1, rfl, by simp [hcalled], ?_⟩
    constructor <;> simp [hcalled, hlast, hstart]
    omega
  · refine ⟨m, 0, rfl, by simp [hcalled], ?_⟩
    constructor <;> simp [hcalled, hlast, hin]
    omega

theorem nextvalFromPage_ok {pageLsn redo : ℕ} {out : NextvalOutcome}
    (h : nextvalFromPage pgs seq pageLsn redo = .ok out) :
    ∃ (fetch log : ℤ) (st : FetchState) (unfetched : ℕ),
      fetch = (if seq.isCalled then pgs.seqcache else pgs.seqcache - 1) +
        (if logsNextval pgs seq pageLsn redo then seqLogVals else 0) ∧
      log = (if logsNextval pgs seq pageLsn redo then fetch else seq.logCnt) ∧
      fetchLoop pgs fetch.toNat
        { next := seq.lastValue, last := seq.lastValue, result := seq.lastValue,
          rescnt := if seq.isCalled then 0 else 1, log := log } = .ok (st, unfetched) ∧
      out =
        { result := st.result
          elm := ⟨true, st.result, st.last, pgs.seqincrement⟩
          seq := ⟨st.last, st.log - unfetched, true⟩
          logged :=
            if logsNextval pgs seq pageLsn redo then some ⟨st.next, 0, true⟩ else none } := by
  unfold nextvalFromPage at h
  dsimp only at h
  split at h <;> cases h
  next hloop => exact ⟨_, _, _, _, rfl, rfl, hloop, rfl⟩

/-- `nextval` for a session without cached values, on a page with `c` values consumed: it
consumes one value and `n` more, and leaves `r - (c + 1 + n)` values that need no WAL. When
it logs, the record has `r` values consumed. Otherwise `r` is as before. -/
theorem nextvalFromPage_consumed (hadm : pgs.Admissible) (hcycle : pgs.seqcycle = false)
    {c pageLsn redo : ℕ} {out : NextvalOutcome}
    (hseq : pgs.Consumed seq c)
    (hreserved : logsNextval pgs seq pageLsn redo = false →
      ∃ r : ℕ, c + seq.logCnt = r ∧ pgs.InRange r)
    (h : nextvalFromPage pgs seq pageLsn redo = .ok out) :
    ∃ n r : ℕ, out.result = pgs.value c ∧
      out.elm = ⟨true, pgs.value c, pgs.value (c + n), pgs.seqincrement⟩ ∧
      pgs.Consumed out.seq (c + 1 + n) ∧ c + 1 + n ≤ r ∧ c + 1 + n + out.seq.logCnt = r ∧
      (logsNextval pgs seq pageLsn redo = true →
        ∃ tuple, out.logged = some tuple ∧ pgs.Consumed tuple r ∧ tuple.logCnt = 0) ∧
      (logsNextval pgs seq pageLsn redo = false → out.logged = none ∧ c + seq.logCnt = r) := by
  have hcache := hadm.cache_pos
  obtain ⟨fetch, log, st, unfetched, hfetch, hlog, hloop, rfl⟩ := nextvalFromPage_ok h
  obtain ⟨base, found, hbase, hfound, hstart⟩ := hseq.fetching hadm log
  obtain ⟨k, t, hend, hcount, hsome⟩ := hstart.loop hadm hcycle _ hloop
  have hle := hend.le
  have hfull := hend.full
  have hfetch_nonneg : 0 ≤ fetch ∧ (found = 0 → 0 < fetch) := by
    unfold seqLogVals at hfetch
    split_ifs at hfetch hfound <;> omega
  -- a value was found: the loop fetches at least one unless it starts with one
  have hpos : 0 < found + t := by
    by_contra hzero
    by_cases hleft : unfetched = 0
    · omega
    · exact hzero (hsome hleft)
  have hresult : st.result = pgs.value c := by
    rw [hend.result]
    congr 1
    split_ifs <;> omega
  have hlast : st.last = pgs.value (c + (found + t - 1)) := by
    rw [hend.last]
    congr 1
    omega
  have hconsumed : pgs.Consumed ⟨st.last, st.log - unfetched, true⟩ (c + 1 + (found + t - 1)) :=
    ⟨hend.inRange.mono (by omega), Or.inr ⟨rfl, c + (found + t - 1), by omega, hlast⟩⟩
  cases hlogs : logsNextval pgs seq pageLsn redo with
  | true =>
    refine ⟨found + t - 1, base + k + 1, hresult, by simp [hresult, hlast], hconsumed, by omega,
      ?_, ?_, by simp⟩
    · have := hend.log
      simp only [hlogs, if_true] at hlog
      push_cast
      omega
    · intro _
      exact ⟨_, rfl, ⟨hend.inRange, Or.inr ⟨rfl, base + k, rfl, hend.next⟩⟩, rfl⟩
  | false =>
    -- all values needed are reserved, so that the loop completes
    obtain ⟨r, hr, hin⟩ := hreserved hlogs
    have hcalled : seq.isCalled = true ∧ pgs.seqcache ≤ seq.logCnt := by
      unfold logsNextval at hlogs
      cases hc : seq.isCalled <;> simp [hc] at hlogs ⊢
      exact hlogs.1
    simp only [hlogs, hcalled.1] at hfetch hlog hfound
    obtain ⟨_, hcomplete⟩ := hstart.loop_complete hadm hcycle fetch.toNat
      (hin.mono (by simp at hfetch hfound; omega))
    obtain rfl : unfetched = 0 := by
      exact congrArg Prod.snd (Except.ok.inj (hloop.symm.trans hcomplete))
    have := hend.log
    simp at hfetch hfound hlog
    refine ⟨found + t - 1, r, hresult, by simp [hresult, hlast], hconsumed, by omega, ?_, by simp,
      ?_⟩
    · dsimp only
      omega
    · exact fun _ => ⟨rfl, hr⟩

/-! ### Overflow -/

/-- The number is one of 64 bits. -/
def Fits (x : ℤ) : Prop := -2 ^ 63 ≤ x ∧ x < 2 ^ 63

/-- No signed operation of a turn overflows: those of the limit checks, of the next number, and of
the counters. -/
structure TurnFits (pgs : PgSequence) (fetch : ℤ) (st : FetchState) : Prop where
  check_max : pgs.seqincrement > 0 → pgs.seqmax ≥ 0 → Fits (pgs.seqmax - pgs.seqincrement)
  check_min : ¬ pgs.seqincrement > 0 → pgs.seqmin < 0 → Fits (pgs.seqmin - pgs.seqincrement)
  check_next : (if pgs.seqincrement > 0 then pgs.seqmax < 0 else pgs.seqmin ≥ 0) →
    Fits (st.next + pgs.seqincrement)
  next : ¬ pgs.LimitReached st.next → Fits (st.next + pgs.seqincrement)
  fetch_pred : Fits (fetch - 1)
  log_pred : st.rescnt < pgs.seqcache → Fits (st.log - 1)
  rescnt_succ : st.rescnt < pgs.seqcache → Fits (st.rescnt + 1)
  unfetched : Fits (st.log - fetch)

/-- The turns of the loop, with what is left of `fetch` and the variables at the start of each. -/
def turns (pgs : PgSequence) : ℕ → FetchState → List (ℕ × FetchState)
  | 0, _ => []
  | fetch + 1, st => (fetch + 1, st) ::
    match fetchNext pgs st.next (st.rescnt > 0) with
    | .value next => turns pgs fetch (st.take pgs.seqcache next)
    | _ => []

/-- What a call does with `int64` numbers does not overflow, and the loop has at most
`cache + SEQ_LOG_VALS` turns. -/
def CallFits (pgs : PgSequence) (elm : SeqTableData) (seq : PgSequenceData) (pageLsn redoptr : ℕ) :
    Prop :=
  if elm.last ≠ elm.cached then Fits (elm.last + elm.increment)
  else
    let loop := turns pgs (fetches pgs seq pageLsn redoptr).toNat
      (loopStart pgs seq pageLsn redoptr)
    Fits (pgs.seqcache - 1) ∧ Fits (fetches pgs seq pageLsn redoptr) ∧
      (∀ t ∈ loop, TurnFits pgs t.1 t.2) ∧ loop.length ≤ pgs.seqcache + seqLogVals

/-- A number that is fetched is within the limits, also when the sequence cycles. -/
theorem fetchNext_mem (h : pgs.Admissible) {x next : ℤ} {found : Bool} (hlo : pgs.seqmin ≤ x)
    (hhi : x ≤ pgs.seqmax) (hnext : fetchNext pgs x found = .value next) :
    pgs.seqmin ≤ next ∧ next ≤ pgs.seqmax := by
  have hlt := h.min_lt_max
  rw [fetchNext_eq_ite h hlo hhi] at hnext
  split_ifs at hnext with hin
  all_goals cases hnext
  · exact hin
  · exact ⟨le_rfl, hlt.le⟩
  · exact ⟨hlt.le, le_rfl⟩

/-- Before each turn: the number is within the limits, and the log count covers the fetches. -/
structure Turning (pgs : PgSequence) (fetch : ℕ) (st : FetchState) : Prop where
  min_le : pgs.seqmin ≤ st.next
  le_max : st.next ≤ pgs.seqmax
  fetch_le : fetch ≤ st.log
  log_fits : st.log < 2 ^ 63
  rescnt_nonneg : 0 ≤ st.rescnt

variable {fetch pageLsn redoptr : ℕ}

/-- The turns are those of the loop: it goes on from each of them to the same end, and there is one
for each number that it fetches and one where it stops. -/
theorem fetchLoop_turns :
    (∀ t ∈ turns pgs fetch st, fetchLoop pgs fetch st = fetchLoop pgs t.1 t.2) ∧
      ∀ last left, fetchLoop pgs fetch st = .ok (last, left) →
        (turns pgs fetch st).length + left = fetch + if left = 0 then 0 else 1 := by
  induction fetch generalizing st with
  | zero => exact ⟨by simp [turns], fun _ _ h => by cases h; rfl⟩
  | succ fetch ih =>
    rw [turns, fetchLoop]
    cases hnext : fetchNext pgs st.next (st.rescnt > 0) with
    | stop => exact ⟨by simp [fetchLoop, hnext], fun _ _ h => by cases h; simp [Nat.add_comm]⟩
    | error => exact ⟨by simp [fetchLoop, hnext], fun _ _ h => by cases h⟩
    | value next =>
      obtain ⟨hsame, hlength⟩ := @ih (st.take pgs.seqcache next)
      refine ⟨List.forall_mem_cons.mpr ⟨by simp [fetchLoop, hnext], hsame⟩, fun last left h => ?_⟩
      have := hlength last left h
      rw [List.length_cons]
      dsimp only
      omega

theorem Turning.take {next : ℤ} (h : Turning pgs (fetch + 1) st) (hmin : pgs.seqmin ≤ next)
    (hmax : next ≤ pgs.seqmax) : Turning pgs fetch (st.take pgs.seqcache next) := by
  obtain ⟨-, -, hfetch, hlog, hrescnt⟩ := h
  push_cast at hfetch
  rw [FetchState.take]
  by_cases hless : st.rescnt < pgs.seqcache
  · rw [if_pos hless]
    exact ⟨hmin, hmax, by dsimp only; omega, by dsimp only; omega, by dsimp only; omega⟩
  · rw [if_neg hless]
    exact ⟨hmin, hmax, by dsimp only; omega, hlog, hrescnt⟩

theorem Turning.fits (hadm : pgs.Admissible) (hcache : pgs.seqcache < 2 ^ 63)
    (h : Turning pgs (fetch + 1) st) : TurnFits pgs (fetch + 1) st := by
  have hlimit := limitReached_iff hadm h.min_le h.le_max
  obtain ⟨-, ⟨hilo, hihi⟩, hmin, hmax, -, -, -, -⟩ := hadm
  obtain ⟨hlo, hhi, hfetch, hlog, hrescnt⟩ := h
  push_cast at hfetch
  constructor <;> unfold Fits
  · omega
  · omega
  · split_ifs <;> omega
  · rw [hlimit]
    omega
  all_goals omega

theorem Turning.run (hadm : pgs.Admissible) (hcache : pgs.seqcache < 2 ^ 63)
    (h : Turning pgs fetch st) :
    (turns pgs fetch st).length ≤ fetch ∧ ∀ t ∈ turns pgs fetch st, TurnFits pgs t.1 t.2 := by
  induction fetch generalizing st with
  | zero => exact ⟨le_rfl, by simp [turns]⟩
  | succ _ ih =>
    have hfirst := h.fits hadm hcache
    rw [turns]
    split
    · rename_i next hnext
      obtain ⟨hlo, hhi⟩ := fetchNext_mem hadm h.min_le h.le_max hnext
      obtain ⟨hlength, hrest⟩ := ih (h.take hlo hhi)
      exact ⟨Nat.succ_le_succ hlength, List.forall_mem_cons.mpr ⟨hfirst, hrest⟩⟩
    · exact ⟨by simp, by simpa using hfirst⟩

theorem fetches_le (hadm : pgs.Admissible) : 0 ≤ fetches pgs seq pageLsn redoptr ∧
    fetches pgs seq pageLsn redoptr ≤ pgs.seqcache + seqLogVals := by
  have hpos := hadm.cache_pos
  rw [fetches, seqLogVals]
  split_ifs <;> omega

theorem turning_loopStart (hadm : pgs.Admissible) (hmin : pgs.seqmin ≤ seq.lastValue)
    (hmax : seq.lastValue ≤ pgs.seqmax) (hlogCnt : seq.logCnt < 2 ^ 63)
    (hfetch : fetches pgs seq pageLsn redoptr < 2 ^ 63) :
    Turning pgs (fetches pgs seq pageLsn redoptr).toNat (loopStart pgs seq pageLsn redoptr) := by
  refine ⟨hmin, hmax, ?_, ?_, ?_⟩
  · rw [Int.toNat_of_nonneg (fetches_le hadm).1, loopStart]
    cases hlogs : logsNextval pgs seq pageLsn redoptr with
    | false =>
      -- without a record the log count covers the fetches
      rw [fetches, hlogs]
      simp only [logsNextval, Bool.or_eq_false_iff, decide_eq_false_iff_not] at hlogs
      simpa using hlogs.1.1
    | true => exact le_rfl
  all_goals
    rw [loopStart]
    dsimp only
    split_ifs <;> omega

theorem fits_next_cached {elm : SeqTableData} {n : ℕ} (hadm : pgs.Admissible)
    (hcached : elm.cached = elm.last + n * elm.increment)
    (helm : ∀ x ∈ [elm.last, elm.cached], pgs.seqmin ≤ x ∧ x ≤ pgs.seqmax)
    (hne : elm.last ≠ elm.cached) : Fits (elm.last + elm.increment) := by
  simp only [List.forall_mem_cons, hcached] at helm
  have hmin := hadm.min_fits
  have hmax := hadm.max_fits
  obtain ⟨m, rfl⟩ := Nat.exists_eq_succ_of_ne_zero (show n ≠ 0 by rintro rfl; simp_all)
  push_cast at helm
  rcases le_or_gt 0 elm.increment with hpos | hneg
  · have := mul_nonneg (Int.natCast_nonneg m) hpos
    constructor <;> linarith [helm.1.1, helm.2.1.2]
  · have := mul_nonneg (Int.natCast_nonneg m) (neg_nonneg.mpr hneg.le)
    constructor <;> linarith [helm.1.2, helm.2.1.1]

/-- **Overflow.** No signed operation of a call overflows, except for the addition of `SEQ_LOG_VALS`
to a large cache, and the loop has at most `cache + SEQ_LOG_VALS` turns. The session has `n` values
left. -/
theorem nextval_fits_iff (hadm : pgs.Admissible) (hcache : pgs.seqcache < 2 ^ 63)
    {elm : SeqTableData} {n : ℕ} (helm : elm.last ≠ elm.cached →
      elm.cached = elm.last + n * elm.increment ∧
        ∀ x ∈ [elm.last, elm.cached], pgs.seqmin ≤ x ∧ x ≤ pgs.seqmax)
    (hmin : pgs.seqmin ≤ seq.lastValue) (hmax : seq.lastValue ≤ pgs.seqmax)
    (hlogCnt : seq.logCnt < 2 ^ 63) :
    CallFits pgs elm seq pageLsn redoptr ↔
      elm.last ≠ elm.cached ∨ fetches pgs seq pageLsn redoptr < 2 ^ 63 := by
  have hpos := hadm.cache_pos
  have hle := @fetches_le pgs seq pageLsn redoptr hadm
  rw [CallFits]
  split_ifs with hne
  · exact iff_of_true (fits_next_cached hadm (helm hne).1 (helm hne).2 hne) (.inl hne)
  · refine ⟨fun h => .inr h.2.1.2, fun h => ?_⟩
    have hfetch := h.resolve_left hne
    obtain ⟨hlength, hturns⟩ := (turning_loopStart hadm hmin hmax hlogCnt hfetch).run hadm hcache
    exact ⟨⟨by omega, by omega⟩, ⟨by omega, hfetch⟩, hturns, by omega⟩

/-- A sequence that cycles, at its end. -/
theorem nextval_fits_called : CallFits ⟨1, 1, 9, 1, 1, true⟩ {} ⟨9, 0, true⟩ 2 1 :=
  (@nextval_fits_iff ⟨1, 1, 9, 1, 1, true⟩ ⟨9, 0, true⟩ 2 1 (by constructor <;> decide) (by decide)
    {} 0 (by simp) (by decide) (by decide) (by decide)).mpr (.inr (by decide))

/-- The largest cache cannot be raised by `SEQ_LOG_VALS`. -/
theorem not_fits_largestCache :
    (⟨1, 1, 9, 1, 2 ^ 63 - 1, false⟩ : PgSequence).Admissible ∧
      ¬CallFits ⟨1, 1, 9, 1, 2 ^ 63 - 1, false⟩ {} ⟨1, 0, false⟩ 2 1 := by
  refine ⟨by constructor <;> decide, fun h => ?_⟩
  have hfits : Fits (fetches ⟨1, 1, 9, 1, 2 ^ 63 - 1, false⟩ ⟨1, 0, false⟩ 2 1) := h.2.1
  exact absurd hfits.2 (by decide)

end Loop

/-!
## No value of a sequence is returned twice

In terms of the numbers of values consumed, `nextval` is an allocator that gives blocks of
consecutive numbers to the sessions, and a crash a restart that skips numbers.
-/

open Function List

variable {pgs : PgSequence}

/-- The cache of a session has the values numbered from `lo` on and below `hi`. -/
def SeqTableData.Caches (pgs : PgSequence) (elm : SeqTableData) (lo hi : ℕ) : Prop :=
  hi ≤ lo ∧ elm.last = elm.cached ∨
    ∃ m n, lo = m + 1 ∧ hi = n + 1 ∧ m < n ∧ elm.last = pgs.value m ∧ elm.cached = pgs.value n ∧
      elm.increment = pgs.seqincrement

theorem SeqTableData.caches_empty : SeqTableData.Caches pgs {} 0 0 := Or.inl ⟨le_rfl, rfl⟩

namespace SeqSystem

variable {ι : Type*}

/-- The records that recovery replays, newest first. -/
def replayed (s : SeqSystem ι) : List (ℕ × PgSequenceData) := s.wal.filter (s.redo < ·.1)

/-- Recovery leaves the tuple of the newest record, if there is one. -/
theorem recovered_eq (s : SeqSystem ι) :
    s.recovered = match s.replayed with
      | [] => (s.disk, s.diskLsn)
      | record :: _ => (record.2, record.1) := by
  change s.replayed.foldr _ _ = _
  cases s.replayed <;> rfl

/-- The system has the state of the allocator. -/
structure Refines (pgs : PgSequence) (s : SeqSystem ι) (a : Allocator ι) : Prop where
  page : pgs.Consumed s.page a.next
  pageLsn_le : s.pageLsn ≤ s.insertLsn
  redo_le : s.redo ≤ s.insertLsn
  wal_le : ∀ record ∈ s.wal, record.1 ≤ s.insertLsn
  logged : ∀ record ∈ s.replayed.head?, record.2.logCnt = 0 ∧
    ∃ r : ℕ, a.next ≤ r ∧ pgs.Consumed record.2 r ∧
      (s.redo < s.pageLsn → s.page.isCalled = true → a.next + s.page.logCnt = r)
  flushed : s.replayed = [] → s.pageLsn ≤ s.redo ∧ s.disk = s.page ∧ s.diskLsn = s.pageLsn
  caches : ∀ i, (s.sessions i).Caches pgs (a.lo i) (a.hi i)
  returned : s.returned = a.issued.map fun p => (p.1, pgs.value p.2)

theorem Refines.create : Refines pgs (create ι pgs) {} where
  page := ⟨fun i hi => absurd hi (Nat.not_lt_zero i), Or.inl ⟨rfl, rfl, rfl⟩⟩
  pageLsn_le := le_rfl
  redo_le := Nat.zero_le _
  wal_le := by simp [SeqSystem.create]
  logged := by
    rintro record hrecord
    obtain rfl : (1, pgs.newTuple) = record := by
      simpa [replayed, SeqSystem.create] using hrecord
    refine ⟨rfl, 0, le_rfl, ⟨fun i hi => absurd hi (Nat.not_lt_zero i), Or.inl ⟨rfl, rfl, rfl⟩⟩, ?_⟩
    intro _ hcalled
    cases hcalled
  flushed := by simp [replayed, SeqSystem.create]
  caches _ := SeqTableData.caches_empty
  returned := rfl

variable {s : SeqSystem ι} {a : Allocator ι}

theorem newest_eq {record newest : ℕ × PgSequenceData} {older : List (ℕ × PgSequenceData)}
    (hreplayed : s.replayed = record :: older) (h : newest ∈ s.replayed.head?) :
    record = newest := by
  simpa [hreplayed] using h

/-- After a crash, the count is that of the newest record. -/
theorem Refines.crash [DecidableEq ι] (h : Refines pgs s a) :
    ∃ r, a.next ≤ r ∧ Refines pgs (s.step pgs .crash) (a.restart r) := by
  have hstep : s.step pgs .crash =
      { s with page := s.recovered.1, pageLsn := s.recovered.2, sessions := fun _ => {} } := rfl
  rw [hstep, recovered_eq]
  cases hreplayed : s.replayed with
  | nil =>
    obtain ⟨hlsn, hdisk, hdiskLsn⟩ := h.flushed hreplayed
    refine ⟨a.next, le_rfl, ?_⟩
    simp only [hdisk, hdiskLsn]
    exact { h with
      flushed := fun _ => ⟨hlsn, rfl, rfl⟩, caches := fun _ => SeqTableData.caches_empty }
  | cons record =>
    obtain ⟨hzero, r, hle, hconsumed, -⟩ := h.logged record (by rw [hreplayed]; rfl)
    have hmem : record ∈ s.wal := by
      have : record ∈ s.replayed := by simp [hreplayed]
      exact (mem_filter.mp this).1
    refine ⟨r, hle, ?_⟩
    refine { h with
      page := hconsumed, pageLsn_le := h.wal_le record hmem, logged := fun newest hnewest => ?_
      flushed := fun hnil => by cases hreplayed.symm.trans hnil
      caches := fun _ => SeqTableData.caches_empty }
    obtain rfl := newest_eq hreplayed hnewest
    refine ⟨hzero, r, le_rfl, hconsumed, fun _ _ => ?_⟩
    simp [hzero, Allocator.restart]

variable [DecidableEq ι]

/-- A checkpoint leaves no records to replay. -/
theorem Refines.checkpoint (h : Refines pgs s a) : Refines pgs (s.step pgs .checkpoint) a := by
  have hnone : (s.step pgs .checkpoint).replayed = [] := by
    refine filter_eq_nil_iff.mpr fun record hrecord => ?_
    exact fun hlt => absurd (of_decide_eq_true hlt) (h.wal_le record hrecord).not_gt
  refine { h with
    redo_le := le_rfl, logged := ?_, flushed := fun _ => ⟨h.pageLsn_le, rfl, rfl⟩ }
  rw [hnone]
  simp

theorem Refines.flush (h : Refines pgs s a) : Refines pgs (s.step pgs .flush) a :=
  { h with flushed := fun hnil => ⟨(h.flushed hnil).1, rfl, rfl⟩ }

theorem Refines.otherWal (h : Refines pgs s a) (bytes : ℕ) :
    Refines pgs (s.step pgs (.otherWal bytes)) a :=
  { h with
    pageLsn_le := h.pageLsn_le.trans (Nat.le_add_right _ _)
    redo_le := h.redo_le.trans (Nat.le_add_right _ _)
    wal_le := fun record hrecord => (h.wal_le record hrecord).trans (Nat.le_add_right _ _) }

theorem caches_update {sessions : ι → SeqTableData} {lo hi : ι → ℕ}
    (h : ∀ i, (sessions i).Caches pgs (lo i) (hi i)) {i : ι} {elm : SeqTableData} {lo' hi' : ℕ}
    (helm : elm.Caches pgs lo' hi') (j : ι) :
    (update sessions i elm j).Caches pgs (update lo i lo' j)
      (update hi i hi' j) := by
  by_cases hj : j = i
  · subst hj
    simpa using helm
  · simpa [hj] using h j

theorem Refines.discard (h : Refines pgs s a) (i : ι) :
    Refines pgs (s.step pgs (.discard i)) (a.discard i) :=
  { h with caches := caches_update h.caches SeqTableData.caches_empty }

/-! ### Calls of `nextval` -/

theorem Refines.nextval_cached (hadm : pgs.Admissible) (h : Refines pgs s a) (hsound : a.Sound)
    {i : ι} (hcached : (s.sessions i).last ≠ (s.sessions i).cached) :
    a.lo i < a.hi i ∧ Refines pgs (s.nextval pgs i) (a.issue i) := by
  obtain ⟨-, heq⟩ | ⟨m, n, hlo, hhi, hmn, hlast, hcache, hinc⟩ := h.caches i
  · exact absurd heq hcached
  have hin : pgs.seqmin ≤ pgs.value (m + 1) ∧ pgs.value (m + 1) ≤ pgs.seqmax := by
    have := hsound.held i
    exact h.page.1 (m + 1) (by omega)
  have hvalue : int64 ((s.sessions i).last + (s.sessions i).increment) = pgs.value (m + 1) := by
    obtain ⟨hmin, hmax⟩ := And.intro hadm.min_fits hadm.max_fits
    rw [hlast, hinc, ← PgSequence.value_succ]
    exact int64_of_fits (by omega) (by omega)
  have hstep : s.nextval pgs i =
      { s with
        sessions := update s.sessions i { s.sessions i with last := pgs.value (m + 1) }
        returned := (i, pgs.value (m + 1)) :: s.returned } := by
    simp [nextval, nextvalInternal, hcached, hvalue]
  refine ⟨by omega, ?_⟩
  rw [hstep]
  refine { h with caches := ?_, returned := ?_ }
  · intro j
    have hrest : SeqTableData.Caches pgs { s.sessions i with last := pgs.value (m + 1) }
        (a.lo i + 1) (a.hi i) := by
      rcases Nat.lt_or_ge (m + 1) n with hlt | hge
      · exact Or.inr ⟨m + 1, n, by omega, hhi, hlt, rfl, hcache, hinc⟩
      · obtain rfl : n = m + 1 := by omega
        exact Or.inl ⟨by omega, hcache.symm⟩
    have := caches_update (i := i) h.caches hrest j
    simpa [Allocator.issue] using this
  · simp [Allocator.issue, h.returned, hlo]

omit [DecidableEq ι] in
/-- When `nextval` writes no record, there is one to replay, and it covers the values reserved
on the page. -/
theorem Refines.reserved (h : Refines pgs s a)
    (hlogs : logsNextval pgs s.page s.pageLsn s.redo = false) :
    ∃ record older, s.replayed = record :: older ∧ record.2.logCnt = 0 ∧
      ∃ r : ℕ, a.next + s.page.logCnt = r ∧ pgs.Consumed record.2 r := by
  obtain ⟨hcalled, hlsn⟩ : s.page.isCalled = true ∧ s.redo < s.pageLsn := by
    simp only [logsNextval, Bool.or_eq_false_iff, Bool.not_eq_false', decide_eq_false_iff_not,
      not_le] at hlogs
    exact ⟨hlogs.1.2, hlogs.2⟩
  cases hreplayed : s.replayed with
  | nil => exact absurd (h.flushed hreplayed).1 hlsn.not_ge
  | cons record older =>
    obtain ⟨hzero, r, -, hconsumed, hr⟩ := h.logged record (by rw [hreplayed]; rfl)
    exact ⟨record, older, rfl, hzero, r, hr hlsn hcalled, hconsumed⟩

/-- A new block of values, whether or not a record is written. -/
theorem Refines.nextval_fromPage (hadm : pgs.Admissible) (hcycle : pgs.seqcycle = false)
    (h : Refines pgs s a) {i : ι} (hcached : (s.sessions i).last = (s.sessions i).cached)
    {out : NextvalOutcome} (hout : nextvalFromPage pgs s.page s.pageLsn s.redo = .ok out) :
    ∃ n, Refines pgs (s.nextval pgs i) (a.refill i n) := by
  obtain ⟨n, r, hresult, helm, hpage, hle, hr, hlogged, hunlogged⟩ :=
    nextvalFromPage_consumed hadm hcycle h.page
      (fun hlogs => by
        obtain ⟨_, _, -, -, r, hr, hconsumed⟩ := h.reserved hlogs
        exact ⟨r, hr, hconsumed.1⟩)
      hout
  have hcaches : out.elm.Caches pgs (a.next + 1) (a.next + 1 + n) := by
    rw [helm]
    rcases n.eq_zero_or_pos with rfl | hpos
    · exact Or.inl ⟨le_rfl, rfl⟩
    · exact Or.inr ⟨a.next, a.next + n, rfl, by omega, by omega, rfl, rfl, rfl⟩
  have hreturned : (i, out.result) :: s.returned =
      (a.refill i n).issued.map fun p => (p.1, pgs.value p.2) := by
    simp [Allocator.refill, hresult, h.returned]
  have hnext : nextvalInternal pgs (s.sessions i) s.page s.pageLsn s.redo = .ok out := by
    simp [nextvalInternal, hcached, hout]
  refine ⟨n, ?_⟩
  cases hlogs : logsNextval pgs s.page s.pageLsn s.redo with
  | true =>
    obtain ⟨tuple, htuple, hconsumed, hzero⟩ := hlogged hlogs
    have hstep : s.nextval pgs i =
        { s with
          page := out.seq
          pageLsn := s.insertLsn + 1
          wal := (s.insertLsn + 1, tuple) :: s.wal
          insertLsn := s.insertLsn + 1
          sessions := update s.sessions i out.elm
          returned := (i, out.result) :: s.returned } := by
      simp [nextval, hnext, htuple]
    have hreplayed : (s.nextval pgs i).replayed = (s.insertLsn + 1, tuple) :: s.replayed := by
      rw [hstep]
      exact filter_cons_of_pos (by simpa using Nat.lt_succ_of_le h.redo_le)
    rw [hstep] at hreplayed ⊢
    refine ⟨hpage, le_rfl, h.redo_le.trans (Nat.le_succ _), ?_, ?_, by simp [hreplayed],
      caches_update h.caches hcaches, hreturned⟩
    · intro record hrecord
      rcases mem_cons.mp hrecord with rfl | hold
      · exact le_rfl
      · exact (h.wal_le record hold).trans (Nat.le_succ _)
    · rw [hreplayed]
      rintro _ ⟨⟩
      exact ⟨hzero, r, hle, hconsumed, fun _ _ => by simpa [Allocator.refill] using hr⟩
  | false =>
    obtain ⟨hnone, hsame⟩ := hunlogged hlogs
    have hstep : s.nextval pgs i =
        { s with
          page := out.seq
          sessions := update s.sessions i out.elm
          returned := (i, out.result) :: s.returned } := by
      simp [nextval, hnext, hnone]
    obtain ⟨_, _, hreplayed, hzero, r', hr', hconsumed⟩ := h.reserved hlogs
    obtain rfl : r = r' := by exact_mod_cast hsame.symm.trans hr'
    rw [hstep]
    refine { h with
      page := hpage, logged := fun newest hnewest => ?_
      flushed := fun hnil => by cases hreplayed.symm.trans hnil
      caches := caches_update h.caches hcaches, returned := hreturned }
    obtain rfl := newest_eq hreplayed hnewest
    exact ⟨hzero, r, hle, hconsumed, fun _ _ => by simpa [Allocator.refill] using hr⟩

/-- A call of `nextval` is one issue of a number, of a cached one or of the first of a new
block. -/
theorem Refines.nextval (hadm : pgs.Admissible) (hcycle : pgs.seqcycle = false)
    (h : Refines pgs s a) (hsound : a.Sound) (i : ι) :
    ∃ a' : Allocator ι, a'.Sound ∧ Refines pgs (s.nextval pgs i) a' := by
  by_cases hcached : (s.sessions i).last = (s.sessions i).cached
  · cases hout : nextvalFromPage pgs s.page s.pageLsn s.redo with
    | error =>
      have hstep : s.nextval pgs i = s := by
        simp [SeqSystem.nextval, nextvalInternal, hcached, hout]
      rw [hstep]
      exact ⟨a, hsound, h⟩
    | ok =>
      obtain ⟨n, hn⟩ := h.nextval_fromPage hadm hcycle hcached hout
      exact ⟨_, hsound.refill i n, hn⟩
  · obtain ⟨hlt, hissue⟩ := h.nextval_cached hadm hsound hcached
    exact ⟨_, hsound.issue hlt, hissue⟩

theorem Refines.step (hadm : pgs.Admissible) (hcycle : pgs.seqcycle = false)
    (h : Refines pgs s a) (hsound : a.Sound) (event : SeqEvent ι) :
    ∃ a' : Allocator ι, a'.Sound ∧ Refines pgs (s.step pgs event) a' := by
  cases event with
  | nextval i => exact h.nextval hadm hcycle hsound i
  | discard i => exact ⟨_, hsound.discard i, h.discard i⟩
  | flush => exact ⟨a, hsound, h.flush⟩
  | checkpoint => exact ⟨a, hsound, h.checkpoint⟩
  | otherWal bytes => exact ⟨a, hsound, h.otherWal bytes⟩
  | crash =>
    obtain ⟨r, hle, hr⟩ := h.crash
    exact ⟨_, hsound.restart hle, hr⟩

/-! ### Whole runs -/

/-- The state after the events. -/
def run (pgs : PgSequence) (s : SeqSystem ι) (events : List (SeqEvent ι)) : SeqSystem ι :=
  events.foldl (SeqSystem.step pgs) s

theorem Refines.run (hadm : pgs.Admissible) (hcycle : pgs.seqcycle = false)
    (events : List (SeqEvent ι)) (h : Refines pgs s a) (hsound : a.Sound) :
    ∃ a' : Allocator ι, a'.Sound ∧ Refines pgs (s.run pgs events) a' := by
  induction events generalizing s a with
  | nil => exact ⟨a, hsound, h⟩
  | cons event _ ih =>
    obtain ⟨_, hsound', h'⟩ := h.step hadm hcycle hsound event
    exact ih h' hsound'

/-- The values returned by `nextval` over a whole run, with its checkpoints and crashes: no
value is returned twice, each is within the limits and a whole number of increments from
the start, and those of one session go in the direction of the increment. -/
theorem returned_distinct_monotone (pgs : PgSequence) (hadm : pgs.Admissible)
    (hcycle : pgs.seqcycle = false) (events : List (SeqEvent ι)) :
    (((create ι pgs).run pgs events).returned.map Prod.snd).Nodup ∧
      (∀ p ∈ ((create ι pgs).run pgs events).returned,
        pgs.seqmin ≤ p.2 ∧ p.2 ≤ pgs.seqmax ∧ pgs.seqincrement ∣ p.2 - pgs.seqstart) ∧
      ((create ι pgs).run pgs events).returned.Pairwise fun newer older =>
        newer.1 = older.1 →
          if pgs.seqincrement > 0 then older.2 < newer.2 else newer.2 < older.2 := by
  obtain ⟨a, hsound, h⟩ := Refines.create.run hadm hcycle events Allocator.Sound.init
  rw [h.returned]
  refine ⟨?_, ?_, ?_⟩
  · rw [map_map]
    have := hsound.nodup.map (PgSequence.value_injective hadm)
    rwa [map_map] at this
  · intro p hp
    obtain ⟨q, hq, rfl⟩ := mem_map.mp hp
    obtain ⟨hlo, hhi⟩ := h.page.1 q.2 (hsound.below q hq)
    refine ⟨hlo, hhi, q.2, ?_⟩
    unfold PgSequence.value
    ring
  · refine pairwise_map.mpr (hsound.increasing.imp ?_)
    intro _ _ hlt hsame
    exact PgSequence.value_lt hadm (hlt hsame)

/-- A descending sequence with two cached values a session. -/
def countdown : PgSequence where
  seqstart := 100
  seqincrement := -3
  seqmax := 100
  seqmin := -1000
  seqcache := 2
  seqcycle := false

/-- Two sessions take turns. A checkpoint and two crashes lose cached and reserved values. -/
def twoCrashes : List (SeqEvent Bool) :=
  [.nextval true, .nextval false, .nextval true, .checkpoint, .nextval false, .nextval true,
    .crash, .nextval true, .nextval true, .crash, .nextval false]

theorem countdown_admissible : countdown.Admissible := by
  constructor <;> decide

theorem returned_distinct_monotone_twoCrashes :
    ((create Bool countdown).run countdown twoCrashes).returned.map Prod.snd =
        [-116, -17, -14, 88, 91, 97, 94, 100] ∧
      (((create Bool countdown).run countdown twoCrashes).returned.map Prod.snd).Nodup :=
  ⟨by decide, (returned_distinct_monotone countdown countdown_admissible rfl twoCrashes).1⟩

/-! ### What a crash skips -/

/-- The newest record has the tuple of the page, or is ahead by what was logged ahead. -/
def Prelogged (s : SeqSystem ι) : Prop :=
  ∀ record ∈ s.replayed.head?, record.2 = s.page ∨
    s.redo < s.pageLsn ∧ s.page.isCalled = true ∧ s.page.logCnt ≤ seqLogVals

omit [DecidableEq ι] in
theorem Refines.logCnt_le (hadm : pgs.Admissible) (hcycle : pgs.seqcycle = false)
    (h : Refines pgs s a) (hp : s.Prelogged) {out : NextvalOutcome}
    (hout : nextvalFromPage pgs s.page s.pageLsn s.redo = .ok out) :
    out.seq.isCalled = true ∧ out.seq.logCnt ≤ seqLogVals := by
  have hlogCnt (hlogs : logsNextval pgs s.page s.pageLsn s.redo = false) :
      s.page.logCnt ≤ seqLogVals := by
    obtain ⟨record, _, hreplayed, hzero, -⟩ := h.reserved hlogs
    obtain heq | ⟨-, -, hle⟩ := hp record (by rw [hreplayed]; rfl)
    · rw [← heq, hzero]
      decide
    · exact hle
  obtain ⟨fetch, log, st, unfetched, hfetch, hlog, hloop, rfl⟩ := nextvalFromPage_ok hout
  obtain ⟨base, found, -, hfound, hstart⟩ := h.page.fetching hadm log
  obtain ⟨k, t, hend, hcount, -⟩ := hstart.loop hadm hcycle _ hloop
  have hend_log := hend.log
  have hfull := hend.full
  refine ⟨rfl, ?_⟩
  cases hlogs : logsNextval pgs s.page s.pageLsn s.redo with
  | true =>
    simp only [hlogs, if_true, seqLogVals] at hfetch hlog ⊢
    split_ifs at hfetch hfound <;> omega
  | false =>
    rw [hlogs, if_neg Bool.false_ne_true] at hlog
    have := hlogCnt hlogs
    dsimp only
    omega

theorem Prelogged.step (hadm : pgs.Admissible) (hcycle : pgs.seqcycle = false)
    (h : Refines pgs s a) (hp : s.Prelogged) (event : SeqEvent ι) :
    (s.step pgs event).Prelogged := by
  cases event with
  | nextval i =>
    rw [SeqSystem.step, SeqSystem.nextval, nextvalInternal]
    split_ifs with hcached
    · exact hp
    cases hout : nextvalFromPage pgs s.page s.pageLsn s.redo with
    | error => exact hp
    | ok out =>
      have hle := h.logCnt_le hadm hcycle hp hout
      cases hlogged : out.logged with simp only [hlogged]
      | none =>
        refine fun record hrecord => .inr ⟨?_, hle⟩
        by_contra hlsn
        have hlogs : logsNextval pgs s.page s.pageLsn s.redo = true := by
          simp [logsNextval, Nat.le_of_not_lt hlsn]
        obtain ⟨_, _, _, _, -, -, -, rfl⟩ := nextvalFromPage_ok hout
        simp [hlogs] at hlogged
      | some => exact fun _ _ => .inr ⟨Nat.lt_succ_of_le h.redo_le, hle⟩
  | discard | flush | otherWal => exact hp
  | checkpoint =>
    intro record hrecord
    obtain ⟨hwal, hlt⟩ := mem_filter.mp (mem_of_mem_head? hrecord)
    exact absurd (h.wal_le record hwal) (Nat.not_le_of_lt (of_decide_eq_true hlt))
  | crash =>
    rw [SeqSystem.step, recovered_eq]
    intro newest hnewest
    obtain ⟨older, hreplayed⟩ := head?_eq_some_iff.mp hnewest
    change s.replayed = _ at hreplayed
    exact .inl (by rw [hreplayed])

theorem Prelogged.run (hadm : pgs.Admissible) (hcycle : pgs.seqcycle = false)
    (events : List (SeqEvent ι)) (h : Refines pgs s a) (hsound : a.Sound) (hp : s.Prelogged) :
    ∃ a, Refines pgs (s.run pgs events) a ∧ (s.run pgs events).Prelogged := by
  induction events generalizing s a with
  | nil => exact ⟨a, h, hp⟩
  | cons event _ ih =>
    obtain ⟨_, hsound', h'⟩ := h.step hadm hcycle hsound event
    exact ih h' hsound' (hp.step hadm hcycle h event)

/-- **Gaps.** A crash skips at most `SEQ_LOG_VALS` values that no session had taken. -/
theorem crash_skips_le (pgs : PgSequence) (hadm : pgs.Admissible) (hcycle : pgs.seqcycle = false)
    (events : List (SeqEvent ι)) :
    ∃ n k : ℕ, k ≤ seqLogVals ∧ pgs.Consumed ((create ι pgs).run pgs events).page n ∧
      pgs.Consumed (((create ι pgs).run pgs events).step pgs .crash).page (n + k) := by
  have hcreate : (create ι pgs).Prelogged := by simp [Prelogged, replayed, create]
  obtain ⟨a, h, hp⟩ := hcreate.run hadm hcycle events .create .init
  rw [SeqSystem.step, recovered_eq]
  cases hreplayed : ((create ι pgs).run pgs events).replayed with
  | nil => exact ⟨a.next, 0, by decide, h.page, (h.flushed hreplayed).2.1 ▸ h.page⟩
  | cons record =>
    have hhead : record ∈ ((create ι pgs).run pgs events).replayed.head? := by rw [hreplayed]; rfl
    obtain heq | ⟨hlsn, hcalled, hle⟩ := hp record hhead
    · exact ⟨a.next, 0, by decide, h.page, show pgs.Consumed record.2 _ from heq ▸ h.page⟩
    · obtain ⟨-, r, hnext, hconsumed, hr⟩ := h.logged record hhead
      have := hr hlsn hcalled
      exact ⟨a.next, r - a.next, by omega, h.page, by rwa [Nat.add_sub_cancel' hnext]⟩

theorem crash_skips_le_twoCrashes :
    ∃ n k : ℕ, k ≤ seqLogVals ∧
      countdown.Consumed ((create Bool countdown).run countdown twoCrashes).page n ∧
      countdown.Consumed
        (((create Bool countdown).run countdown twoCrashes).step countdown .crash).page (n + k) :=
  crash_skips_le countdown countdown_admissible rfl twoCrashes

end SeqSystem

end PgCutover.Sequence
