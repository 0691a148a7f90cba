import PgCutover.Lib.Processes

/-!
# The shared statistics hash

Backends find statistics entries in a partitioned hash in shared memory and keep
references to them in a local table. An entry carries a reference count, with one more
for as long as it is not dropped, a `dropped` flag, and a `generation` that tells how
often it was reused after a drop.

First comes the program: `pgstat_get_entry_ref`, `pgstat_release_entry_ref`,
`pgstat_gc_entry_refs` and `pgstat_drop_entry`, for any number of backends, cut into
steps at every atomic operation on an entry and at every acquisition of a partition
lock. What a backend does next, and which lock it holds meanwhile, is its `Pc`.
-/

namespace PgCutover.PgStat

open Function

/-- `PgStatShared_HashEntry`, less the statistics themselves. -/
structure PgStatSharedHashEntry where
  refcount : ℕ := 0
  generation : ℕ := 0
  dropped : Bool := false
  deriving DecidableEq, Repr

/-- `PgStat_EntryRef`: the address of the entry, and its generation when the reference
was taken. -/
structure PgStatEntryRef where
  sharedEntry : ℕ
  generation : ℕ
  deriving DecidableEq, Repr

/-- Where a backend is. `exclusive` tells the mode in which the partition lock of the key
is held. -/
inductive Pc (κ : Type*)
  | idle
  /-- `pgstat_get_entry_ref`, about to call `dshash_find` with a shared lock. -/
  | find (key : κ) (create : Bool)
  /-- About to call `dshash_find_or_insert`, with an exclusive lock. -/
  | insert (key : κ)
  /-- `pgstat_reinit_entry`, about to increment the reference count. -/
  | reinitCount (key : κ) (entry : ℕ) (exclusive : Bool)
  /-- About to increment the generation. -/
  | reinitGeneration (key : κ) (entry : ℕ) (exclusive : Bool)
  /-- About to clear `dropped`. -/
  | reinitFlag (key : κ) (entry : ℕ) (exclusive : Bool)
  /-- `pgstat_acquire_entry_ref`, about to increment the reference count. -/
  | acquire (key : κ) (entry : ℕ) (exclusive : Bool)
  /-- The lock is released, about to read the generation. -/
  | readGeneration (key : κ) (entry : ℕ)
  /-- `pgstat_release_entry_ref`, about to decrement the reference count. `dropping` if
  it is called by `pgstat_drop_entry`. -/
  | release (key : κ) (ref : PgStatEntryRef) (dropping : Bool)
  /-- It was the last reference, about to look the entry up with an exclusive lock. -/
  | releaseLast (key : κ) (ref : PgStatEntryRef) (dropping : Bool)
  /-- `pgstat_drop_entry`, about to look the entry up with an exclusive lock. -/
  | dropFind (key : κ)
  /-- `pgstat_drop_entry_internal`, about to decrement the reference count. -/
  | dropCount (key : κ) (entry : ℕ)
  /-- Raised `could not find just referenced shared stats entry`. -/
  | error
  deriving DecidableEq, Repr

namespace Pc

variable {κ : Type*}

/-- The key whose partition is locked, and whether exclusively. -/
def lock : Pc κ → Option (κ × Bool)
  | reinitCount key _ exclusive | reinitGeneration key _ exclusive | reinitFlag key _ exclusive
  | acquire key _ exclusive => some (key, exclusive)
  | dropCount key _ => some (key, true)
  | _ => none

/-- The reference whose last release is under way. -/
def lastRelease : Pc κ → Option PgStatEntryRef
  | releaseLast _ ref _ => some ref
  | _ => none

/-- In the middle of `pgstat_reinit_entry` for the entry, after its first increment. -/
def Reinitialising (pc : Pc κ) (entry : ℕ) : Prop :=
  match pc with
  | reinitGeneration _ other _ | reinitFlag _ other _ => other = entry
  | _ => False

instance (pc : Pc κ) (entry : ℕ) : Decidable (pc.Reinitialising entry) := by
  unfold Reinitialising
  split <;> infer_instance

end Pc

/-- A backend: `pgStatEntryRefHash`, and where it is. -/
structure HashProc (κ : Type*) where
  refs : κ → Option PgStatEntryRef := fun _ => none
  pc : Pc κ := .idle

/-- The shared hash and the backends. `heap` is the memory of the entries, `next` the next
unused address. -/
structure SharedHash (ι κ : Type*) where
  heap : ℕ → PgStatSharedHashEntry := fun _ => {}
  next : ℕ := 0
  table : κ → Option ℕ := fun _ => none
  procs : ι → HashProc κ := fun _ => {}

/-- What an idle backend may begin; `advance` continues what it has begun. -/
inductive HashAction (κ : Type*)
  | get (key : κ) (create : Bool)
  | release (key : κ)
  | gc (key : κ)
  | drop (key : κ)
  | advance
  deriving DecidableEq, Repr

namespace SharedHash

variable {ι κ π : Type*} [DecidableEq ι]

/-- Write the state of a backend. -/
def setProc (s : SharedHash ι κ) (b : ι) (p : HashProc κ) : SharedHash ι κ :=
  { s with procs := update s.procs b p }

/-- Write an entry and the state of a backend. -/
def set (s : SharedHash ι κ) (entry : ℕ) (shent : PgStatSharedHashEntry) (b : ι)
    (p : HashProc κ) : SharedHash ι κ :=
  { s with
    heap := update s.heap entry shent
    procs := update s.procs b p }

section Set

variable (s : SharedHash ι κ) (entry : ℕ) (shent : PgStatSharedHashEntry) (b : ι)
  (p : HashProc κ)

@[simp] theorem set_heap_self : (s.set entry shent b p).heap entry = shent :=
  update_self ..

theorem set_heap_of_ne {other : ℕ} (h : other ≠ entry) :
    (s.set entry shent b p).heap other = s.heap other :=
  update_of_ne h ..

@[simp] theorem set_procs_self : (s.set entry shent b p).procs b = p :=
  update_self ..

theorem set_procs_of_ne {other : ι} (h : other ≠ b) :
    (s.set entry shent b p).procs other = s.procs other :=
  update_of_ne h ..

theorem set_heap_eq_setProc : s.set entry (s.heap entry) b p = s.setProc b p := by
  simp [set, setProc]

end Set

variable [DecidableEq κ] (partition : κ → π)

/-- `pgstat_free_entry`: the entry leaves the hash. -/
def remove (s : SharedHash ι κ) (key : κ) (b : ι) (p : HashProc κ) : SharedHash ι κ :=
  { s with
    table := update s.table key none
    procs := update s.procs b p }

/-- `pgstat_init_entry` for an entry inserted just now. -/
def insertEntry (s : SharedHash ι κ) (key : κ) (b : ι) (p : HashProc κ) : SharedHash ι κ where
  heap := update s.heap s.next { refcount := 1, generation := 0, dropped := false }
  next := s.next + 1
  table := update s.table key (some s.next)
  procs := update s.procs b p

/-- Two positions are compatible if their locks are on different partitions or both
shared. -/
def Compatible (lock lock' : Option (κ × Bool)) : Prop :=
  ∀ held ∈ lock, ∀ held' ∈ lock', partition held.1 = partition held'.1 →
    held.2 = false ∧ held'.2 = false

instance [DecidableEq π] (lock lock' : Option (κ × Bool)) :
    Decidable (Compatible partition lock lock') := by
  unfold Compatible
  infer_instance

/-- The partition lock of the key can be had in the given mode. -/
def CanLock (s : SharedHash ι κ) (b : ι) (key : κ) (exclusive : Bool) : Prop :=
  ∀ other ≠ b, Compatible partition (some (key, exclusive)) (s.procs other).pc.lock

instance [Fintype ι] [DecidableEq π] (s : SharedHash ι κ) (b : ι) (key : κ) (exclusive : Bool) :
    Decidable (s.CanLock partition b key exclusive) := by
  unfold CanLock
  infer_instance

/-- `pgstat_get_entry_ref` after the lookup has found an entry. -/
def afterLookup (s : SharedHash ι κ) (key : κ) (entry : ℕ) (create exclusive : Bool) : Pc κ :=
  if (s.heap entry).dropped then
    if create then .reinitCount key entry exclusive else .idle
  else .acquire key entry exclusive

/-- Where `pgstat_release_entry_ref` returns to. -/
def afterRelease (key : κ) (dropping : Bool) : Pc κ := if dropping then .dropFind key else .idle

/-- The next step of a busy backend; `none` if it has to wait for a lock. -/
def advance [Fintype ι] [DecidableEq π] (s : SharedHash ι κ) (b : ι) : Option (SharedHash ι κ) :=
  let p := s.procs b
  match p.pc with
  | .idle | .error => none
  | .find key create =>
    if s.CanLock partition b key false then
      match s.table key with
      | none => some (s.setProc b { p with pc := if create then .insert key else .idle })
      | some entry => some (s.setProc b { p with pc := s.afterLookup key entry create false })
    else none
  | .insert key =>
    if s.CanLock partition b key true then
      match s.table key with
      | none => some (s.insertEntry key b { p with pc := .acquire key s.next true })
      | some entry => some (s.setProc b { p with pc := s.afterLookup key entry true true })
    else none
  | .reinitCount key entry exclusive =>
    let shent := s.heap entry
    some (s.set entry { shent with refcount := shent.refcount + 1 } b
      { p with pc := .reinitGeneration key entry exclusive })
  | .reinitGeneration key entry exclusive =>
    let shent := s.heap entry
    some (s.set entry { shent with generation := (shent.generation + 1) % 2 ^ 32 } b
      { p with pc := .reinitFlag key entry exclusive })
  | .reinitFlag key entry exclusive =>
    let shent := s.heap entry
    some (s.set entry { shent with dropped := false } b
      { p with pc := .acquire key entry exclusive })
  | .acquire key entry _ =>
    let shent := s.heap entry
    some (s.set entry { shent with refcount := shent.refcount + 1 } b
      { p with pc := .readGeneration key entry })
  | .readGeneration key entry =>
    let ref := { sharedEntry := entry, generation := (s.heap entry).generation }
    some (s.setProc b { refs := update p.refs key (some ref), pc := .idle })
  | .release key ref dropping =>
    -- the local table is the backend's own, so it does not matter when the reference leaves it
    let shent := s.heap ref.sharedEntry
    some (s.set ref.sharedEntry { shent with refcount := shent.refcount - 1 } b
      { refs := update p.refs key none
        pc := if shent.refcount = 1 then .releaseLast key ref dropping
          else afterRelease key dropping })
  | .releaseLast key ref dropping =>
    if s.CanLock partition b key true then
      match s.table key with
      | none => some (s.setProc b { p with pc := .error })
      | some _ =>
        if (s.heap ref.sharedEntry).generation = ref.generation then
          some (s.remove key b { p with pc := afterRelease key dropping })
        else some (s.setProc b { p with pc := afterRelease key dropping })
    else none
  | .dropFind key =>
    if s.CanLock partition b key true then
      match s.table key with
      | none => some (s.setProc b { p with pc := .idle })
      | some entry =>
        let shent := s.heap entry
        -- an entry dropped already is an error of the caller, which ends the command
        if shent.dropped then some (s.setProc b { p with pc := .idle })
        else some (s.set entry { shent with dropped := true } b
          { p with pc := .dropCount key entry })
    else none
  | .dropCount key entry =>
    let shent := s.heap entry
    let s := s.set entry { shent with refcount := shent.refcount - 1 } b { p with pc := .idle }
    if shent.refcount = 1 then some (s.remove key b { p with pc := .idle }) else some s

/-- The next step of a backend, if it can be made. -/
def step [Fintype ι] [DecidableEq π] (s : SharedHash ι κ) (b : ι) (action : HashAction κ) :
    Option (SharedHash ι κ) :=
  let p := s.procs b
  match action with
  | .advance => s.advance partition b
  | .get key create =>
    if p.pc = .idle then
      -- a cached reference is returned as it is
      match p.refs key with
      | some _ => some s
      | none => some (s.setProc b { p with pc := .find key create })
    else none
  | .release key =>
    if p.pc = .idle then
      (p.refs key).map fun ref => s.setProc b { p with pc := .release key ref false }
    else none
  | .gc key =>
    if p.pc = .idle then
      match p.refs key with
      | none => some s
      | some ref =>
        let shent := s.heap ref.sharedEntry
        if !shent.dropped && shent.generation = ref.generation then some s
        else some (s.setProc b { p with pc := .release key ref false })
    else none
  | .drop key =>
    if p.pc = .idle then
      match p.refs key with
      | some ref => some (s.setProc b { p with pc := .release key ref true })
      | none => some (s.setProc b { p with pc := .dropFind key })
    else none

end SharedHash

/-!
## Reference counts of the shared statistics hash

The reference count of an entry is meant to be the number of references that backends hold, and one
more while the entry is not dropped.
-/

open Lib

variable {ι κ π : Type*}

/-! ### What backends hold -/

/-- The references of a backend to an entry: in its local table, or acquired just now. -/
def HashProc.owned [DecidableEq κ] (key : κ) (entry : ℕ) (p : HashProc κ) : ℕ :=
  (if (p.refs key).map (·.sharedEntry) = some entry then 1 else 0) +
    (if p.pc = .readGeneration key entry then 1 else 0)

/-- Whether the backend is in the middle of a critical section where the count is ahead of
the `dropped` flag, in `pgstat_reinit_entry` or in `pgstat_drop_entry_internal`. -/
def Pc.midway (entry : ℕ) : Pc κ → ℕ
  | .reinitGeneration _ other _ | .reinitFlag _ other _ | .dropCount _ other =>
      if other = entry then 1 else 0
  | _ => 0

/-- The entry that a position relies on to be in the hash, with its key. -/
def Pc.target : Pc κ → Option (κ × ℕ)
  | .reinitCount key entry _ | .reinitGeneration key entry _ | .reinitFlag key entry _
  | .acquire key entry _ | .readGeneration key entry | .dropCount key entry => some (key, entry)
  | .releaseLast key ref _ => some (key, ref.sharedEntry)
  | _ => none

/-- The entry whose `dropped` flag a position relies on. -/
def Pc.flagged : Pc κ → Option ℕ
  | .reinitGeneration _ entry _ | .reinitFlag _ entry _ | .acquire _ entry _
  | .dropCount _ entry => some entry
  | _ => none

/-- The count that an entry has for not being dropped. -/
def PgStatSharedHashEntry.token (shent : PgStatSharedHashEntry) : ℕ :=
  if shent.dropped then 0 else 1

/-- What a backend adds to the count of an entry. -/
def HashProc.weight [DecidableEq κ] (key : κ) (entry : ℕ) (p : HashProc κ) : ℕ :=
  p.owned key entry + p.pc.midway entry

/-- Two backends do not hold conflicting locks. -/
def HashProc.Excludes (partition : κ → π) (p q : HashProc κ) : Prop :=
  SharedHash.Compatible partition p.pc.lock q.pc.lock

/-- At most one of two backends is midway in a critical section on the entry. -/
def HashProc.NotBothMidway (entry : ℕ) (p q : HashProc κ) : Prop :=
  p.pc.midway entry = 0 ∨ q.pc.midway entry = 0

namespace SharedHash

/-- The number of references that backends hold to an entry. -/
def localRefs [Fintype ι] [DecidableEq κ] (s : SharedHash ι κ) (key : κ) (entry : ℕ) : ℕ :=
  tally (HashProc.owned key entry) s.procs

/-- The number of backends midway in a critical section on the entry. -/
def midway [Fintype ι] (s : SharedHash ι κ) (entry : ℕ) : ℕ :=
  tally (fun p => p.pc.midway entry) s.procs

/-- What holds at the position of a backend. -/
def PcSound (s : SharedHash ι κ) (p : HashProc κ) : Prop :=
  match p.pc with
  | .idle | .dropFind _ => True
  | .find key _ | .insert key => p.refs key = none
  | .reinitCount key entry _ | .readGeneration key entry =>
      p.refs key = none ∧ s.table key = some entry
  | .reinitGeneration key entry _ | .reinitFlag key entry _ =>
      p.refs key = none ∧ s.table key = some entry ∧ (s.heap entry).dropped = true
  | .acquire key entry _ =>
      p.refs key = none ∧ s.table key = some entry ∧ (s.heap entry).dropped = false
  | .release key ref _ => p.refs key = some ref
  | .releaseLast key ref _ => s.table key = some ref.sharedEntry
  | .dropCount key entry => s.table key = some entry ∧ (s.heap entry).dropped = true
  | .error => False

/-- The entry of a last release under way has either no references or is being
reinitialised, unless its generation tells that it was reused. -/
def InFlight (s : SharedHash ι κ) (ref : PgStatEntryRef) : Prop :=
  (s.heap ref.sharedEntry).generation = ref.generation →
    (s.heap ref.sharedEntry).refcount = 0 ∨
      ∃ b key exclusive, (s.procs b).pc = .reinitGeneration key ref.sharedEntry exclusive

/-- The invariant of permitted runs. -/
structure Counted [Fintype ι] [DecidableEq κ] (partition : κ → π) (s : SharedHash ι κ) : Prop where
  fresh : ∀ key entry, s.table key = some entry → entry < s.next
  injective : ∀ key key' entry, s.table key = some entry → s.table key' = some entry → key = key'
  refs : ∀ b key ref, (s.procs b).refs key = some ref → s.table key = some ref.sharedEntry
  sound : ∀ b, s.PcSound (s.procs b)
  locks : ∀ b b', b ≠ b' → (s.procs b).Excludes partition (s.procs b')
  midway : ∀ b b' entry, b ≠ b' → (s.procs b).NotBothMidway entry (s.procs b')
  count : ∀ key entry, s.table key = some entry →
    (s.heap entry).refcount =
      tally (HashProc.weight key entry) s.procs + (s.heap entry).token
  inFlight : ∀ b ref, (s.procs b).pc.lastRelease = some ref → s.InFlight ref

/-- The steps at which the protocol holds: no backend reinitialises an entry that another
one has reinitialised or is reinitialising, the new generation is not that of a last
release under way, and no entry is removed while another backend has a last release of
it under way. -/
def Permitted (s : SharedHash ι κ) (b : ι) : Prop :=
  match (s.procs b).pc with
  | .reinitCount _ entry _ =>
      (s.heap entry).dropped = true ∧ ∀ b', ¬ (s.procs b').pc.Reinitialising entry
  | .reinitGeneration _ entry _ =>
      ∀ b' ref, (s.procs b').pc.lastRelease = some ref → ref.sharedEntry = entry →
        ref.generation ≠ ((s.heap entry).generation + 1) % 2 ^ 32
  | .dropCount _ entry =>
      (s.heap entry).refcount = 1 →
        ∀ b' ref, (s.procs b').pc.lastRelease = some ref → ref.sharedEntry ≠ entry
  | .releaseLast _ ref _ =>
      (s.heap ref.sharedEntry).generation = ref.generation →
        ∀ b' ref', b' ≠ b → (s.procs b').pc.lastRelease = some ref' →
          ref'.sharedEntry ≠ ref.sharedEntry
  | _ => True

/-! ### Frame rules -/

variable {s s' : SharedHash ι κ} {p : HashProc κ} {entry : ℕ}

theorem PcSound.table_target (h : s.PcSound p) {key : κ}
    (htarget : p.pc.target = some (key, entry)) : s.table key = some entry := by
  unfold PcSound at h
  cases hpc : p.pc <;> simp only [hpc, Pc.target, reduceCtorEq, Option.some.injEq, Prod.mk.injEq]
    at h htarget
  all_goals
    obtain ⟨rfl, rfl⟩ := htarget
    tauto

/-- A position is sound as long as its entry stays in the hash and, where it relies on
that, is dropped or not as before. -/
theorem PcSound.congr (h : s.PcSound p)
    (htable : ∀ key entry, p.pc.target = some (key, entry) → s'.table key = s.table key)
    (hdropped : ∀ entry, p.pc.flagged = some entry →
      (s'.heap entry).dropped = (s.heap entry).dropped) :
    s'.PcSound p := by
  unfold PcSound at h ⊢
  cases hpc : p.pc <;> simp only [hpc] at h ⊢
  all_goals first
    | exact h
    | (rw [htable _ _ (by rw [hpc]; rfl)]
       exact h)
    | (rw [htable _ _ (by rw [hpc]; rfl), hdropped _ (by rw [hpc]; rfl)]
       exact h)

theorem Pc.target_of_flagged {pc : Pc κ} (h : pc.flagged = some entry) :
    ∃ key, pc.target = some (key, entry) := by
  cases pc <;> simp_all [Pc.flagged, Pc.target]

/-- A position only notices changes of the entry it relies on. -/
theorem PcSound.of_target (h : s.PcSound p)
    (htarget : ∀ key entry, p.pc.target = some (key, entry) →
      s'.table key = s.table key ∧ s'.heap entry = s.heap entry) : s'.PcSound p := by
  refine h.congr (fun key entry hkey => (htarget key entry hkey).1) fun entry hflagged => ?_
  obtain ⟨key, hkey⟩ := Pc.target_of_flagged hflagged
  rw [(htarget key entry hkey).2]

/-- The counts of an entry do not matter to a position. -/
theorem PcSound.set [DecidableEq ι] {q : HashProc κ} (h : s.PcSound q)
    {shent : PgStatSharedHashEntry} {b : ι}
    (hdropped : q.pc.flagged = some entry → shent.dropped = (s.heap entry).dropped) :
    (s.set entry shent b p).PcSound q := by
  refine h.congr (fun _ _ _ => rfl) fun other hother => ?_
  by_cases heq : other = entry
  · subst heq
    rw [set_heap_self]
    exact hdropped hother
  · rw [set_heap_of_ne _ _ _ _ _ heq]

theorem Compatible.symm {partition : κ → π} {lock lock' : Option (κ × Bool)}
    (h : Compatible partition lock lock') : Compatible partition lock' lock :=
  fun held hheld held' hheld' hsame => (h held' hheld' held hheld hsame.symm).symm

/-- A last release does not notice a step of another backend on another entry. -/
theorem InFlight.congr [DecidableEq ι] {ref : PgStatEntryRef} (h : s.InFlight ref) {b : ι}
    (hheap : s'.heap ref.sharedEntry = s.heap ref.sharedEntry)
    (hprocs : s'.procs = update s.procs b p)
    (hb : ∀ key exclusive, (s.procs b).pc ≠ .reinitGeneration key ref.sharedEntry exclusive) :
    s'.InFlight ref := by
  intro hgen
  rw [hheap] at hgen ⊢
  refine (h hgen).imp_right fun ⟨b', key, exclusive, hpc⟩ => ⟨b', key, exclusive, ?_⟩
  have hne : b' ≠ b := by
    rintro rfl
    exact hb key exclusive hpc
  rw [hprocs, update_of_ne hne, hpc]

section Preservation

variable [DecidableEq κ] [Fintype ι] {partition : κ → π}

variable {b : ι} {key : κ}

theorem Counted.sound_at (h : Counted partition s) {pc : Pc κ}
    (hpc : (s.procs b).pc = pc) :
    s.PcSound ⟨(s.procs b).refs, pc⟩ := by
  subst hpc
  exact h.sound b

/-- No backend has a reference in its local table to an entry that it does not own. -/
theorem Counted.refs_eq_none (h : Counted partition s)
    (hentry : s.table key = some entry) (hown : (s.procs b).owned key entry = 0) :
    (s.procs b).refs key = none := by
  cases href : (s.procs b).refs key with
  | none => rfl
  | some ref =>
    have hsame := h.refs b key ref href
    rw [hentry] at hsame
    simp [HashProc.owned, href, ← hsame] at hown

/-- A backend that relies on an entry owns it, is midway on it, holds its lock or has a
last release of it under way. -/
theorem Counted.target_ne (h : Counted partition s)
    (hentry : s.table key = some entry) (hown : (s.procs b).owned key entry = 0)
    (hmidway : (s.procs b).pc.midway entry = 0)
    (hlock : Compatible partition (some (key, true)) (s.procs b).pc.lock)
    (hlast : ∀ ref, (s.procs b).pc.lastRelease = some ref → ref.sharedEntry ≠ entry)
    (key' : κ) (entry' : ℕ) (htarget : (s.procs b).pc.target = some (key', entry')) :
    key' ≠ key ∧ entry' ≠ entry := by
  have htable := (h.sound b).table_target htarget
  suffices hne : key' ≠ key from
    ⟨hne, fun heq => hne (h.injective key' key entry (heq ▸ htable) hentry)⟩
  rintro rfl
  obtain rfl : entry = entry' := Option.some.inj (hentry.symm.trans htable)
  have hunlocked : ∀ exclusive, (s.procs b).pc.lock ≠ some (key', exclusive) := fun exclusive heq =>
    Bool.noConfusion (hlock _ rfl _ heq rfl).1
  cases hpc : (s.procs b).pc <;>
    simp only [hpc, Pc.target, Option.some.injEq, Prod.mk.injEq] at htarget
  case releaseLast key'' ref dropping => exact hlast ref (by rw [hpc]; rfl) htarget.2
  all_goals obtain ⟨rfl, rfl⟩ := htarget
  case readGeneration => simp [HashProc.owned, hpc] at hown
  case reinitCount exclusive | acquire exclusive => exact hunlocked exclusive (by rw [hpc]; rfl)
  all_goals simp [hpc, Pc.midway] at hmidway

variable [DecidableEq ι]

section

variable (h : Counted partition s)
include h

/-- A step that moves one backend. -/
theorem Counted.of_update {s' : SharedHash ι κ}
    (hprocs : s'.procs = update s.procs b p)
    (hfresh : ∀ key entry, s'.table key = some entry → entry < s'.next)
    (hinjective : ∀ key key' entry, s'.table key = some entry → s'.table key' = some entry →
      key = key')
    (hrefs : ∀ key ref, p.refs key = some ref → s'.table key = some ref.sharedEntry)
    (hsound : s'.PcSound p)
    (hothers : ∀ b' ≠ b, s'.PcSound (s.procs b') ∧
      (∀ key ref, (s.procs b').refs key = some ref → s'.table key = some ref.sharedEntry) ∧
      ∀ ref, (s.procs b').pc.lastRelease = some ref → s'.InFlight ref)
    (hlocks : ∀ b' ≠ b, Compatible partition p.pc.lock (s.procs b').pc.lock)
    (hmidway : ∀ b' ≠ b, ∀ other, p.pc.midway other = 0 ∨ (s.procs b').pc.midway other = 0)
    (hcount : ∀ key entry, s'.table key = some entry →
      (s'.heap entry).refcount + (s.procs b).weight key entry =
        tally (HashProc.weight key entry) s.procs + p.weight key entry + (s'.heap entry).token)
    (hflight : ∀ ref, p.pc.lastRelease = some ref → s'.InFlight ref) : Counted partition s' := by
  refine ⟨hfresh, hinjective, ?_, ?_, ?_, fun b₁ b₂ other => ?_, fun key entry hentry => ?_, ?_⟩ <;>
    rw [hprocs]
  · exact (forall_update_iff s.procs fun _ q => ∀ key ref, q.refs key = some ref →
      s'.table key = some ref.sharedEntry).mpr ⟨hrefs, fun b' hb => (hothers b' hb).2.1⟩
  · exact (forall_update_iff s.procs fun _ q => s'.PcSound q).mpr
      ⟨hsound, fun b' hb => (hothers b' hb).1⟩
  · exact pairwise_update (HashProc.Excludes partition) (fun _ _ => Compatible.symm) h.locks hlocks
  · exact pairwise_update (HashProc.NotBothMidway other) (fun _ _ => Or.symm)
      (fun b₁ b₂ => h.midway b₁ b₂ other) (fun b' hb => hmidway b' hb other) b₁ b₂
  · have htally := tally_update (HashProc.weight key entry) s.procs b p
    have := hcount key entry hentry
    omega
  · exact (forall_update_iff s.procs fun _ q => ∀ ref, q.pc.lastRelease = some ref →
      s'.InFlight ref).mpr ⟨hflight, fun b' hb => (hothers b' hb).2.2⟩

/-- A step that writes one entry and moves one backend. -/
theorem Counted.set {shent : PgStatSharedHashEntry}
    (hrefs : ∀ key ref, p.refs key = some ref → s.table key = some ref.sharedEntry)
    (hsound : (s.set entry shent b p).PcSound p)
    (hothers : ∀ b' ≠ b, (s.set entry shent b p).PcSound (s.procs b'))
    (hlocks : ∀ b' ≠ b, Compatible partition p.pc.lock (s.procs b').pc.lock)
    (hmidway : ∀ b' ≠ b, ∀ other, p.pc.midway other = 0 ∨ (s.procs b').pc.midway other = 0)
    (hcount : ∀ key, s.table key = some entry →
      shent.refcount + (s.procs b).weight key entry + (s.heap entry).token =
        (s.heap entry).refcount + p.weight key entry + shent.token)
    (helse : ∀ key other, s.table key = some other → other ≠ entry →
      p.weight key other = (s.procs b).weight key other)
    (hflight : ∀ b' ref, ((s.set entry shent b p).procs b').pc.lastRelease = some ref →
      (s.set entry shent b p).InFlight ref) :
    Counted partition (s.set entry shent b p) := by
  refine h.of_update rfl h.fresh h.injective hrefs hsound (fun b' hb => ?_) hlocks hmidway ?_ ?_
  · refine ⟨hothers b' hb, h.refs b', fun ref hlast => hflight b' ref ?_⟩
    rwa [set_procs_of_ne _ _ _ _ _ hb]
  · intro key other hother
    have hold := h.count key other hother
    by_cases hentry : other = entry
    · subst hentry
      have := hcount key hother
      rw [set_heap_self]
      omega
    · have := helse key other hother hentry
      rw [set_heap_of_ne _ _ _ _ _ hentry]
      omega
  · intro ref _
    refine hflight b ref ?_
    rwa [set_procs_self]

/-- A step that moves one backend and writes no entry. -/
theorem Counted.setProc
    (hrefs : ∀ key ref, p.refs key = some ref → s.table key = some ref.sharedEntry)
    (hsound : s.PcSound p)
    (hlocks : ∀ b' ≠ b, Compatible partition p.pc.lock (s.procs b').pc.lock)
    (hmidway : ∀ other, p.pc.midway other = 0)
    (hweight : ∀ key other, s.table key = some other →
      p.weight key other = (s.procs b).weight key other)
    (hlast : p.pc.lastRelease = none)
    (hreinit : ∀ key entry exclusive, (s.procs b).pc ≠ .reinitGeneration key entry exclusive) :
    Counted partition (s.setProc b p) := by
  rw [← set_heap_eq_setProc s 0]
  refine h.set hrefs ?_ ?_ hlocks (fun b' _ other => Or.inl (hmidway other)) ?_ ?_ ?_
  · exact hsound.set fun _ => rfl
  · exact fun b' _ => (h.sound b').set fun _ => rfl
  · intro key hkey
    rw [hweight key 0 hkey]
  · exact fun key other hother _ => hweight key other hother
  · intro b' ref hlast'
    by_cases hb : b' = b
    · subst hb
      rw [set_procs_self, hlast] at hlast'
      cases hlast'
    · rw [set_procs_of_ne _ _ _ _ _ hb] at hlast'
      exact (h.inFlight b' ref hlast').congr (by rw [set_heap_eq_setProc]; rfl) rfl
        fun key exclusive => hreinit key _ exclusive

theorem Counted.removeEntry {s' : SharedHash ι κ} {pc : Pc κ} (hentry : s.table key = some entry)
    (hheap : ∀ other ≠ entry, s'.heap other = s.heap other) (hnext : s'.next = s.next)
    (htable : s'.table = update s.table key none)
    (hprocs : s'.procs = update s.procs b { s.procs b with pc := pc })
    (hpc : pc = .idle ∨ pc = .dropFind key)
    (hown : ∀ b', (s.procs b').owned key entry = 0)
    (hmidway : ∀ b' ≠ b, (s.procs b').pc.midway entry = 0)
    (hlock : ∀ b' ≠ b, Compatible partition (some (key, true)) (s.procs b').pc.lock)
    (hlast : ∀ b' ref, b' ≠ b → (s.procs b').pc.lastRelease = some ref →
      ref.sharedEntry ≠ entry)
    (hself : ∀ other ≠ entry, (s.procs b).pc.midway other = 0)
    (hread : ∀ key entry, (s.procs b).pc ≠ .readGeneration key entry) :
    Counted partition s' := by
  have hkept {key' : κ} (hne : key' ≠ key) : s'.table key' = s.table key' := by
    rw [htable, update_of_ne hne]
  have hin {key' : κ} {entry' : ℕ} (hkey' : s'.table key' = some entry') :
      s.table key' = some entry' ∧ entry' ≠ entry := by
    have hne : key' ≠ key := by
      rintro rfl
      simp [htable] at hkey'
    rw [hkept hne] at hkey'
    exact ⟨hkey', fun heq => hne (h.injective _ _ _ (heq ▸ hkey') hentry)⟩
  have hrefs (b' : ι) (key' : κ) (ref : PgStatEntryRef) (href : (s.procs b').refs key' = some ref) :
      s'.table key' = some ref.sharedEntry := by
    have hne : key' ≠ key := by
      rintro rfl
      rw [h.refs_eq_none hentry (hown b')] at href
      cases href
    rw [hkept hne]
    exact h.refs b' key' ref href
  have hmidb : ∀ other, pc.midway other = 0 := by rcases hpc with rfl | rfl <;> intro <;> rfl
  refine h.of_update hprocs ?_ ?_ (hrefs b) ?_ (fun b' hb => ⟨?_, hrefs b', fun ref href => ?_⟩) ?_
    (fun _ _ other => Or.inl (hmidb other)) ?_ ?_
  · intro key' entry' hkey'
    rw [hnext]
    exact h.fresh key' entry' (hin hkey').1
  · exact fun key₁ key₂ entry' h₁ h₂ => h.injective _ _ _ (hin h₁).1 (hin h₂).1
  · rcases hpc with rfl | rfl <;> trivial
  · refine (h.sound b').of_target fun key' entry' htarget => ?_
    have hne := h.target_ne hentry (hown b') (hmidway b' hb) (hlock b' hb)
      (fun ref => hlast b' ref hb) key' entry' htarget
    exact ⟨hkept hne.1, hheap _ hne.2⟩
  · have hne := hlast b' ref hb href
    refine (h.inFlight b' ref href).congr (hheap _ hne) hprocs fun key' exclusive hreinit => ?_
    have := hself _ hne
    simp [hreinit, Pc.midway] at this
  · rcases hpc with rfl | rfl <;> exact fun _ _ => by simp [Compatible, Pc.lock]
  · intro key' entry' hkey'
    obtain ⟨hkey', hne⟩ := hin hkey'
    have hsame : HashProc.weight key' entry' { s.procs b with pc := pc } =
        (s.procs b).weight key' entry' := by
      have hidle : pc ≠ .readGeneration key' entry' := by rcases hpc with rfl | rfl <;> simp
      simp [HashProc.weight, HashProc.owned, hmidb, hself entry' hne, hread, hidle]
    rw [hheap _ hne, h.count key' entry' hkey']
    omega
  · rcases hpc with rfl | rfl <;> exact fun _ => nofun

/-- The insertion of a new entry, with the backend about to acquire it. -/
theorem Counted.insertEntry
    (hpc : (s.procs b).pc = .insert key) (hnone : s.table key = none)
    (hlock : s.CanLock partition b key true) :
    Counted partition
      (s.insertEntry key b { s.procs b with pc := .acquire key s.next true }) := by
  -- nobody relies on the key or on the new address yet
  have htarget : ∀ b' key' entry', (s.procs b').pc.target = some (key', entry') →
      key' ≠ key ∧ entry' ≠ s.next := fun b' key' entry' htarget => by
    have htable := (h.sound b').table_target htarget
    refine ⟨?_, (h.fresh _ _ htable).ne⟩
    rintro rfl
    rw [hnone] at htable
    cases htable
  have hrefs : ∀ b', (s.procs b').refs key = none := fun b' => by
    cases href : (s.procs b').refs key with
    | none => rfl
    | some ref =>
      have := h.refs b' key ref href
      rw [hnone] at this
      cases this
  have hmidway : ∀ b', (s.procs b').pc.midway s.next = 0 := fun b' => by
    have hne := htarget b'
    cases hpc : (s.procs b').pc <;> simp only [hpc, Pc.midway, Pc.target] at hne ⊢
    all_goals exact if_neg (hne _ _ rfl).2
  have hread : ∀ b', (s.procs b').pc ≠ .readGeneration key s.next := fun b' heq =>
    (htarget b' key s.next (by rw [heq]; rfl)).1 rfl
  -- what the lookups after the step give
  have hin : ∀ {key' : κ} {entry' : ℕ},
      update s.table key (some s.next) key' = some entry' →
      key' = key ∧ entry' = s.next ∨ key' ≠ key ∧ s.table key' = some entry' :=
    fun {key' entry'} hkey' => by
      by_cases heq : key' = key
      · subst heq
        rw [update_self] at hkey'
        exact Or.inl ⟨rfl, (Option.some.inj hkey').symm⟩
      · rw [update_of_ne heq] at hkey'
        exact Or.inr ⟨heq, hkey'⟩
  have hheap : ∀ other ≠ s.next, (s.insertEntry key b { s.procs b with
      pc := .acquire key s.next true }).heap other = s.heap other :=
    fun other hne => update_of_ne hne ..
  have hkept (b' : ι) (key' : κ) (ref : PgStatEntryRef) (href : (s.procs b').refs key' = some ref) :
      update s.table key (some s.next) key' = some ref.sharedEntry := by
    have hne : key' ≠ key := by
      rintro rfl
      rw [hrefs b'] at href
      cases href
    rw [update_of_ne hne]
    exact h.refs b' key' ref href
  refine h.of_update rfl ?_ ?_ (hkept b) ⟨hrefs b, update_self .., by simp [SharedHash.insertEntry]⟩
    (fun b' _ => ⟨?_, hkept b', fun ref href => ?_⟩) hlock (fun _ _ _ => Or.inl rfl) ?_ nofun
  · intro _ entry' hkey'
    change entry' < s.next + 1
    rcases hin hkey' with ⟨-, rfl⟩ | ⟨-, hold⟩
    · omega
    · have := h.fresh _ _ hold
      omega
  · intro _ _ _ h₁ h₂
    rcases hin h₁ with ⟨rfl, rfl⟩ | ⟨-, hold₁⟩ <;> rcases hin h₂ with ⟨rfl, hnew⟩ | ⟨-, hold₂⟩
    · rfl
    · exact absurd (h.fresh _ _ hold₂) (lt_irrefl _)
    · exact absurd (h.fresh _ _ hold₁) (hnew ▸ lt_irrefl _)
    · exact h.injective _ _ _ hold₁ hold₂
  · refine (h.sound b').of_target fun key' entry' hkey' => ?_
    have hne := htarget b' key' entry' hkey'
    exact ⟨update_of_ne hne.1 .., hheap _ hne.2⟩
  · have hne : ref.sharedEntry ≠ s.next := by
      cases hpc' : (s.procs b').pc <;> simp only [hpc', Pc.lastRelease, reduceCtorEq] at href
      cases href
      exact (htarget b' _ _ (by rw [hpc']; rfl)).2
    exact (h.inFlight b' ref href).congr (hheap _ hne) rfl (by simp [hpc])
  · intro key' entry' hkey'
    have hsame : HashProc.weight key' entry' { s.procs b with pc := .acquire key s.next true } =
        (s.procs b).weight key' entry' := by
      simp [HashProc.weight, HashProc.owned, Pc.midway, hpc]
    rw [hsame]
    rcases hin hkey' with ⟨rfl, rfl⟩ | ⟨-, hold⟩
    · have hzero : tally (HashProc.weight key' s.next) s.procs = 0 :=
        tally_eq_zero fun b' => by
          simp [HashProc.weight, HashProc.owned, hrefs b', hmidway b', hread b']
      have hone : ((s.insertEntry key' b { s.procs b with
          pc := .acquire key' s.next true }).heap s.next) = { refcount := 1 } :=
        update_self ..
      rw [hone, hzero, Nat.zero_add]
      exact Nat.add_comm ..
    · rw [hheap _ (h.fresh _ _ hold).ne, h.count _ _ hold]
      omega

end

end Preservation

end SharedHash

end PgCutover.PgStat
