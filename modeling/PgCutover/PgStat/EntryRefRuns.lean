import PgCutover.PgStat.EntryRefs

/-!
# The steps on the shared statistics hash

One lemma for each step of the program says that it keeps the invariant `Counted`, and
which of them need the conditions of `Permitted`.
-/

namespace PgCutover.PgStat

open Lib Function

namespace SharedHash

variable {ι κ π : Type*} {partition : κ → π} {s : SharedHash ι κ} {b : ι}

/-- Positions that add nothing to a count. -/
def Weightless (pc : Pc κ) : Prop :=
  (∀ entry, pc.midway entry = 0) ∧ ∀ key entry, pc ≠ .readGeneration key entry

theorem compatible_none (lock : Option (κ × Bool)) : Compatible partition none lock := by
  simp [Compatible]

/-- Where a release returns to adds nothing to a count and holds no lock. -/
theorem afterRelease_eq (key : κ) (dropping : Bool) :
    (afterRelease key dropping : Pc κ) = .idle ∨
      (afterRelease key dropping : Pc κ) = .dropFind key := by
  cases dropping
  · exact Or.inl rfl
  · exact Or.inr rfl

variable {entry : ℕ} {key : κ} {exclusive : Bool} {pc : Pc κ}

theorem midway_eq_zero (h : pc.flagged ≠ some entry) :
    pc.midway entry = 0 := by
  cases pc <;> simp_all [Pc.flagged, Pc.midway]

section Facts

variable [DecidableEq κ] [Fintype ι] (h : Counted partition s)

include h

variable {b' : ι} {ref : PgStatEntryRef}

/-- What a backend adds to a count is part of it. -/
theorem Counted.weight_le (hentry : s.table key = some entry) (b : ι) :
    (s.procs b).weight key entry + (s.heap entry).token ≤ (s.heap entry).refcount := by
  rw [h.count key entry hentry]
  exact Nat.add_le_add_right (weight_le_tally (HashProc.weight key entry) s.procs b) _

/-- While one backend holds the lock of an entry, no other one is dropping it. -/
theorem Counted.not_dropCount {exclusive : Bool} (hentry : s.table key = some entry) (hne : b ≠ b')
    (hlock : (s.procs b).pc.lock = some (key, exclusive)) (key' : κ) :
    (s.procs b').pc ≠ .dropCount key' entry := by
  intro hpc
  have hsound := h.sound b'
  simp only [PcSound, hpc] at hsound
  obtain rfl := h.injective _ _ _ hsound.1 hentry
  have hexcl := h.locks b b' hne _ hlock (key', true) (by rw [hpc]; rfl) rfl
  exact Bool.noConfusion hexcl.2

theorem Counted.dropped_of_reinit {exclusive : Bool}
    (hpc : (s.procs b).pc = .reinitGeneration key entry exclusive) :
    (s.heap entry).dropped = true := by
  have hsound := h.sound_at hpc
  exact hsound.2.2

/-- A last release under way has noticed the reuse of an entry that is not dropped. -/
theorem Counted.generation_ne_of_not_dropped
    (hlast : (s.procs b).pc.lastRelease = some ref) (hentry : s.table key = some ref.sharedEntry)
    (hdropped : (s.heap ref.sharedEntry).dropped = false) :
    (s.heap ref.sharedEntry).generation ≠ ref.generation := by
  intro hgen
  rcases h.inFlight b ref hlast hgen with hzero | ⟨_, _, _, hpc⟩
  · have hle := h.weight_le hentry b
    simp [PgStatSharedHashEntry.token, hdropped, hzero] at hle
  · rw [h.dropped_of_reinit hpc] at hdropped
    cases hdropped

/-- A last release under way has noticed the reuse of an entry on which a backend is midway,
unless that is about to increment the generation. -/
theorem Counted.generation_ne_of_midway
    (hlast : (s.procs b').pc.lastRelease = some ref) (hentry : s.table key = some ref.sharedEntry)
    (hmidway : (s.procs b).pc.midway ref.sharedEntry = 1)
    (hreinit : ∀ key entry exclusive, (s.procs b).pc ≠ .reinitGeneration key entry exclusive) :
    (s.heap ref.sharedEntry).generation ≠ ref.generation := by
  intro hgen
  rcases h.inFlight b' ref hlast hgen with hzero | ⟨b'', _, _, hpc⟩
  · have hle := h.weight_le hentry b
    simp [HashProc.weight, hmidway, hzero] at hle
  · have hne : b ≠ b'' := by
      rintro rfl
      exact hreinit _ _ _ hpc
    rcases h.midway b b'' ref.sharedEntry hne with hzero | hzero
    · omega
    · simp [hpc, Pc.midway] at hzero

/-- Who holds the exclusive lock of an entry is the only one to rely on its flag. -/
theorem Counted.flagged_ne
    (hentry : s.table key = some entry) (hlock : s.CanLock partition b key true)
    (hb : b' ≠ b) : (s.procs b').pc.flagged ≠ some entry := by
  intro hflagged
  obtain ⟨key', htarget⟩ := Pc.target_of_flagged hflagged
  obtain rfl := h.injective _ _ _ ((h.sound b').table_target htarget) hentry
  obtain ⟨exclusive, hheld⟩ : ∃ exclusive, (s.procs b').pc.lock = some (key', exclusive) := by
    cases hpc : (s.procs b').pc <;> simp_all [Pc.flagged, Pc.target, Pc.lock]
  exact Bool.noConfusion (hlock b' hb _ rfl _ hheld rfl).1

theorem Counted.refcount_of_releaseLast
    {dropping : Bool} (hpc : (s.procs b).pc = .releaseLast key ref dropping)
    (hlock : s.CanLock partition b key true)
    (hgen : (s.heap ref.sharedEntry).generation = ref.generation) :
    (s.heap ref.sharedEntry).refcount = 0 := by
  have hentry := h.sound_at hpc
  rcases h.inFlight b ref (by rw [hpc]; rfl) hgen with hzero | ⟨b', key', exclusive, hpc'⟩
  · exact hzero
  · have hb : b' ≠ b := by
      rintro rfl
      rw [hpc] at hpc'
      cases hpc'
    exact absurd (by rw [hpc']; rfl) (h.flagged_ne hentry hlock hb)

theorem Counted.of_refcount_eq_zero
    (hentry : s.table key = some entry) (hzero : (s.heap entry).refcount = 0) :
    (s.heap entry).dropped = true ∧ ∀ b', (s.procs b').weight key entry = 0 := by
  have hcount := h.count key entry hentry
  have htoken : (s.heap entry).token = 0 := by omega
  have htally : tally (HashProc.weight key entry) s.procs = 0 := by omega
  refine ⟨?_, weight_eq_zero_of_tally htally⟩
  by_contra hdropped
  simp [PgStatSharedHashEntry.token, hdropped] at htoken

/-- A backend that keeps its lock. -/
theorem Counted.compatible_of_lock_eq (hlock : pc.lock = (s.procs b).pc.lock) (b' : ι)
    (hb : b' ≠ b) :
    Compatible partition pc.lock (s.procs b').pc.lock :=
  hlock ▸ h.locks b b' hb.symm

end Facts

variable [DecidableEq ι] [DecidableEq κ] [Fintype ι]

section

variable (h : Counted partition s)
include h

/-- A backend goes from one position to another that both add nothing to a count. -/
theorem Counted.goto (hsound : s.PcSound { s.procs b with pc := pc })
    (hlocks : ∀ b' ≠ b, Compatible partition pc.lock (s.procs b').pc.lock)
    (hfrom : Weightless (s.procs b).pc) (hto : Weightless pc := by exact ⟨fun _ => rfl, by simp⟩)
    (hlast : pc.lastRelease = none := by rfl) :
    Counted partition (s.setProc b { s.procs b with pc := pc }) := by
  refine h.setProc (h.refs b) hsound hlocks hto.1 ?_ hlast ?_
  · intro _ _ _
    simp [HashProc.weight, HashProc.owned, hfrom.1, hfrom.2, hto.1, hto.2]
  · intro _ entry _ hpc
    have := hfrom.1 entry
    simp [hpc, Pc.midway] at this

theorem Counted.begin (hidle : (s.procs b).pc = .idle)
    (hsound : s.PcSound { s.procs b with pc := pc })
    (hto : Weightless pc := by exact ⟨fun _ => rfl, by simp⟩) (hlock : pc.lock = none := by rfl)
    (hlast : pc.lastRelease = none := by rfl) :
    Counted partition (s.setProc b { s.procs b with pc := pc }) := by
  refine h.goto hsound (fun b' _ => ?_) ?_ hto hlast
  · rw [hlock]
    exact compatible_none _
  · rw [hidle]
    exact ⟨fun _ => rfl, by simp⟩

section

variable (hb : ∀ key other exclusive, (s.procs b).pc = .reinitGeneration key other exclusive →
    other = entry)
include hb

/-- The last releases under way after a step that writes an entry: only those of this entry,
and of the backend itself, have to be looked at. -/
theorem Counted.inFlight_set {shent : PgStatSharedHashEntry}
    {p : HashProc κ}
    (hself : ∀ ref, p.pc.lastRelease = some ref → (s.set entry shent b p).InFlight ref)
    (hsame : ∀ b' ref, (s.procs b').pc.lastRelease = some ref → ref.sharedEntry = entry →
      (s.set entry shent b p).InFlight ref) (b' : ι) (ref : PgStatEntryRef)
    (hlast : ((s.set entry shent b p).procs b').pc.lastRelease = some ref) :
    (s.set entry shent b p).InFlight ref := by
  by_cases heq : b' = b
  · subst heq
    rw [set_procs_self] at hlast
    exact hself ref hlast
  · rw [set_procs_of_ne _ _ _ _ _ heq] at hlast
    by_cases hentry : ref.sharedEntry = entry
    · exact hsame b' ref hlast hentry
    · exact (h.inFlight b' ref hlast).congr (set_heap_of_ne _ _ _ _ _ hentry) rfl
        fun key exclusive hpc => hentry (hb key _ exclusive hpc)

theorem Counted.inFlight_of_generation_ne {shent : PgStatSharedHashEntry}
    {p : HashProc κ} (hself : p.pc.lastRelease = none)
    (hne : ∀ b' ref, (s.procs b').pc.lastRelease = some ref → ref.sharedEntry = entry →
      shent.generation ≠ ref.generation) (b' : ι) (ref : PgStatEntryRef)
    (hlast : ((s.set entry shent b p).procs b').pc.lastRelease = some ref) :
    (s.set entry shent b p).InFlight ref := by
  refine h.inFlight_set hb (by simp [hself]) (fun b' ref hlast heq hgen => ?_) b' ref hlast
  rw [heq, set_heap_self] at hgen
  exact absurd hgen (hne b' ref hlast heq)

end

theorem Counted.lookup {create : Bool}
    (hrefs : (s.procs b).refs key = none) (hfrom : Weightless (s.procs b).pc)
    (hlock : s.CanLock partition b key exclusive) (hentry : s.table key = some entry) :
    Counted partition
      (s.setProc b { s.procs b with pc := s.afterLookup key entry create exclusive }) := by
  unfold afterLookup
  split_ifs with hdropped hcreate
  · exact h.goto ⟨hrefs, hentry⟩ hlock hfrom
  · exact h.goto trivial (fun _ _ => compatible_none _) hfrom
  · exact h.goto ⟨hrefs, hentry, by simpa using hdropped⟩ hlock hfrom

/-- `pgstat_reinit_entry` increments the count of an entry that is still dropped and that
nobody else reinitialises. -/
theorem Counted.reinitCount
    (hpc : (s.procs b).pc = .reinitCount key entry exclusive) (hpermitted : s.Permitted b) :
    Counted partition (s.set entry { s.heap entry with refcount := (s.heap entry).refcount + 1 } b
      { s.procs b with pc := .reinitGeneration key entry exclusive }) := by
  have hsound := h.sound_at hpc
  simp only [Permitted, hpc] at hpermitted
  obtain ⟨hdropped, hfirst⟩ := hpermitted
  have hlock : (s.procs b).pc.lock = some (key, exclusive) := by rw [hpc]; rfl
  refine h.set (h.refs b) ⟨hsound.1, hsound.2, by simpa using hdropped⟩
    (fun b' _ => (h.sound b').set fun _ => rfl) (h.compatible_of_lock_eq hlock.symm) ?_ ?_ ?_ ?_
  · intro b' hb other
    by_cases heq : other = entry
    · subst heq
      have hreinit := hfirst b'
      have hdrop := h.not_dropCount hsound.2 hb.symm hlock
      cases hpc' : (s.procs b').pc <;> simp_all [Pc.midway, Pc.Reinitialising]
    · exact Or.inl (if_neg (Ne.symm heq))
  · intro _ _
    simp only [HashProc.weight, HashProc.owned, hpc, Pc.midway, PgStatSharedHashEntry.token,
      reduceCtorEq, if_true, if_false]
    omega
  · intro _ _ _ hne
    simp [HashProc.weight, HashProc.owned, hpc, Pc.midway, hne.symm]
  · refine h.inFlight_set (by simp [hpc]) (by simp [Pc.lastRelease]) ?_
    -- the backend itself is about to increment the generation now
    exact fun b' ref _ heq _ => Or.inr ⟨b, key, exclusive, by rw [set_procs_self, heq]⟩

/-- `pgstat_reinit_entry` increments the generation, to one that no last release under way
remembers. -/
theorem Counted.reinitGeneration (hpc : (s.procs b).pc = .reinitGeneration key entry exclusive)
    (hpermitted : s.Permitted b) :
    Counted partition (s.set entry
      { s.heap entry with generation := ((s.heap entry).generation + 1) % 2 ^ 32 } b
      { s.procs b with pc := .reinitFlag key entry exclusive }) := by
  have hsound := h.sound_at hpc
  simp only [Permitted, hpc] at hpermitted
  refine h.set (h.refs b) ⟨hsound.1, hsound.2.1, by simpa using hsound.2.2⟩
    (fun b' _ => (h.sound b').set fun _ => rfl)
    (h.compatible_of_lock_eq (by rw [hpc]; rfl)) ?_ ?_ ?_ ?_
  · intro b' hb other
    have := h.midway b b' other hb.symm
    rwa [HashProc.NotBothMidway, hpc] at this
  · intro _ _
    simp only [HashProc.weight, HashProc.owned, hpc, Pc.midway, PgStatSharedHashEntry.token,
      reduceCtorEq, if_true, if_false]
  · intro _ _ _ _
    simp [HashProc.weight, HashProc.owned, hpc, Pc.midway]
  · refine h.inFlight_of_generation_ne (by simp [hpc]) rfl fun b' ref hlast heq => ?_
    exact (hpermitted b' ref hlast heq).symm

/-- `pgstat_reinit_entry` clears the flag. The increment of the count stands for that
now. -/
theorem Counted.reinitFlag
    (hpc : (s.procs b).pc = .reinitFlag key entry exclusive) :
    Counted partition (s.set entry { s.heap entry with dropped := false } b
      { s.procs b with pc := .acquire key entry exclusive }) := by
  have hsound := h.sound_at hpc
  have hmidway : (s.procs b).pc.midway entry = 1 := by simp [hpc, Pc.midway]
  refine h.set (h.refs b) ⟨hsound.1, hsound.2.1, by simp⟩ ?_
    (h.compatible_of_lock_eq (by rw [hpc]; rfl)) (fun _ _ _ => Or.inl rfl) ?_ ?_ ?_
  · intro b' hb
    refine (h.sound b').set fun hflagged => ?_
    -- another backend that relies on the flag would be midway or would see it cleared
    have hnot : (s.procs b').pc.midway entry = 0 := by
      have := h.midway b b' entry hb.symm
      rw [HashProc.NotBothMidway] at this
      omega
    have hsound' := h.sound b'
    cases hpc' : (s.procs b').pc <;> simp_all [Pc.midway, Pc.flagged, PcSound]
  · intro _ _
    simp only [HashProc.weight, HashProc.owned, hpc, Pc.midway, PgStatSharedHashEntry.token,
      hsound.2.2, reduceCtorEq, if_true, if_false, Bool.false_eq_true]
    omega
  · intro _ _ _ hne
    simp [HashProc.weight, HashProc.owned, hpc, Pc.midway, hne.symm]
  · refine h.inFlight_of_generation_ne (by simp [hpc]) rfl fun b' ref hlast heq => ?_
    subst heq
    exact h.generation_ne_of_midway hlast hsound.2.1 hmidway (by simp [hpc])

/-- `pgstat_acquire_entry_ref` increments the count and releases the lock. -/
theorem Counted.acquire
    (hpc : (s.procs b).pc = .acquire key entry exclusive) :
    Counted partition (s.set entry { s.heap entry with refcount := (s.heap entry).refcount + 1 } b
      { s.procs b with pc := .readGeneration key entry }) := by
  have hsound := h.sound_at hpc
  refine h.set (h.refs b) ⟨hsound.1, hsound.2.1⟩ (fun b' _ => (h.sound b').set fun _ => rfl)
    (fun _ _ => compatible_none _) (fun _ _ _ => Or.inl rfl) ?_ ?_ ?_
  · intro _ hkey'
    obtain rfl := h.injective _ _ _ hkey' hsound.2.1
    simp only [HashProc.weight, HashProc.owned, hpc, Pc.midway, PgStatSharedHashEntry.token,
      reduceCtorEq, if_true, if_false]
    omega
  · intro _ _ _ hne
    simp [HashProc.weight, HashProc.owned, hpc, Pc.midway, hne.symm]
  · refine h.inFlight_of_generation_ne (by simp [hpc]) rfl fun b' ref hlast heq => ?_
    subst heq
    exact h.generation_ne_of_not_dropped hlast hsound.2.1 hsound.2.2

/-- `pgstat_acquire_entry_ref` reads the generation and the reference is complete. -/
theorem Counted.readGeneration {generation : ℕ}
    (hpc : (s.procs b).pc = .readGeneration key entry) :
    Counted partition (s.setProc b
      { refs := update (s.procs b).refs key
          (some { sharedEntry := entry, generation := generation })
        pc := .idle }) := by
  have hsound := h.sound b
  simp only [PcSound, hpc] at hsound
  refine h.setProc ?_ trivial (fun _ _ => compatible_none _) (fun _ => rfl) ?_ rfl (by simp [hpc])
  · intro key' ref href
    by_cases heq : key' = key
    · subst heq
      simp only [update_self, Option.some.injEq] at href
      subst href
      exact hsound.2
    · simp only [update_of_ne heq] at href
      exact h.refs b key' ref href
  · intro key' _ _
    by_cases heq : key' = key
    · subst heq
      simp [HashProc.weight, HashProc.owned, hpc, Pc.midway, hsound.1]
    · simp [HashProc.weight, HashProc.owned, hpc, Pc.midway, heq, Ne.symm heq]

/-- `pgstat_release_entry_ref` decrements the count. If that was the last reference, the
release is under way with a count of zero. -/
theorem Counted.release {ref : PgStatEntryRef}
    {dropping : Bool} (hpc : (s.procs b).pc = .release key ref dropping) :
    Counted partition (s.set ref.sharedEntry
      { s.heap ref.sharedEntry with refcount := (s.heap ref.sharedEntry).refcount - 1 } b
      { refs := update (s.procs b).refs key none
        pc := if (s.heap ref.sharedEntry).refcount = 1 then .releaseLast key ref dropping
          else afterRelease key dropping }) := by
  have href := h.sound b
  simp only [PcSound, hpc] at href
  have hentry := h.refs b key ref href
  have howned : (s.procs b).weight key ref.sharedEntry = 1 := by
    simp [HashProc.weight, HashProc.owned, hpc, href, Pc.midway]
  have hpos := h.weight_le hentry b
  -- where the backend goes on has no lock, no weight and relies on the entry at most
  obtain ⟨pc, hto⟩ : ∃ pc : Pc κ, pc = if (s.heap ref.sharedEntry).refcount = 1 then
      .releaseLast key ref dropping else afterRelease key dropping := ⟨_, rfl⟩
  have hcases : pc = .releaseLast key ref dropping ∧ (s.heap ref.sharedEntry).refcount = 1 ∨
      pc = .idle ∨ pc = .dropFind key := by
    rw [hto]
    split_ifs with hone
    · exact Or.inl ⟨rfl, hone⟩
    · exact Or.inr (afterRelease_eq key dropping)
  rw [← hto]
  have hweightless : Weightless pc := by
    rcases hcases with ⟨rfl, -⟩ | rfl | rfl <;> exact ⟨fun _ => rfl, by simp⟩
  have hzero : ∀ other, (s.procs b).pc.midway other = 0 := fun _ => by rw [hpc]; rfl
  have hread : ∀ key entry, (s.procs b).pc ≠ .readGeneration key entry := by simp [hpc]
  refine h.set ?_ ?_ (fun b' _ => (h.sound b').set fun _ => rfl) ?_
    (fun _ _ other => Or.inl (hweightless.1 other)) ?_ ?_ ?_
  · intro key' ref' href'
    by_cases heq : key' = key
    · subst heq
      simp at href'
    · simp only [update_of_ne heq] at href'
      exact h.refs b key' ref' href'
  · rcases hcases with ⟨rfl, -⟩ | rfl | rfl
    · exact hentry
    · trivial
    · trivial
  · rcases hcases with ⟨rfl, -⟩ | rfl | rfl <;> exact fun _ _ => compatible_none _
  · intro _ hkey'
    obtain rfl := h.injective _ _ _ hkey' hentry
    rw [howned]
    simp only [HashProc.weight, HashProc.owned, update_self, hweightless.1, hweightless.2,
      PgStatSharedHashEntry.token, Option.map_none, reduceCtorEq, if_false]
    omega
  · intro key' _ _ hne
    by_cases heq : key' = key
    · subst heq
      simp [HashProc.weight, HashProc.owned, hweightless.1, hweightless.2, hzero, hread, href,
        hne.symm]
    · simp [HashProc.weight, HashProc.owned, hweightless.1, hweightless.2, hzero, hread, heq]
  · have hlastOk : (s.heap ref.sharedEntry).refcount = 1 →
        (s.set ref.sharedEntry { s.heap ref.sharedEntry with
          refcount := (s.heap ref.sharedEntry).refcount - 1 } b
          { refs := update (s.procs b).refs key none, pc := pc }).InFlight ref := by
      intro hone _
      refine Or.inl ?_
      simp [hone]
    refine h.inFlight_set (by simp [hpc]) ?_ ?_
    · intro _ hlast
      rcases hcases with ⟨rfl, hone⟩ | rfl | rfl
      · cases hlast
        exact hlastOk hone
      · cases hlast
      · cases hlast
    · intro b' ref' hlast heq hgen
      rw [heq, set_heap_self] at hgen ⊢
      -- the count was not zero, so the entry is being reinitialised, by somebody else
      refine Or.inr ?_
      rcases h.inFlight b' ref' hlast (by rw [heq]; exact hgen) with hnone | hreinit
      · rw [heq] at hnone
        omega
      · obtain ⟨b'', key', exclusive, hpc''⟩ := hreinit
        refine ⟨b'', key', exclusive, ?_⟩
        rw [set_procs_of_ne, hpc'', heq]
        rintro rfl
        rw [hpc] at hpc''
        cases hpc''

theorem Counted.releaseLast {ref : PgStatEntryRef}
    {dropping : Bool} (hpc : (s.procs b).pc = .releaseLast key ref dropping)
    (hlock : s.CanLock partition b key true)
    (hgen : (s.heap ref.sharedEntry).generation = ref.generation) (hpermitted : s.Permitted b) :
    Counted partition (s.remove key b { s.procs b with pc := afterRelease key dropping }) := by
  have hentry := h.sound_at hpc
  simp only [Permitted, hpc] at hpermitted
  have hnone := (h.of_refcount_eq_zero hentry (h.refcount_of_releaseLast hpc hlock hgen)).2
  refine h.removeEntry hentry (fun _ _ => rfl) rfl rfl rfl (afterRelease_eq key dropping)
    (fun b' => Nat.eq_zero_of_add_eq_zero_right (hnone b'))
    (fun b' _ => Nat.eq_zero_of_add_eq_zero_left (hnone b')) hlock (hpermitted hgen) ?_ ?_
  · exact fun _ _ => by rw [hpc]; rfl
  · simp [hpc]

/-- `pgstat_drop_entry_internal` sets the flag. The count is still to follow. -/
theorem Counted.dropFind
    (hpc : (s.procs b).pc = .dropFind key) (hlock : s.CanLock partition b key true)
    (hentry : s.table key = some entry) (hdropped : (s.heap entry).dropped = false) :
    Counted partition (s.set entry { s.heap entry with dropped := true } b
      { s.procs b with pc := .dropCount key entry }) := by
  refine h.set (h.refs b) ⟨hentry, by simp⟩ ?_ hlock ?_ ?_ ?_ ?_
  · exact fun b' hb => (h.sound b').set fun hflagged =>
      absurd hflagged (h.flagged_ne hentry hlock hb)
  · intro _ hb other
    by_cases heq : other = entry
    · subst heq
      exact Or.inr (midway_eq_zero (h.flagged_ne hentry hlock hb))
    · exact Or.inl (if_neg (Ne.symm heq))
  · intro _ _
    simp only [HashProc.weight, HashProc.owned, hpc, Pc.midway, PgStatSharedHashEntry.token,
      hdropped, reduceCtorEq, if_true, if_false, Bool.false_eq_true]
    omega
  · intro _ _ _ hne
    simp [HashProc.weight, HashProc.owned, hpc, Pc.midway, hne.symm]
  · refine h.inFlight_of_generation_ne (by simp [hpc]) rfl fun b' ref hlast heq => ?_
    subst heq
    exact h.generation_ne_of_not_dropped hlast hentry hdropped

/-- `pgstat_drop_entry_internal` decrements the count of an entry that others refer to. -/
theorem Counted.dropCount (hpc : (s.procs b).pc = .dropCount key entry) :
    Counted partition (s.set entry { s.heap entry with refcount := (s.heap entry).refcount - 1 } b
      { s.procs b with pc := .idle }) := by
  have hsound := h.sound_at hpc
  have hmidway : (s.procs b).pc.midway entry = 1 := by simp [hpc, Pc.midway]
  have hpos := h.weight_le hsound.1 b
  refine h.set (h.refs b) trivial (fun b' _ => (h.sound b').set fun _ => rfl)
    (fun _ _ => compatible_none _) (fun _ _ _ => Or.inl rfl) ?_ ?_ ?_
  · intro _ hkey'
    simp only [HashProc.weight, HashProc.owned, hpc, Pc.midway, PgStatSharedHashEntry.token,
      reduceCtorEq, if_true, if_false] at hpos ⊢
    omega
  · intro _ _ _ hne
    simp [HashProc.weight, HashProc.owned, hpc, Pc.midway, hne.symm]
  · refine h.inFlight_of_generation_ne (by simp [hpc]) rfl fun b' ref hlast heq => ?_
    subst heq
    exact h.generation_ne_of_midway hlast hsound.1 hmidway (by simp [hpc])

/-- When a drop takes the last count, no backend has anything on the entry but the one that
drops it. -/
theorem Counted.of_dropCount_last
    (hpc : (s.procs b).pc = .dropCount key entry) (hone : (s.heap entry).refcount = 1) :
    (s.procs b).owned key entry = 0 ∧ ∀ b' ≠ b, (s.procs b').weight key entry = 0 := by
  have hsound := h.sound_at hpc
  have hmidway : (s.procs b).pc.midway entry = 1 := by simp [hpc, Pc.midway]
  have hcount := h.count key entry hsound.1
  have hself := weight_le_tally (HashProc.weight key entry) s.procs b
  simp only [HashProc.weight] at hself
  refine ⟨by omega, fun b' hb => ?_⟩
  have hboth := weight_add_weight_le_tally (HashProc.weight key entry) s.procs hb
  have hweight : (s.procs b).weight key entry ≥ 1 := by simp [HashProc.weight, hmidway]
  omega

/-- `pgstat_drop_entry_internal` frees an entry that nobody refers to. -/
theorem Counted.dropCount_last
    {shent : PgStatSharedHashEntry} (hpc : (s.procs b).pc = .dropCount key entry)
    (hone : (s.heap entry).refcount = 1) (hpermitted : s.Permitted b) :
    Counted partition ((s.set entry shent b { s.procs b with pc := .idle }).remove key b
      { s.procs b with pc := .idle }) := by
  have hsound := h.sound_at hpc
  simp only [Permitted, hpc] at hpermitted
  obtain ⟨hown, hothers⟩ := h.of_dropCount_last hpc hone
  refine h.removeEntry (b := b) hsound.1 ?_ rfl rfl ?_ (Or.inl rfl) ?_ ?_ ?_
    (fun b' ref _ => hpermitted hone b' ref) ?_ (by simp [hpc])
  · exact fun other hne => update_of_ne hne ..
  · simp [SharedHash.remove, SharedHash.set]
  · intro b'
    by_cases hb : b' = b
    · rw [hb]
      exact hown
    · exact Nat.eq_zero_of_add_eq_zero_right (hothers b' hb)
  · exact fun b' hb => Nat.eq_zero_of_add_eq_zero_left (hothers b' hb)
  · intro b' hb
    have := h.locks b b' hb.symm
    rwa [HashProc.Excludes, hpc] at this
  · exact fun other hne => by simp [hpc, Pc.midway, hne.symm]

end

end SharedHash

/-!
## Runs on the shared statistics hash

Every run of permitted steps keeps the invariant `Counted`, whatever the interleaving of the
backends is, and `refcounts_of_permitted` reads the properties of the protocol off it.
-/

namespace SharedHash

variable {ι κ π : Type*} {partition : κ → π} {s : SharedHash ι κ} {b : ι}
variable [DecidableEq ι] [DecidableEq κ] [Fintype ι] [DecidableEq π]

/-- A guarded step has met its guard. -/
theorem of_ite_none_eq_some {σ : Type*} {guard : Prop} [Decidable guard] {next : Option σ} {s' : σ}
    (h : (if guard then next else none) = some s') : guard ∧ next = some s' := by
  split_ifs at h with hguard
  exact ⟨hguard, h⟩

variable {s' : SharedHash ι κ}

/-- What a step can do to the hash: nothing, insert a new entry, or remove one at the last
count of a drop or at the last release of an entry that was not reused. -/
def TableStep (partition : κ → π) (s : SharedHash ι κ) (b : ι) (s' : SharedHash ι κ) : Prop :=
  s'.table = s.table ∨
  (∃ key, s.table key = none ∧ s'.table = update s.table key (some s.next)) ∨
  ∃ key, s'.table = update s.table key none ∧
    ((∃ entry, (s.procs b).pc = .dropCount key entry ∧ (s.heap entry).refcount = 1) ∨
      ∃ ref dropping, (s.procs b).pc = .releaseLast key ref dropping ∧
        s.CanLock partition b key true ∧
        (s.heap ref.sharedEntry).generation = ref.generation)

/-- Every permitted step of a busy backend keeps the invariant. -/
theorem Counted.advance (h : Counted partition s)
    (hpermitted : s.Permitted b) (hstep : s.advance partition b = some s') :
    Counted partition s' ∧ TableStep partition s b s' := by
  have hsound := h.sound b
  unfold SharedHash.advance at hstep
  cases hpc : (s.procs b).pc with simp only [hpc] at hstep
  | idle | error => cases hstep
  | find key =>
    have hfrom : Weightless (s.procs b).pc := by rw [hpc]; exact ⟨fun _ => rfl, by simp⟩
    simp only [PcSound, hpc] at hsound
    obtain ⟨hlock, hstep⟩ := of_ite_none_eq_some hstep
    cases hentry : s.table key with
    | none =>
      simp only [hentry, Option.some.injEq] at hstep
      subst hstep
      refine ⟨?_, Or.inl rfl⟩
      split_ifs
      · exact h.goto hsound (fun _ _ => compatible_none _) hfrom
      · exact h.goto trivial (fun _ _ => compatible_none _) hfrom
    | some =>
      simp only [hentry, Option.some.injEq] at hstep
      subst hstep
      exact ⟨h.lookup hsound hfrom hlock hentry, Or.inl rfl⟩
  | insert key =>
    have hfrom : Weightless (s.procs b).pc := by rw [hpc]; exact ⟨fun _ => rfl, by simp⟩
    simp only [PcSound, hpc] at hsound
    obtain ⟨hlock, hstep⟩ := of_ite_none_eq_some hstep
    cases hentry : s.table key with simp only [hentry, Option.some.injEq] at hstep
    | none =>
      subst hstep
      exact ⟨h.insertEntry hpc hentry hlock, Or.inr (Or.inl ⟨key, hentry, rfl⟩)⟩
    | some =>
      subst hstep
      exact ⟨h.lookup hsound hfrom hlock hentry, Or.inl rfl⟩
  | reinitCount =>
    cases hstep
    exact ⟨h.reinitCount hpc hpermitted, Or.inl rfl⟩
  | reinitGeneration =>
    cases hstep
    exact ⟨h.reinitGeneration hpc hpermitted, Or.inl rfl⟩
  | reinitFlag =>
    cases hstep
    exact ⟨h.reinitFlag hpc, Or.inl rfl⟩
  | acquire =>
    cases hstep
    exact ⟨h.acquire hpc, Or.inl rfl⟩
  | readGeneration =>
    cases hstep
    exact ⟨h.readGeneration hpc, Or.inl rfl⟩
  | release =>
    cases hstep
    exact ⟨h.release hpc, Or.inl rfl⟩
  | releaseLast key ref dropping =>
    have hfrom : Weightless (s.procs b).pc := by rw [hpc]; exact ⟨fun _ => rfl, by simp⟩
    simp only [PcSound, hpc] at hsound
    simp only [hsound] at hstep
    obtain ⟨hlock, hstep⟩ := of_ite_none_eq_some hstep
    split_ifs at hstep with hgen
    all_goals cases hstep
    · exact ⟨h.releaseLast hpc hlock hgen hpermitted,
        Or.inr (Or.inr ⟨key, rfl, Or.inr ⟨ref, dropping, hpc, hlock, hgen⟩⟩)⟩
    · refine ⟨?_, Or.inl rfl⟩
      rcases afterRelease_eq key dropping with hto | hto <;> rw [hto] <;>
        exact h.goto trivial (fun _ _ => compatible_none _) hfrom
  | dropFind key =>
    have hfrom : Weightless (s.procs b).pc := by rw [hpc]; exact ⟨fun _ => rfl, by simp⟩
    have hback : Counted partition (s.setProc b { s.procs b with pc := .idle }) :=
      h.goto trivial (fun _ _ => compatible_none _) hfrom
    obtain ⟨hlock, hstep⟩ := of_ite_none_eq_some hstep
    cases hentry : s.table key with
    | none =>
      simp only [hentry, Option.some.injEq] at hstep
      exact hstep ▸ ⟨hback, Or.inl rfl⟩
    | some =>
      simp only [hentry] at hstep
      split_ifs at hstep with hdropped
      all_goals cases hstep
      · exact ⟨hback, Or.inl rfl⟩
      · exact ⟨h.dropFind hpc hlock hentry (by simpa using hdropped), Or.inl rfl⟩
  | dropCount key entry =>
    split_ifs at hstep with hone
    all_goals cases hstep
    · exact ⟨h.dropCount_last hpc hone hpermitted,
        Or.inr (Or.inr ⟨key, rfl, Or.inl ⟨entry, hpc, hone⟩⟩)⟩
    · exact ⟨h.dropCount hpc, Or.inl rfl⟩

theorem Counted.step (h : Counted partition s) {action : HashAction κ}
    (hpermitted : s.Permitted b) (hstep : s.step partition b action = some s') :
    Counted partition s' ∧ TableStep partition s b s' := by
  cases action with
  | advance => exact h.advance hpermitted hstep
  | get key =>
    obtain ⟨hidle, hstep⟩ := of_ite_none_eq_some hstep
    cases href : (s.procs b).refs key with
    | some =>
      simp only [href, Option.some.injEq] at hstep
      exact hstep ▸ ⟨h, Or.inl rfl⟩
    | none =>
      simp only [href, Option.some.injEq] at hstep
      exact hstep ▸ ⟨h.begin hidle href, Or.inl rfl⟩
  | release =>
    obtain ⟨hidle, hstep⟩ := of_ite_none_eq_some hstep
    obtain ⟨_, href, rfl⟩ := Option.map_eq_some_iff.mp hstep
    exact ⟨h.begin hidle href, Or.inl rfl⟩
  | gc key =>
    obtain ⟨hidle, hstep⟩ := of_ite_none_eq_some hstep
    cases href : (s.procs b).refs key with
    | none =>
      simp only [href, Option.some.injEq] at hstep
      exact hstep ▸ ⟨h, Or.inl rfl⟩
    | some =>
      simp only [href] at hstep
      split_ifs at hstep
      all_goals cases hstep
      · exact ⟨h, Or.inl rfl⟩
      · exact ⟨h.begin hidle href, Or.inl rfl⟩
  | drop key =>
    obtain ⟨hidle, hstep⟩ := of_ite_none_eq_some hstep
    cases href : (s.procs b).refs key with simp only [href, Option.some.injEq] at hstep
    | some =>
      exact hstep ▸ ⟨h.begin hidle href, Or.inl rfl⟩
    | none =>
      exact hstep ▸ ⟨h.begin hidle trivial, Or.inl rfl⟩

/-- The states that runs of permitted steps lead to. -/
inductive Orderly (partition : κ → π) : SharedHash ι κ → Prop
  | init : Orderly partition {}
  | step {s s' : SharedHash ι κ} {b : ι} {action : HashAction κ} (h : Orderly partition s)
      (hpermitted : s.Permitted b) (hstep : s.step partition b action = some s') :
      Orderly partition s'

omit [DecidableEq ι] [DecidableEq π] in
theorem counted_init : Counted partition ({} : SharedHash ι κ) where
  fresh := by simp
  injective := by simp
  refs := by simp
  sound _ := trivial
  locks _ _ _ := compatible_none _
  midway _ _ _ _ := Or.inl rfl
  count := by simp
  inFlight := by simp [Pc.lastRelease]

theorem Orderly.counted (h : Orderly partition s) : Counted partition s := by
  induction h with
  | init => exact counted_init
  | step _ hpermitted hstep ih => exact (ih.step hpermitted hstep).1

/-- A backend refers to an entry: it has a reference to it, or is at work on it. -/
def References (s : SharedHash ι κ) (b : ι) (entry : ℕ) : Prop :=
  (∃ key ref, (s.procs b).refs key = some ref ∧ ref.sharedEntry = entry) ∨
    ∃ key, (s.procs b).pc.target = some (key, entry)

omit [DecidableEq ι] [DecidableEq π] in
/-- What a backend refers to is in the hash. -/
theorem Counted.table_of_references (h : Counted partition s) {b : ι} {entry : ℕ}
    (href : s.References b entry) : ∃ key, s.table key = some entry := by
  rcases href with ⟨key, ref, href, rfl⟩ | ⟨key, htarget⟩
  · exact ⟨key, h.refs b key ref href⟩
  · exact ⟨key, (h.sound b).table_target htarget⟩

/-- **Reference counts.** In every run of permitted steps, by any number of backends: the
count of an entry is the number of references to it, with one more if it is not dropped
and for a backend that is midway between the count and the flag; an entry leaves the hash
only when it is dropped and no backend refers to it any more; and the last release of an
entry finds it. -/
theorem refcounts_of_permitted (partition : κ → π) (s : SharedHash ι κ)
    (h : Orderly partition s) :
    (∀ key entry, s.table key = some entry →
      (s.heap entry).refcount =
        s.localRefs key entry + (if (s.heap entry).dropped then 0 else 1) + s.midway entry) ∧
    (∀ b action s' key entry, s.Permitted b → s.step partition b action = some s' →
      s.table key = some entry → s'.table key ≠ some entry →
        (s.heap entry).dropped = true ∧ ∀ b', ¬ s'.References b' entry) ∧
    ∀ b, (s.procs b).pc ≠ .error := by
  have hcounted := h.counted
  refine ⟨?_, ?_, ?_⟩
  · intro key entry hentry
    rw [hcounted.count key entry hentry]
    have hsplit : tally (HashProc.weight key entry) s.procs =
        s.localRefs key entry + s.midway entry := Finset.sum_add_distrib
    rw [PgStatSharedHashEntry.token]
    omega
  · intro b _ _ key _ hpermitted hstep hentry hgone
    obtain ⟨hafter, htable⟩ := hcounted.step hpermitted hstep
    rcases htable with hsame | ⟨key', hnone, hinsert⟩ | ⟨key', hremove, hwhy⟩
    · rw [hsame] at hgone
      exact absurd hentry hgone
    · refine absurd ?_ hgone
      rw [hinsert, update_of_ne, hentry]
      rintro rfl
      rw [hnone] at hentry
      cases hentry
    · obtain rfl : key = key' := by
        by_contra hne
        rw [hremove, update_of_ne hne] at hgone
        exact hgone hentry
      refine ⟨?_, fun b' href => ?_⟩
      · have hsound := hcounted.sound b
        rcases hwhy with ⟨_, hpc, -⟩ | ⟨_, _, hpc, hlock, hgen⟩
        all_goals simp only [PcSound, hpc, hentry, Option.some.injEq] at hsound
        · obtain ⟨rfl, hdropped⟩ := hsound
          exact hdropped
        · subst hsound
          exact (hcounted.of_refcount_eq_zero hentry
            (hcounted.refcount_of_releaseLast hpc hlock hgen)).1
      · obtain ⟨key', hkey'⟩ := hafter.table_of_references href
        rw [hremove] at hkey'
        by_cases heq : key' = key
        · rw [heq, update_self] at hkey'
          cases hkey'
        · rw [update_of_ne heq] at hkey'
          exact heq (hcounted.injective _ _ _ hkey' hentry)
  · intro b hpc
    have hsound := hcounted.sound b
    simp only [PcSound, hpc] at hsound

/-- Run a schedule; `none` if a backend is scheduled that has to wait. -/
def run (partition : κ → π) (s : SharedHash ι κ) :
    List (ι × HashAction κ) → Option (SharedHash ι κ)
  | [] => some s
  | (b, action) :: schedule => (s.step partition b action).bind fun s' => s'.run partition schedule

/-- Every step of a schedule is permitted. -/
def PermittedRun (partition : κ → π) (s : SharedHash ι κ) : List (ι × HashAction κ) → Prop
  | [] => True
  | (b, action) :: schedule =>
      s.Permitted b ∧ ∀ s' ∈ s.step partition b action, s'.PermittedRun partition schedule

theorem Orderly.run (h : Orderly partition s) {schedule : List (ι × HashAction κ)}
    (hpermitted : s.PermittedRun partition schedule)
    (hrun : s.run partition schedule = some s') : Orderly partition s' := by
  induction schedule generalizing s with
  | nil =>
    cases hrun
    exact h
  | cons _ _ ih =>
    obtain ⟨next, hstep, hrun⟩ := Option.bind_eq_some_iff.mp hrun
    exact ih (h.step hpermitted.1 hstep) (hpermitted.2 next hstep) hrun

/-- Let a backend take some steps. -/
def advances (b : ι) (n : ℕ) : List (ι × HashAction κ) := List.replicate n (b, .advance)

/-- A backend creates an entry and has a reference to it. -/
def firstReference : List (Fin 3 × HashAction Unit) :=
  (0, .get () true) :: advances 0 4

/-- A second backend drops the entry while the first one has its reference. -/
def dropReferenced : List (Fin 3 × HashAction Unit) :=
  firstReference ++ (1, .drop ()) :: advances 1 2

theorem dropReferenced_permitted :
    PermittedRun id ({} : SharedHash (Fin 3) Unit) dropReferenced := by
  -- the count is two at the drop
  repeat' first
    | exact trivial
    | refine ⟨trivial, ?_⟩
    | refine ⟨fun hone => absurd hone (by decide), ?_⟩
    | rintro _ ⟨⟩

theorem refcounts_of_permitted_dropReferenced :
    ∃ s : SharedHash (Fin 3) Unit, run id {} dropReferenced = some s ∧
      (s.heap 0).dropped = true ∧ s.localRefs () 0 = 1 ∧
      (s.heap 0).refcount = s.localRefs () 0 + 0 + s.midway 0 :=
  ⟨_, rfl, rfl, rfl,
    (refcounts_of_permitted id _ (Orderly.init.run dropReferenced_permitted rfl)).1 () 0 rfl⟩

/-- A second backend drops the entry, the first one releases its reference. Before it looks
the entry up, the second one creates the entry anew and drops it again. -/
def lateLookup : List (Fin 3 × HashAction Unit) :=
  firstReference ++ (1, .drop ()) :: advances 1 2 ++ (0, .release ()) :: advances 0 1 ++
    (1, .get () true) :: advances 1 6 ++ (1, .drop ()) :: advances 1 3 ++ advances 0 1

/-- Two backends find the entry dropped, both under the shared lock, and both reinitialise
it. -/
def twoReinits : List (Fin 3 × HashAction Unit) :=
  firstReference ++ (1, .drop ()) :: advances 1 2 ++ (1, .get () true) :: (2, .get () true) ::
    advances 1 1 ++ advances 2 1 ++ advances 1 5 ++ advances 2 5

/-- The lookup of a last release fails after `lateLookup`, and after `twoReinits` the count is
one too high, with three references to an entry that is not dropped and no backend in the
middle of anything. -/
theorem refcounts_broken :
    ((run id {} lateLookup).map fun s => (s.procs 0).pc) = some .error ∧
      ((run id {} twoReinits).map fun s =>
        ((s.heap 0).refcount, (s.heap 0).dropped, s.localRefs () 0, s.midway 0)) =
          some (5, false, 3, 0) := by
  decide

end SharedHash

end PgCutover.PgStat
