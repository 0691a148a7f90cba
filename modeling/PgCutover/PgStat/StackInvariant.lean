import PgCutover.PgStat.Tables

/-!
# The level stack and the table records agree

The assertions of `AtEOXact_PgStat_Relations` and `AtEOSubXact_PgStat_Relations` rest
on one fact: the stack entries name exactly the tables with a record of their level,
once each, and both the stack and the records of each table are sorted by level.
`Linked` states it and this module proves that every step keeps it.

A reachable state of a backend (`Backend.Reachable`) is one that some well-nested
sequence of operations and transaction boundaries leads to, finished or not.
-/

namespace PgCutover.PgStat

open Lib Function List

/-- Some entry of the given level lists the table. -/
def Carries (stack : List PgStatSubXactStatus) (rel : RelKey) (n : ℕ) : Prop :=
  ∃ entry ∈ stack, entry.nestLevel = n ∧ rel ∈ entry.first

/-- The levels of the stack entries, newest first. -/
def stackLevels (stack : List PgStatSubXactStatus) : List ℕ := stack.map (·.nestLevel)

@[simp] theorem carries_nil (rel : RelKey) (n : ℕ) : ¬ Carries [] rel n := by
  simp [Carries]

@[simp] theorem carries_cons (entry : PgStatSubXactStatus) (stack : List PgStatSubXactStatus)
    (rel : RelKey) (n : ℕ) :
    Carries (entry :: stack) rel n ↔
      (entry.nestLevel = n ∧ rel ∈ entry.first) ∨ Carries stack rel n := by
  simp [Carries]

theorem carries_append (above stack : List PgStatSubXactStatus) (rel : RelKey) (n : ℕ) :
    Carries (above ++ stack) rel n ↔ Carries above rel n ∨ Carries stack rel n := by
  simp [Carries, or_and_right, exists_or]

@[simp] theorem stackLevels_append (above stack : List PgStatSubXactStatus) :
    stackLevels (above ++ stack) = stackLevels above ++ stackLevels stack :=
  map_append

/-- The stack is sorted by level within `1..d`, each entry lists distinct tables, and
a table is listed at a level exactly when it has a record of it. -/
structure Linked (d : ℕ) (stack : List PgStatSubXactStatus) (levels : RelKey → List ℕ) :
    Prop where
  sorted : (stackLevels stack).Pairwise (· > ·)
  bounded : ∀ n ∈ stackLevels stack, 1 ≤ n ∧ n ≤ d
  nodup : ∀ entry ∈ stack, entry.first.Nodup
  levels_sorted : ∀ rel, (levels rel).Pairwise (· > ·)
  carries_iff : ∀ rel n, Carries stack rel n ↔ n ∈ levels rel

/-- A decreasing list bounded by `n` stays below it unless it starts with it. -/
theorem lt_of_head?_ne {l : List ℕ} {n : ℕ} (hsorted : l.Pairwise (· > ·))
    (hle : ∀ k ∈ l, k ≤ n) (hhead : l.head? ≠ some n) : ∀ m ∈ l, m < n := by
  intro m hm
  cases l with
  | nil => simp at hm
  | cons a =>
    have ha : a < n := lt_of_le_of_ne (hle a mem_cons_self) (by simpa using hhead)
    rcases mem_cons.mp hm with rfl | hm
    · exact ha
    · exact lt_trans ((pairwise_cons.mp hsorted).1 m hm) ha

/-! ### Pushing and linking -/

section Stack

variable {stack : List PgStatSubXactStatus} {n : ℕ}

/-- After a push the newest entry belongs to the level. -/
theorem exists_pushLevel (stack : List PgStatSubXactStatus) (n : ℕ) :
    ∃ top rest, pushLevel stack n = top :: rest ∧ top.nestLevel = n ∧
      (stack = top :: rest ∨ (stack = rest ∧ top = { nestLevel := n })) := by
  cases stack with
  | nil => exact ⟨_, _, rfl, rfl, Or.inr ⟨rfl, rfl⟩⟩
  | cons top prev =>
    by_cases h : top.nestLevel = n
    · exact ⟨top, prev, by simp [pushLevel, h], h, Or.inl rfl⟩
    · exact ⟨_, _, by simp [pushLevel, h], rfl, Or.inr ⟨rfl, rfl⟩⟩

@[simp] theorem carries_pushLevel (stack : List PgStatSubXactStatus) (n : ℕ) (rel : RelKey)
    (m : ℕ) : Carries (pushLevel stack n) rel m ↔ Carries stack rel m := by
  obtain ⟨_, _, hpush, -, hstack | ⟨hstack, htop⟩⟩ := exists_pushLevel stack n
  · rw [hpush, hstack]
  · rw [hpush, hstack, htop]
    simp

@[simp] theorem carries_linkStack (rel rel' : RelKey) (m : ℕ) :
    Carries (linkStack stack n rel) rel' m ↔ (rel' = rel ∧ m = n) ∨ Carries stack rel' m := by
  rw [← carries_pushLevel stack n rel' m]
  obtain ⟨_, _, hpush, htop, -⟩ := exists_pushLevel stack n
  simp only [linkStack, hpush, modifyTop, carries_cons, htop, mem_cons]
  constructor
  · rintro (⟨rfl, rfl | h⟩ | h)
    · exact Or.inl ⟨rfl, rfl⟩
    · exact Or.inr (Or.inl ⟨rfl, h⟩)
    · exact Or.inr (Or.inr h)
  · rintro (⟨rfl, rfl⟩ | ⟨rfl, h⟩ | h)
    · exact Or.inl ⟨rfl, Or.inl rfl⟩
    · exact Or.inl ⟨rfl, Or.inr h⟩
    · exact Or.inr h

@[simp] theorem stackLevels_linkStack (rel : RelKey) :
    stackLevels (linkStack stack n rel) = stackLevels (pushLevel stack n) := by
  obtain ⟨_, _, hpush, -, -⟩ := exists_pushLevel stack n
  simp [linkStack, hpush, modifyTop, stackLevels]

@[simp] theorem stackLevels_appendDrops (drops : List PgStatPendingDroppedStatsItem) :
    stackLevels (appendDrops stack n drops) = stackLevels (pushLevel stack n) := by
  obtain ⟨_, _, hpush, -, -⟩ := exists_pushLevel stack n
  simp [appendDrops, hpush, modifyTop, stackLevels]

theorem mem_stackLevels_pushLevel {m : ℕ} (h : m ∈ stackLevels (pushLevel stack n)) :
    m = n ∨ m ∈ stackLevels stack := by
  obtain ⟨_, _, hpush, htop, hstack | ⟨hstack, -⟩⟩ := exists_pushLevel stack n
  all_goals rw [hpush] at h
  · rw [hstack]
    exact Or.inr h
  · rw [hstack]
    simpa [stackLevels, htop, eq_comm] using h

/-- Pushing a level that is not below the newest one keeps the stack sorted. -/
theorem pairwise_pushLevel (hsorted : (stackLevels stack).Pairwise (· > ·))
    (hle : ∀ m ∈ stackLevels stack, m ≤ n) :
    (stackLevels (pushLevel stack n)).Pairwise (· > ·) := by
  cases stack with
  | nil => simp [pushLevel, stackLevels]
  | cons top =>
    by_cases h : top.nestLevel = n
    · simpa [pushLevel, h] using hsorted
    · have htop : top.nestLevel < n :=
        lt_of_le_of_ne (hle _ (by simp [stackLevels])) h
      have hbelow := (pairwise_cons.mp hsorted).1
      simp only [pushLevel, ne_eq, h, not_false_eq_true, if_true, stackLevels, map_cons,
        pairwise_cons]
      refine ⟨fun m hm => ?_, pairwise_cons.mp hsorted⟩
      rcases mem_cons.mp hm with rfl | hm
      · exact htop
      · exact (hbelow m hm).trans htop

end Stack

namespace Linked

variable {d : ℕ} {stack : List PgStatSubXactStatus} {levels : RelKey → List ℕ}

/-- The empty stack of a backend outside of any transaction. -/
theorem empty : Linked 0 [] (fun _ => []) where
  sorted := List.Pairwise.nil
  bounded := by simp [stackLevels]
  nodup := by simp
  levels_sorted _ := List.Pairwise.nil
  carries_iff := by simp

theorem mono {d' : ℕ} (h : Linked d stack levels) (hd : d ≤ d') : Linked d' stack levels :=
  { h with bounded := fun n hn => ⟨(h.bounded n hn).1, (h.bounded n hn).2.trans hd⟩ }

variable {entry : PgStatSubXactStatus} {rel : RelKey} {n : ℕ}

theorem mem_stackLevels (h : Linked d stack levels)
    (hn : n ∈ levels rel) : n ∈ stackLevels stack := by
  obtain ⟨_, hentry, rfl, -⟩ := (h.carries_iff rel n).mpr hn
  exact mem_map_of_mem hentry

theorem levels_sorted_update (h : Linked d stack levels) {l : List ℕ} (hl : l.Pairwise (· > ·)) :
    ∀ rel', (update levels rel l rel').Pairwise (· > ·) :=
  (forall_update_iff levels fun _ l => l.Pairwise (· > ·)).2
    ⟨hl, fun rel' _ => h.levels_sorted rel'⟩

/-- Pushing an empty entry changes nothing else. -/
theorem pushLevel (h : Linked d stack levels) (hn : 1 ≤ n) (hnd : n ≤ d)
    (hle : ∀ m ∈ stackLevels stack, m ≤ n) : Linked d (pushLevel stack n) levels where
  sorted := pairwise_pushLevel h.sorted hle
  bounded m hm := by
    rcases mem_stackLevels_pushLevel hm with rfl | hm
    · exact ⟨hn, hnd⟩
    · exact h.bounded m hm
  nodup entry hentry := by
    obtain ⟨_, _, hpush, -, hstack | ⟨hstack, htop⟩⟩ := exists_pushLevel stack n
    · exact h.nodup entry (by rwa [hpush, ← hstack] at hentry)
    · rw [hpush, ← hstack, htop] at hentry
      rcases mem_cons.mp hentry with rfl | hentry
      · exact nodup_nil
      · exact h.nodup entry hentry
  levels_sorted := h.levels_sorted
  carries_iff rel m := by rw [carries_pushLevel, h.carries_iff]

/-- Registering stats items pushes at most an entry without tables. -/
theorem appendDrops (h : Linked d stack levels) (hn : 1 ≤ n) (hnd : n ≤ d)
    (hle : ∀ m ∈ stackLevels stack, m ≤ n) (drops : List PgStatPendingDroppedStatsItem) :
    Linked d (appendDrops stack n drops) levels := by
  have hpushed := h.pushLevel hn hnd hle
  obtain ⟨top, _, hpush, -, -⟩ := exists_pushLevel stack n
  refine ⟨?_, ?_, ?_, h.levels_sorted, ?_⟩
  · rw [stackLevels_appendDrops]
    exact hpushed.sorted
  · rw [stackLevels_appendDrops]
    exact hpushed.bounded
  · intro entry hentry
    simp only [PgStat.appendDrops, hpush, modifyTop, mem_cons] at hentry
    rcases hentry with rfl | hentry
    · exact hpushed.nodup top (by simp [hpush])
    · exact hpushed.nodup entry (by simp [hpush, hentry])
  · intro _ m
    rw [← hpushed.carries_iff, PgStat.appendDrops, hpush]
    simp [modifyTop]

/-- Link a table whose records are all below the level into it. The entries `above`
are of higher levels and stay in place. -/
theorem link (above : List PgStatSubXactStatus) (rel : RelKey)
    (h : Linked d (above ++ stack) levels) (hn : 1 ≤ n) (hnd : n ≤ d)
    (habove : ∀ m ∈ stackLevels above, n < m) (hle : ∀ m ∈ stackLevels stack, m ≤ n)
    (hbelow : ∀ m ∈ levels rel, m < n) :
    Linked d (above ++ linkStack stack n rel) (update levels rel (n :: levels rel)) := by
  have hcarries : ∀ rel' m, Carries (above ++ linkStack stack n rel) rel' m ↔
      (rel' = rel ∧ m = n) ∨ Carries (above ++ stack) rel' m := by
    intro _ m
    rw [carries_append, carries_append, carries_linkStack, or_left_comm]
  obtain ⟨top, _, hpush, htop, hstack⟩ := exists_pushLevel stack n
  have hsplit := pairwise_append.mp (stackLevels_append above stack ▸ h.sorted)
  refine ⟨?_, ?_, ?_, ?_, ?_⟩
  · rw [stackLevels_append, stackLevels_linkStack]
    refine pairwise_append.mpr ⟨hsplit.1, pairwise_pushLevel hsplit.2.1 hle, ?_⟩
    intro m hm k hk
    rcases mem_stackLevels_pushLevel hk with rfl | hk
    · exact habove m hm
    · exact hsplit.2.2 m hm k hk
  · intro m hm
    rw [stackLevels_append, stackLevels_linkStack, mem_append] at hm
    have hold : ∀ k ∈ stackLevels above ++ stackLevels stack, 1 ≤ k ∧ k ≤ d :=
      fun k hk => h.bounded k (by rwa [stackLevels_append])
    rcases hm with hm | hm
    · exact hold m (mem_append_left _ hm)
    · rcases mem_stackLevels_pushLevel hm with rfl | hm
      · exact ⟨hn, hnd⟩
      · exact hold m (mem_append_right _ hm)
  · intro entry hentry
    have hnotin : ∀ entry ∈ above ++ stack, entry.nestLevel = n → rel ∉ entry.first :=
      fun entry hentry hlevel hmem =>
        (hbelow n ((h.carries_iff rel n).mp ⟨entry, hentry, hlevel, hmem⟩)).false
    rw [mem_append, linkStack, hpush, modifyTop, mem_cons] at hentry
    rcases hentry with hentry | rfl | hentry
    · exact h.nodup entry (mem_append_left _ hentry)
    · rcases hstack with rfl | ⟨-, rfl⟩
      · exact nodup_cons.mpr ⟨hnotin top (by simp) htop, h.nodup top (by simp)⟩
      · exact nodup_singleton rel
    · refine h.nodup entry (mem_append_right _ ?_)
      rcases hstack with rfl | ⟨rfl, -⟩
      · exact mem_cons_of_mem _ hentry
      · exact hentry
  · exact h.levels_sorted_update (pairwise_cons.mpr ⟨hbelow, h.levels_sorted rel⟩)
  · intro rel' m
    rw [hcarries, h.carries_iff]
    by_cases hrel : rel' = rel
    · subst hrel
      simp
    · simp [hrel]

theorem lt_of_mem_stackLevels
    (h : Linked d (entry :: stack) levels) {m : ℕ} (hm : m ∈ stackLevels stack) :
    m < entry.nestLevel :=
  (pairwise_cons.mp h.sorted).1 m hm

/-- A table listed by the newest entry has its newest record there. -/
theorem levels_eq_cons (h : Linked d (entry :: stack) levels) (hrel : rel ∈ entry.first) :
    levels rel = entry.nestLevel :: (levels rel).tail := by
  have hmem : entry.nestLevel ∈ levels rel :=
    (h.carries_iff rel _).mp ⟨entry, mem_cons_self, rfl, hrel⟩
  cases hlevels : levels rel with
  | nil => simp [hlevels] at hmem
  | cons a =>
    have hsorted := h.levels_sorted rel
    rw [hlevels] at hmem hsorted
    have hmemA : a ∈ levels rel := by simp [hlevels]
    have ha := h.mem_stackLevels hmemA
    rcases mem_cons.mp hmem with rfl | htail
    · rfl
    · have hlt : entry.nestLevel < a := (pairwise_cons.mp hsorted).1 _ htail
      rcases mem_cons.mp ha with rfl | ha
      · exact absurd hlt (lt_irrefl _)
      · exact absurd hlt (h.lt_of_mem_stackLevels ha).asymm

/-- Take the first table off the newest entry, together with its newest record. -/
theorem unlink {first : List RelKey}
    (h : Linked d (entry :: stack) levels) (hfirst : entry.first = rel :: first) :
    Linked d ({ entry with first := first } :: stack)
      (update levels rel (levels rel).tail) := by
  have hmem : rel ∈ entry.first := by simp [hfirst]
  obtain ⟨tail, hlevels⟩ : ∃ tail, levels rel = entry.nestLevel :: tail :=
    ⟨_, h.levels_eq_cons hmem⟩
  have hsorted := h.levels_sorted rel
  rw [hlevels, pairwise_cons] at hsorted
  rw [hlevels]
  have hnodup := h.nodup entry mem_cons_self
  rw [hfirst, nodup_cons] at hnodup
  refine ⟨h.sorted, h.bounded, ?_, ?_, ?_⟩
  · intro e he
    rcases mem_cons.mp he with rfl | he
    · exact hnodup.2
    · exact h.nodup e (mem_cons_of_mem _ he)
  · exact h.levels_sorted_update hsorted.2
  · intro rel' m
    rw [carries_cons]
    by_cases hrel : rel' = rel
    · subst hrel
      rw [update_self]
      have hold : entry.nestLevel = m ∨ Carries stack rel' m ↔ m = entry.nestLevel ∨ m ∈ tail := by
        simpa [hfirst, hlevels] using h.carries_iff rel' m
      constructor
      · rintro (⟨-, hmem⟩ | hcarried)
        · exact absurd hmem hnodup.1
        · have hlt : m < entry.nestLevel := by
            obtain ⟨e, he, rfl, -⟩ := hcarried
            exact h.lt_of_mem_stackLevels (mem_map_of_mem he)
          exact (hold.mp (Or.inr hcarried)).resolve_left hlt.ne
      · intro htail
        rcases hold.mpr (Or.inr htail) with hm | hcarried
        · exact absurd (hm ▸ hsorted.1 m htail) (lt_irrefl _)
        · exact Or.inr hcarried
    · rw [update_of_ne hrel, ← h.carries_iff, carries_cons, hfirst]
      simp [hrel]

/-- Once the newest entry lists no table it can be removed. -/
theorem pop (h : Linked (d + 1) (entry :: stack) levels)
    (hlevel : entry.nestLevel ≤ d + 1) (hfirst : entry.first = []) : Linked d stack levels where
  sorted := (pairwise_cons.mp h.sorted).2
  bounded n hn := by
    have hlt := h.lt_of_mem_stackLevels hn
    exact ⟨(h.bounded n (mem_cons_of_mem _ hn)).1, by omega⟩
  nodup e he := h.nodup e (mem_cons_of_mem _ he)
  levels_sorted := h.levels_sorted
  carries_iff rel n := by simp [← h.carries_iff, hfirst]

/-- A stack without an entry of the current level is linked at the parent level. -/
theorem lower (h : Linked (d + 1) stack levels) (hle : ∀ m ∈ stackLevels stack, m ≤ d) :
    Linked d stack levels :=
  { h with bounded := fun n hn => ⟨(h.bounded n hn).1, hle n hn⟩ }

/-- Whether the newest entry lists a table can be read off the table's records. -/
theorem mem_first_iff (h : Linked d (entry :: stack) levels)
    (rel : RelKey) : rel ∈ entry.first ↔ (levels rel).head? = some entry.nestLevel := by
  constructor
  · intro hrel
    rw [h.levels_eq_cons hrel, List.head?_cons]
  · intro hhead
    rcases (carries_cons ..).mp ((h.carries_iff rel _).mpr (mem_of_head? hhead)) with
      ⟨-, hmem⟩ | ⟨e, he, hlevel, -⟩
    · exact hmem
    · exact absurd hlevel (h.lt_of_mem_stackLevels (mem_map_of_mem he)).ne

/-- Without an entry there is no record. -/
theorem levels_eq_nil (h : Linked d [] levels) (rel : RelKey) : levels rel = [] :=
  eq_nil_iff_forall_not_mem.mpr fun n hn => carries_nil rel n ((h.carries_iff rel n).mpr hn)

/-- A table that the only entry does not list has no record. -/
theorem levels_eq_nil_of_not_mem (h : Linked d [entry] levels) (hrel : rel ∉ entry.first) :
    levels rel = [] := by
  refine eq_nil_iff_forall_not_mem.mpr fun n hn => ?_
  rcases (carries_cons ..).mp ((h.carries_iff rel n).mpr hn) with ⟨-, hmem⟩ | hcarried
  · exact hrel hmem
  · exact carries_nil rel n hcarried

end Linked

/-! ### Levels of one table -/

namespace PgStatTableStatus

@[simp] theorem levels_modifyNewest (tabstat : PgStatTableStatus)
    {f : PgStatTableXactStatus → PgStatTableXactStatus}
    (hf : ∀ newest, (f newest).nestLevel = newest.nestLevel) :
    (tabstat.modifyNewest f).levels = tabstat.levels := by
  rcases tabstat with ⟨_ | ⟨_, _⟩, _⟩
  · rfl
  · simp [modifyNewest, levels, hf]

theorem levels_ensureLevel (tabstat : PgStatTableStatus) (n : ℕ) :
    (tabstat.ensureLevel n).levels =
      if tabstat.AtLevel n then tabstat.levels else n :: tabstat.levels := by
  unfold ensureLevel
  split_ifs <;> simp [levels]

theorem levels_onTable (op : RowOp) (n : ℕ) (tabstat : PgStatTableStatus) :
    (op.onTable n tabstat).levels =
      if tabstat.AtLevel n then tabstat.levels else n :: tabstat.levels := by
  rw [← levels_ensureLevel]
  exact levels_modifyNewest _ op.record_nestLevel

/-- Ending a subtransaction takes its record away and adds one for the parent level
exactly when the record is reused. -/
theorem levels_endSub (isCommit : Bool) (nestDepth : ℕ) (tabstat : PgStatTableStatus) :
    (tabstat.endSub isCommit nestDepth).levels =
      if tabstat.Reuses isCommit nestDepth then (nestDepth - 1) :: tabstat.levels.tail
      else tabstat.levels.tail := by
  unfold endSub Reuses
  rcases tabstat with ⟨_ | ⟨_, _ | ⟨upper, _⟩⟩, _⟩
  · simp [levels]
  · cases isCommit <;> simp [levels]
  · cases isCommit with
    | false => simp [levels]
    | true =>
      by_cases hlevel : upper.nestLevel = nestDepth - 1
      all_goals simp [levels, hlevel]

@[simp] theorem levels_endTop (isCommit : Bool) (tabstat : PgStatTableStatus) :
    (tabstat.endTop isCommit).levels = [] := by
  rcases tabstat with ⟨_ | ⟨newest, upper⟩, counts⟩ <;> rfl

theorem endTop_of_levels_eq_nil {tabstat : PgStatTableStatus} (h : tabstat.levels = [])
    (isCommit : Bool) : tabstat.endTop isCommit = tabstat := by
  rcases tabstat with ⟨_ | ⟨_, _⟩, _⟩
  · rfl
  · simp [levels] at h

end PgStatTableStatus

/-! ### Every step keeps the stack and the records linked -/

namespace Backend

def levels (s : Backend) (rel : RelKey) : List ℕ := (s.pending rel).levels

/-- The stack and the records of the tables agree at the current nesting level. -/
def WellLinked (s : Backend) : Prop := Linked s.nestLevel s.pgStatXactStack s.levels

variable {s : Backend} {d : ℕ} {rel : RelKey}

theorem levels_of_update {s' : Backend} {tabstat : PgStatTableStatus}
    (h : s'.pending = update s.pending rel tabstat) :
    s'.levels = update s.levels rel tabstat.levels := by
  funext rel'
  rw [levels, h, apply_update (fun _ => PgStatTableStatus.levels)]
  rfl

theorem WellLinked.beginXact (h : s.WellLinked) : s.beginXact.WellLinked :=
  h.mono (Nat.le_succ _)

/-- All records of a table are below the current level unless the newest one is of
it. -/
theorem WellLinked.lt_nestLevel (h : s.WellLinked)
    (hrel : ¬ (s.pending rel).AtLevel s.nestLevel) : ∀ n ∈ s.levels rel, n < s.nestLevel :=
  lt_of_head?_ne (h.levels_sorted rel)
    (fun n hn => (h.bounded n (h.mem_stackLevels hn)).2) hrel

/-- Counting a row operation links the table into the current level when it adds a
record. -/
theorem WellLinked.rowOp (h : s.WellLinked) (hs : 1 ≤ s.nestLevel) (op : RowOp) :
    (op.count s).WellLinked := by
  rw [op.count_eq]
  split_ifs with henabled hlevel
  · unfold WellLinked
    rw [levels_of_update (s := s) rfl, PgStatTableStatus.levels_onTable, if_pos hlevel]
    change Linked _ _ (update s.levels _ (s.levels op.rel.key))
    rw [update_eq_self]
    exact h
  · unfold WellLinked
    rw [levels_of_update (s := s) rfl, PgStatTableStatus.levels_onTable, if_neg hlevel]
    exact Linked.link [] op.rel.key h hs le_rfl (by simp [stackLevels])
      (fun m hm => (h.bounded m hm).2) (h.lt_nestLevel hlevel)
  · exact h

/-- Registering a stats item adds at most an entry without tables. -/
theorem WellLinked.register (h : s.WellLinked) (hs : 1 ≤ s.nestLevel)
    (item : XlXactStatsItem) (isCreate : Bool) :
    (s.createDropTransactionalInternal item isCreate).WellLinked :=
  Linked.appendDrops h hs le_rfl (fun m hm => (h.bounded m hm).2) _

theorem WellLinked.xactOp (h : s.WellLinked) (hs : 1 ≤ s.nestLevel) (op : XactOp) :
    (op.count s).WellLinked := by
  cases op with
  | row op => exact h.rowOp hs op
  | create item => exact h.register hs item true
  | drop item => exact h.register hs item false

/-- One iteration of the subtransaction loop: the first table leaves the ending level,
and joins the parent level when its record is reused there. -/
theorem linked_endSubXactRelation (hd : 1 ≤ d)
    {entry : PgStatSubXactStatus} {first : List RelKey} (isCommit : Bool)
    (hlevel : entry.nestLevel = d + 1) (hfirst : entry.first = rel :: first)
    (h : Linked (d + 1) (entry :: s.pgStatXactStack) s.levels) :
    Linked (d + 1)
      ({ entry with first := first } ::
        (s.endSubXactRelation isCommit (d + 1) rel).pgStatXactStack)
      (s.endSubXactRelation isCommit (d + 1) rel).levels := by
  have hbelow : ∀ m ∈ stackLevels s.pgStatXactStack, m ≤ d := fun m hm => by
    have := h.lt_of_mem_stackLevels hm
    omega
  have hmem : rel ∈ entry.first := by simp [hfirst]
  have hsorted := h.levels_sorted rel
  rw [h.levels_eq_cons hmem, pairwise_cons, hlevel] at hsorted
  have hunlinked := h.unlink hfirst
  rw [endSubXactRelation_stack,
    levels_of_update (s.endSubXactRelation_pending isCommit (d + 1) rel),
    PgStatTableStatus.levels_endSub, Nat.add_sub_cancel]
  split_ifs with hreuses
  · have htail := lt_of_head?_ne hsorted.2 (fun m hm => Nat.lt_succ_iff.mp (hsorted.1 m hm))
      hreuses.2.2
    rw [← update_self rel (s.levels rel).tail s.levels] at htail
    have hlinked := Linked.link [{ entry with first := first }] rel hunlinked hd (Nat.le_succ d)
      (by simp [stackLevels, hlevel]) hbelow htail
    rw [update_idem, update_self] at hlinked
    exact hlinked
  · exact hunlinked

/-- The subtransaction loop empties the ending level. -/
theorem linked_atEOSubXactPgStatRelations (hd : 1 ≤ d) (isCommit : Bool)
    (first : List RelKey) {entry : PgStatSubXactStatus}
    (hlevel : entry.nestLevel = d + 1) (hfirst : entry.first = first)
    (h : Linked (d + 1) (entry :: s.pgStatXactStack) s.levels) :
    Linked d (first.foldl (endSubXactRelation isCommit (d + 1)) s).pgStatXactStack
      (first.foldl (endSubXactRelation isCommit (d + 1)) s).levels := by
  induction first generalizing s entry with
  | nil => exact h.pop hlevel.le hfirst
  | cons _ _ ih =>
    have hstep := linked_endSubXactRelation hd isCommit hlevel hfirst h
    refine ih ?_ ?_ hstep
    · exact hlevel
    · rfl

@[simp] theorem atEOSubXactPgStatDroppedStats_pending (s : Backend)
    (xactState : PgStatSubXactStatus) (isCommit : Bool) (nestDepth : ℕ) :
    (s.atEOSubXactPgStatDroppedStats xactState isCommit nestDepth).pending = s.pending := by
  unfold atEOSubXactPgStatDroppedStats
  split_ifs <;> rfl

/-- Passing registrations on, or dropping them, pushes at most an entry without
tables. -/
theorem linked_atEOSubXactPgStatDroppedStats (hd : 1 ≤ d)
    (xactState : PgStatSubXactStatus) (isCommit : Bool)
    (h : Linked d s.pgStatXactStack s.levels) :
    Linked d (s.atEOSubXactPgStatDroppedStats xactState isCommit (d + 1)).pgStatXactStack
      s.levels := by
  have hle : ∀ m ∈ stackLevels s.pgStatXactStack, m ≤ d := fun m hm => (h.bounded m hm).2
  unfold atEOSubXactPgStatDroppedStats
  split_ifs
  · exact h
  · exact h.appendDrops hd le_rfl hle _
  · exact h.pushLevel hd le_rfl hle

theorem endXact_of_sub (hs : s.nestLevel = d + 1) (hd : 1 ≤ d) (isCommit : Bool) :
    s.endXact isCommit = { s.atEOSubXactPgStat isCommit (d + 1) with nestLevel := d } := by
  unfold Backend.endXact
  rw [if_neg (by omega), hs, Nat.add_sub_cancel]

theorem endXact_of_top (hs : s.nestLevel = 1) (isCommit : Bool) :
    s.endXact isCommit = { s.atEOXactPgStat isCommit with nestLevel := 0 } := by
  unfold Backend.endXact
  rw [if_pos hs.le, hs]

/-- Either the current level has a stack entry of its own, the newest one, or every
entry belongs to an enclosing level. -/
theorem WellLinked.own_entry_or (h : s.WellLinked) :
    (∃ xactState prev, s.pgStatXactStack = xactState :: prev ∧
      xactState.nestLevel = s.nestLevel) ∨
    ∀ m ∈ stackLevels s.pgStatXactStack, m < s.nestLevel := by
  unfold WellLinked at h
  cases hstack : s.pgStatXactStack with
  | nil => exact Or.inr (by simp [stackLevels])
  | cons xactState prev =>
    rw [hstack] at h
    have hle : xactState.nestLevel ≤ s.nestLevel := (h.bounded _ mem_cons_self).2
    rcases hle.eq_or_lt with heq | hlt
    · exact Or.inl ⟨xactState, prev, rfl, heq⟩
    · refine Or.inr fun m hm => ?_
      rcases mem_cons.mp hm with rfl | hm
      · exact hlt
      · exact (h.lt_of_mem_stackLevels hm).trans hlt

/-- A level without an entry of its own has nothing to merge or undo. -/
theorem atEOSubXactPgStat_of_no_entry {nestDepth : ℕ}
    (h : ∀ m ∈ stackLevels s.pgStatXactStack, m < nestDepth) (isCommit : Bool) :
    s.atEOSubXactPgStat isCommit nestDepth = s := by
  unfold atEOSubXactPgStat
  cases hstack : s.pgStatXactStack with
  | nil => rfl
  | cons xactState =>
    have hlt : xactState.nestLevel < nestDepth := h _ (by simp [hstack, stackLevels])
    exact if_neg (Nat.not_le.mpr hlt)

theorem atEOSubXactPgStat_of_entry {xactState : PgStatSubXactStatus}
    {prev : List PgStatSubXactStatus} (hstack : s.pgStatXactStack = xactState :: prev)
    (isCommit : Bool) :
    s.atEOSubXactPgStat isCommit xactState.nestLevel =
      (({ s with pgStatXactStack := prev }).atEOSubXactPgStatRelations xactState isCommit
        xactState.nestLevel).atEOSubXactPgStatDroppedStats xactState isCommit
        xactState.nestLevel := by
  unfold atEOSubXactPgStat
  simp [hstack]

/-- No table has a record of a level without an entry. -/
theorem WellLinked.not_atLevel (h : s.WellLinked) {n : ℕ}
    (hn : ∀ m ∈ stackLevels s.pgStatXactStack, m < n) (rel : RelKey) :
    ¬ (s.pending rel).AtLevel n :=
  fun hat => (hn n (h.mem_stackLevels (mem_of_head? hat))).false

/-- The end of a subtransaction, table by table: the tables with a record of the
ending level are exactly those the loop visits. -/
theorem WellLinked.endSub_pending (h : s.WellLinked)
    (hs : s.nestLevel = d + 1) (hd : 1 ≤ d) (isCommit : Bool) (rel : RelKey) :
    (s.endXact isCommit).pending rel =
      if (s.pending rel).AtLevel (d + 1) then (s.pending rel).endSub isCommit (d + 1)
      else s.pending rel := by
  rw [endXact_of_sub hs hd]
  rcases h.own_entry_or with ⟨_, _, hstack, hlevel⟩ | hno
  · unfold WellLinked at h
    rw [hstack] at h
    have hmem := h.mem_first_iff rel
    rw [hs] at hlevel
    rw [hlevel] at hmem
    rw [← hlevel, atEOSubXactPgStat_of_entry hstack, hlevel, atEOSubXactPgStatDroppedStats_pending,
      atEOSubXactPgStatRelations_pending _ _ _ _ (h.nodup _ mem_cons_self)]
    simp only [hmem]
    rfl
  · rw [hs] at hno
    rw [atEOSubXactPgStat_of_no_entry hno, if_neg (h.not_atLevel hno rel)]

/-- At the outermost level the stack has at most one entry. -/
theorem WellLinked.stack_of_top (h : s.WellLinked) (hs : s.nestLevel = 1) :
    s.pgStatXactStack = [] ∨
      ∃ xactState, s.pgStatXactStack = [xactState] ∧ xactState.nestLevel = 1 := by
  unfold WellLinked at h
  cases hstack : s.pgStatXactStack with
  | nil => exact Or.inl rfl
  | cons xactState prev =>
    rw [hstack] at h
    have hone : ∀ m ∈ stackLevels (xactState :: prev), m = 1 := fun m hm => by
      have := h.bounded m hm
      omega
    have htop : xactState.nestLevel = 1 := hone _ (by simp [stackLevels])
    cases prev with
    | nil => exact Or.inr ⟨xactState, rfl, htop⟩
    | cons entry =>
      have hlt : entry.nestLevel < xactState.nestLevel :=
        h.lt_of_mem_stackLevels (by simp [stackLevels])
      have hentry : entry.nestLevel = 1 := hone _ (by simp [stackLevels])
      omega

/-- The end of a transaction, table by table. -/
theorem WellLinked.endTop_pending (h : s.WellLinked) (hs : s.nestLevel = 1)
    (isCommit : Bool) (rel : RelKey) :
    (s.endXact isCommit).pending rel = (s.pending rel).endTop isCommit := by
  rw [endXact_of_top hs]
  unfold atEOXactPgStat
  rcases h.stack_of_top hs with hstack | ⟨xactState, hstack, -⟩
  all_goals
    unfold WellLinked at h
    rw [hstack] at h
    rw [hstack]
  · exact (PgStatTableStatus.endTop_of_levels_eq_nil (h.levels_eq_nil rel) isCommit).symm
  · change (s.atEOXactPgStatRelations xactState isCommit).pending rel = _
    rw [atEOXactPgStatRelations_pending _ _ _ (h.nodup _ mem_cons_self)]
    split_ifs with hmem
    · rfl
    · exact (PgStatTableStatus.endTop_of_levels_eq_nil (h.levels_eq_nil_of_not_mem hmem)
        isCommit).symm

/-- Ending a (sub)transaction leaves the stack and the records linked at the parent
level. -/
theorem WellLinked.endXact (h : s.WellLinked) (hs : 1 ≤ s.nestLevel)
    (isCommit : Bool) : (s.endXact isCommit).WellLinked := by
  rcases hs.eq_or_lt with htop | hsub
  · have hlevels : (s.endXact isCommit).levels = fun _ => [] := by
      funext rel
      rw [levels, h.endTop_pending htop.symm, PgStatTableStatus.levels_endTop]
    unfold WellLinked
    rw [hlevels, endXact_of_top htop.symm]
    exact Linked.empty
  · obtain ⟨d, hd⟩ : ∃ d, s.nestLevel = d + 1 := ⟨s.nestLevel - 1, by omega⟩
    have hd1 : 1 ≤ d := by omega
    rw [endXact_of_sub hd hd1]
    change Linked d (s.atEOSubXactPgStat isCommit (d + 1)).pgStatXactStack
      (s.atEOSubXactPgStat isCommit (d + 1)).levels
    rcases h.own_entry_or with ⟨xactState, prev, hstack, hlevel⟩ | hno
    · unfold WellLinked at h
      rw [hstack, hd] at h
      rw [hd] at hlevel
      have hloop := linked_atEOSubXactPgStatRelations (s := { s with pgStatXactStack := prev })
        hd1 isCommit _ hlevel rfl h
      have hdrops := linked_atEOSubXactPgStatDroppedStats hd1 xactState isCommit hloop
      rw [← hlevel, atEOSubXactPgStat_of_entry hstack, hlevel]
      unfold levels
      rw [atEOSubXactPgStatDroppedStats_pending]
      exact hdrops
    · rw [hd] at hno
      unfold WellLinked at h
      rw [hd] at h
      rw [atEOSubXactPgStat_of_no_entry hno]
      exact h.lower fun m hm => Nat.lt_succ_iff.mp (hno m hm)

theorem endXact_nestLevel (hs : s.nestLevel = d + 1) (isCommit : Bool) :
    (s.endXact isCommit).nestLevel = d := by
  simp [Backend.endXact, hs]

/-- A whole body keeps the stack and the records linked and returns to its level, for
any kind of operation that does. -/
theorem wellLinked_run {α : Type*} (count : α → Backend → Backend)
    (hcount : ∀ {s : Backend}, s.WellLinked → 1 ≤ s.nestLevel → ∀ a, (count a s).WellLinked)
    (hlevel : ∀ s a, (count a s).nestLevel = s.nestLevel) (body : XactBody α)
    (h : s.WellLinked) (hs : 1 ≤ s.nestLevel) :
    (body.run (backendMachine count) s).WellLinked ∧
      (body.run (backendMachine count) s).nestLevel = s.nestLevel := by
  obtain ⟨d, hd⟩ : ∃ d, s.nestLevel = d + 1 := ⟨s.nestLevel - 1, by omega⟩
  rw [hd]
  refine body.run_invariant (backendMachine count) (fun n s => s.WellLinked ∧ s.nestLevel = n)
    ?_ ?_ ?_ ⟨h, hd⟩
  · rintro n a s ⟨hlinked, hn⟩
    exact ⟨hcount hlinked (by omega) a, (hlevel s a).trans hn⟩
  · rintro n s ⟨hlinked, rfl⟩
    exact ⟨hlinked.beginXact, rfl⟩
  · rintro n isCommit s ⟨hlinked, hn⟩
    rw [backendMachine_leave]
    exact ⟨hlinked.endXact (by omega) isCommit, endXact_nestLevel hn isCommit⟩

/-! ### Reachable states -/

/-- The states of a backend that well-nested histories lead to, from any state outside
of a transaction. -/
inductive Reachable : Backend → Prop
  | idle {s : Backend} (hlevel : s.nestLevel = 0) (hstack : s.pgStatXactStack = [])
      (htrans : ∀ rel, (s.pending rel).trans = []) : Reachable s
  | beginXact {s : Backend} (h : Reachable s) : Reachable s.beginXact
  | count {s : Backend} (h : Reachable s) (hlevel : 1 ≤ s.nestLevel) (op : XactOp) :
      Reachable (op.count s)
  | endXact {s : Backend} (h : Reachable s) (hlevel : 1 ≤ s.nestLevel) (isCommit : Bool) :
      Reachable (s.endXact isCommit)

theorem wellLinked_of_idle (hlevel : s.nestLevel = 0)
    (hstack : s.pgStatXactStack = []) (htrans : ∀ rel, (s.pending rel).trans = []) :
    s.WellLinked := by
  have hlevels : s.levels = fun _ => [] := by
    funext rel
    simp [levels, PgStatTableStatus.levels, htrans]
  unfold WellLinked
  rw [hlevel, hstack, hlevels]
  exact Linked.empty

/-- Outside of a transaction there are no entries and no records. -/
theorem WellLinked.idle (h : s.WellLinked) (hlevel : s.nestLevel = 0) :
    s.pgStatXactStack = [] ∧ ∀ rel, (s.pending rel).trans = [] := by
  have hnone : ∀ n, n ∉ stackLevels s.pgStatXactStack := fun n hn => by
    have := h.bounded n hn
    omega
  refine ⟨map_eq_nil_iff.mp (eq_nil_iff_forall_not_mem.mpr hnone), fun rel => ?_⟩
  have hlevels : s.levels rel = [] :=
    eq_nil_iff_forall_not_mem.mpr fun n hn => hnone n (h.mem_stackLevels hn)
  exact map_eq_nil_iff.mp hlevels

theorem Reachable.wellLinked (h : s.Reachable) : s.WellLinked := by
  induction h with
  | idle hlevel hstack htrans => exact wellLinked_of_idle hlevel hstack htrans
  | beginXact _ ih => exact ih.beginXact
  | count _ hlevel op ih => exact ih.xactOp hlevel op
  | endXact _ hlevel isCommit ih => exact ih.endXact hlevel isCommit

end Backend

/-!
## Two-phase commit of relation statistics

`PREPARE TRANSACTION` writes one `TwoPhasePgStatRecord` for every table with a record and detaches
the records from the tables; `COMMIT PREPARED` and `ROLLBACK PREPARED` read them back.
-/

/-- What is stored about one table at PREPARE TRANSACTION. -/
structure TwoPhasePgStatRecord where
  tuplesInserted : ℤ
  tuplesUpdated : ℤ
  tuplesDeleted : ℤ
  insertedPreTruncdrop : ℤ
  updatedPreTruncdrop : ℤ
  deletedPreTruncdrop : ℤ
  id : Oid
  shared : Bool
  truncdropped : Bool
  deriving DecidableEq, Repr

/-- The record `AtPrepare_PgStat_Relations` writes for a table. -/
def PgStatTableXactStatus.toTwoPhaseRecord (trans : PgStatTableXactStatus) (rel : RelKey) :
    TwoPhasePgStatRecord where
  tuplesInserted := trans.tuplesInserted
  tuplesUpdated := trans.tuplesUpdated
  tuplesDeleted := trans.tuplesDeleted
  insertedPreTruncdrop := trans.insertedPreTruncdrop
  updatedPreTruncdrop := trans.updatedPreTruncdrop
  deletedPreTruncdrop := trans.deletedPreTruncdrop
  id := rel.id
  shared := rel.shared
  truncdropped := trans.truncdropped

/-- The entry `pgstat_prep_relation_pending` finds for a record. -/
def TwoPhasePgStatRecord.key (record : TwoPhasePgStatRecord) : RelKey where
  id := record.id
  shared := record.shared

/-- The arithmetic of `pgstat_twophase_postcommit`. -/
def PgStatTableCounts.postcommit (counts : PgStatTableCounts) (record : TwoPhasePgStatRecord) :
    PgStatTableCounts :=
  let counts := { counts with
    tuplesInserted := counts.tuplesInserted + record.tuplesInserted
    tuplesUpdated := counts.tuplesUpdated + record.tuplesUpdated
    tuplesDeleted := counts.tuplesDeleted + record.tuplesDeleted
    truncdropped := record.truncdropped }
  let counts := if record.truncdropped then
    { counts with deltaLiveTuples := 0, deltaDeadTuples := 0 } else counts
  { counts with
    deltaLiveTuples := counts.deltaLiveTuples + (record.tuplesInserted - record.tuplesDeleted)
    deltaDeadTuples := counts.deltaDeadTuples + (record.tuplesUpdated + record.tuplesDeleted)
    changedTuples := counts.changedTuples +
      (record.tuplesInserted + record.tuplesUpdated + record.tuplesDeleted) }

/-- The arithmetic of `pgstat_twophase_postabort`. -/
def PgStatTableCounts.postabort (counts : PgStatTableCounts) (record : TwoPhasePgStatRecord) :
    PgStatTableCounts :=
  let record := if record.truncdropped then
    { record with
      tuplesInserted := record.insertedPreTruncdrop
      tuplesUpdated := record.updatedPreTruncdrop
      tuplesDeleted := record.deletedPreTruncdrop } else record
  { counts with
    tuplesInserted := counts.tuplesInserted + record.tuplesInserted
    tuplesUpdated := counts.tuplesUpdated + record.tuplesUpdated
    tuplesDeleted := counts.tuplesDeleted + record.tuplesDeleted
    deltaDeadTuples := counts.deltaDeadTuples + (record.tuplesInserted + record.tuplesUpdated) }

namespace Backend

/-- `AtPrepare_PgStat_Relations`: one record for each table of the entry. -/
def atPreparePgStatRelations (s : Backend) (xactState : PgStatSubXactStatus) :
    List TwoPhasePgStatRecord :=
  xactState.first.filterMap fun rel => (s.pending rel).trans.head?.map (·.toTwoPhaseRecord rel)

/-- `AtPrepare_PgStat`. -/
def atPreparePgStat (s : Backend) : List TwoPhasePgStatRecord :=
  match s.pgStatXactStack with
  | [] => []
  | xactState :: _ => s.atPreparePgStatRelations xactState

/-- `PostPrepare_PgStat_Relations`: unlink the transactional state. -/
def postPreparePgStatRelations (s : Backend) (xactState : PgStatSubXactStatus) : Backend :=
  xactState.first.foldl (fun s rel => s.setPending rel { s.pending rel with trans := [] }) s

/-- `PostPrepare_PgStat`. -/
def postPreparePgStat (s : Backend) : Backend :=
  let s := match s.pgStatXactStack with
    | [] => s
    | xactState :: _ => s.postPreparePgStatRelations xactState
  { s with pgStatXactStack := [] }

/-- `PREPARE TRANSACTION`: the records written and the state of the backend after it. -/
def prepareTransaction (s : Backend) : List TwoPhasePgStatRecord × Backend :=
  (s.atPreparePgStat, { s.postPreparePgStat with nestLevel := s.nestLevel - 1 })

/-- `pgstat_twophase_postcommit`. -/
def pgstatTwophasePostcommit (s : Backend) (record : TwoPhasePgStatRecord) : Backend :=
  let pgstatInfo := s.pending record.key
  s.setPending record.key { pgstatInfo with counts := pgstatInfo.counts.postcommit record }

/-- `pgstat_twophase_postabort`. -/
def pgstatTwophasePostabort (s : Backend) (record : TwoPhasePgStatRecord) : Backend :=
  let pgstatInfo := s.pending record.key
  s.setPending record.key { pgstatInfo with counts := pgstatInfo.counts.postabort record }

/-- The callback run for every record of a prepared transaction. -/
def twophaseCallback (isCommit : Bool) : Backend → TwoPhasePgStatRecord → Backend :=
  if isCommit then pgstatTwophasePostcommit else pgstatTwophasePostabort

/-- `FinishPreparedTransaction` in the transaction of `COMMIT PREPARED` or `ROLLBACK
PREPARED`: the callbacks, `AtEOXact_PgStat` for the prepared transaction, and the
commit of the command itself. -/
def finishPreparedTransaction (s : Backend) (records : List TwoPhasePgStatRecord)
    (isCommit : Bool) : Backend :=
  let s := s.beginXact
  let s := records.foldl (twophaseCallback isCommit) s
  (s.atEOXactPgStat isCommit).endXact true

end Backend

/-! ### Same math -/

theorem PgStatTableCounts.postabort_toTwoPhaseRecord (counts : PgStatTableCounts)
    (trans : PgStatTableXactStatus) (rel : RelKey) :
    counts.postabort (trans.toTwoPhaseRecord rel) = counts.abortXact trans := by
  cases h : trans.truncdropped <;>
    simp [postabort, abortXact, PgStatTableXactStatus.toTwoPhaseRecord,
      PgStatTableXactStatus.restoreTruncdropCounters, countAttempted, h]

namespace Backend

/-- What the callback makes of the table of a record: the counts the end of the
transaction would have left. -/
theorem twophaseCallback_pending (isCommit : Bool) (s : Backend) (trans : PgStatTableXactStatus)
    (rel : RelKey) :
    (twophaseCallback isCommit s (trans.toTwoPhaseRecord rel)).pending =
      Function.update s.pending rel { s.pending rel with
        counts := if isCommit then (s.pending rel).counts.commitXact trans
          else (s.pending rel).counts.abortXact trans } := by
  cases isCommit with
  | false =>
    rw [← PgStatTableCounts.postabort_toTwoPhaseRecord _ _ rel]
    rfl
  | true => rfl

/-- What the callback for the newest of the given records makes of a table. -/
def settle (isCommit : Bool) (records : List PgStatTableXactStatus)
    (tabstat : PgStatTableStatus) : PgStatTableStatus :=
  match records with
  | [] => tabstat
  | newest :: _ =>
    { tabstat with counts := if isCommit then tabstat.counts.commitXact newest
        else tabstat.counts.abortXact newest }

/-- The callbacks for the records written by `origin`, table by table. -/
theorem foldl_twophaseCallback_pending (isCommit : Bool) (origin s : Backend)
    {xactState : PgStatSubXactStatus} (hnodup : xactState.first.Nodup) (rel : RelKey) :
    ((origin.atPreparePgStatRelations xactState).foldl (twophaseCallback isCommit) s).pending rel =
      if rel ∈ xactState.first then settle isCommit (origin.pending rel).trans (s.pending rel)
      else s.pending rel := by
  rw [atPreparePgStatRelations, List.foldl_filterMap]
  refine foldl_table_of_nodup _ Backend.pending
    (fun rel => settle isCommit (origin.pending rel).trans) (fun s rel => ?_) hnodup s rel
  cases htrans : (origin.pending rel).trans with
  | nil => simp [settle]
  | cons newest => exact twophaseCallback_pending isCommit s newest rel

theorem postPreparePgStatRelations_pending (s : Backend) {xactState : PgStatSubXactStatus}
    (hnodup : xactState.first.Nodup) (rel : RelKey) :
    (s.postPreparePgStatRelations xactState).pending rel =
      if rel ∈ xactState.first then { s.pending rel with trans := [] } else s.pending rel :=
  foldl_table_of_nodup _ Backend.pending (fun _ tabstat => { tabstat with trans := [] })
    (fun _ _ => rfl) hnodup s rel

/-- Ending a transaction that changed no table leaves the pending entries alone. -/
theorem endXact_pending_of_nil {s : Backend} (hs : s.nestLevel = 1)
    (hstack : s.pgStatXactStack = []) (isCommit : Bool) :
    (s.endXact isCommit).pending = s.pending := by
  rw [endXact_of_top hs]
  simp [atEOXactPgStat, hstack]

/-- The callbacks change pending entries only. -/
theorem foldl_twophaseCallback_frame (isCommit : Bool) (records : List TwoPhasePgStatRecord)
    (s : Backend) :
    (records.foldl (twophaseCallback isCommit) s).nestLevel = s.nestLevel ∧
      (records.foldl (twophaseCallback isCommit) s).pgStatXactStack = s.pgStatXactStack := by
  induction records generalizing s with
  | nil => exact ⟨rfl, rfl⟩
  | cons record _ ih =>
    have hone : (twophaseCallback isCommit s record).nestLevel = s.nestLevel ∧
        (twophaseCallback isCommit s record).pgStatXactStack = s.pgStatXactStack := by
      cases isCommit <;> exact ⟨rfl, rfl⟩
    obtain ⟨hlevel, hstack⟩ := ih (twophaseCallback isCommit s record)
    exact ⟨hlevel.trans hone.1, hstack.trans hone.2⟩

theorem finishPreparedTransaction_pending {s : Backend} (hs : s.nestLevel = 0)
    (hstack : s.pgStatXactStack = []) (records : List TwoPhasePgStatRecord) (isCommit : Bool) :
    (s.finishPreparedTransaction records isCommit).pending =
      (records.foldl (twophaseCallback isCommit) s.beginXact).pending := by
  obtain ⟨hlevel, hnil⟩ := foldl_twophaseCallback_frame isCommit records s.beginXact
  rw [beginXact_stack, hstack] at hnil
  rw [beginXact_nestLevel, hs] at hlevel
  have hended : (records.foldl (twophaseCallback isCommit) s.beginXact).atEOXactPgStat isCommit =
      records.foldl (twophaseCallback isCommit) s.beginXact := by
    rw [atEOXactPgStat, hnil]
    simp only [← hnil]
  simp only [finishPreparedTransaction, hended]
  exact endXact_pending_of_nil hlevel hnil true

/-- Preparing a transaction at the outermost level and finishing it leaves every
pending entry as ending the transaction directly does. -/
theorem WellLinked.finishPrepared_pending {s : Backend} (h : s.WellLinked)
    (hs : s.nestLevel = 1) (isCommit : Bool) (rel : RelKey) :
    (s.prepareTransaction.2.finishPreparedTransaction s.prepareTransaction.1 isCommit).pending rel =
      (s.endXact isCommit).pending rel := by
  have hlevel : s.prepareTransaction.2.nestLevel = 0 := by simp [prepareTransaction, hs]
  rw [finishPreparedTransaction_pending hlevel rfl, h.endTop_pending hs]
  rcases h.stack_of_top hs with hstack | ⟨xactState, hstack, -⟩
  all_goals unfold WellLinked at h
  all_goals rw [hstack] at h
  · have hrecords : s.prepareTransaction.1 = [] := by
      simp [prepareTransaction, atPreparePgStat, hstack]
    have hpending : s.prepareTransaction.2.pending = s.pending := by
      simp [prepareTransaction, postPreparePgStat, hstack]
    rw [hrecords, PgStatTableStatus.endTop_of_levels_eq_nil (h.levels_eq_nil rel)]
    exact congrFun hpending rel
  · have hnodup := h.nodup _ List.mem_cons_self
    have hrecords : s.prepareTransaction.1 = s.atPreparePgStatRelations xactState := by
      simp [prepareTransaction, atPreparePgStat, hstack]
    have hpending : s.prepareTransaction.2.beginXact.pending rel =
        if rel ∈ xactState.first then { s.pending rel with trans := [] } else s.pending rel := by
      rw [← postPreparePgStatRelations_pending s hnodup]
      simp [prepareTransaction, postPreparePgStat, hstack]
    rw [hrecords, foldl_twophaseCallback_pending isCommit s _ hnodup, hpending]
    split_ifs with hmem
    · rcases s.pending rel with ⟨_ | ⟨_, _⟩, _⟩
      · rfl
      · rfl
    · rw [PgStatTableStatus.endTop_of_levels_eq_nil (h.levels_eq_nil_of_not_mem hmem)]

end Backend

/-- **Two-phase commit agrees with a plain end of transaction.** From any idle state, for
every transaction body, finishing the prepared transaction leaves every counter of every
table as ending the transaction directly does. -/
theorem finishPrepared_counts (s : Backend) (hlevel : s.nestLevel = 0)
    (hstack : s.pgStatXactStack = []) (htrans : ∀ rel, (s.pending rel).trans = [])
    (body : XactBody RowOp) (isCommit : Bool) (rel : RelKey) :
    let ready := body.run (backendMachine RowOp.count) s.beginXact
    let (records, prepared) := ready.prepareTransaction
    ((prepared.finishPreparedTransaction records isCommit).pending rel).counts =
      ((ready.endXact isCommit).pending rel).counts := by
  obtain ⟨hready, hnest⟩ := Backend.wellLinked_run RowOp.count Backend.WellLinked.rowOp
    (fun s op => op.count_nestLevel s) body
    (Backend.wellLinked_of_idle hlevel hstack htrans).beginXact (Nat.le_add_left 1 _)
  rw [Backend.beginXact_nestLevel, hlevel] at hnest
  exact congrArg _ (hready.finishPrepared_pending hnest isCommit rel)

/-- A transaction that inserts, truncates in a subtransaction that commits, and deletes
in one that aborts. -/
def samplePrepared : XactBody RowOp :=
  let rel : RelationData := ⟨⟨16384, false⟩, true, false⟩
  .act (.insert rel 3) (.sub (.act (.truncate rel) (.act (.insert rel 2) .nil)) true
    (.sub (.act (.delete rel) .nil) false .nil))

/-- Both outcomes of the sample transaction. -/
theorem finishPrepared_counts_samplePrepared :
    let ready := samplePrepared.run (backendMachine RowOp.count) ({} : Backend).beginXact
    let (records, prepared) := ready.prepareTransaction
    ((prepared.finishPreparedTransaction records true).pending ⟨16384, false⟩).counts =
        ((ready.endXact true).pending ⟨16384, false⟩).counts ∧
      ((prepared.finishPreparedTransaction records false).pending ⟨16384, false⟩).counts =
        ((ready.endXact false).pending ⟨16384, false⟩).counts :=
  ⟨finishPrepared_counts {} rfl rfl (fun _ => rfl) samplePrepared true _,
    finishPrepared_counts {} rfl rfl (fun _ => rfl) samplePrepared false _⟩

end PgCutover.PgStat
