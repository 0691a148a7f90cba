import PgCutover.PgStat.StackInvariant

/-!
# Transactional drops of stats items

Objects with statistics are registered when they are created or dropped, and the
stats items are dropped when the outcome is known: the created ones at abort, the
dropped ones at commit. This module says what the end of a level does to the
registrations (`Backend.WellLinked.endSub_frame`, `Backend.WellLinked.endTop_dropped`)
and compares the items written to WAL at the end of a (sub)transaction with those
dropped locally at the same event.

They differ when a subtransaction without a stack entry of its own aborts inside of a
level that has created objects: `pgstat_get_transactional_drops` looks at the newest
entry whatever its level is, where `AtEOSubXact_PgStat` compares the levels.
-/

namespace PgCutover.PgStat

open Lib List

/-! ### Registrations of a level -/

/-- The registrations held by the entry of the given level. -/
def pendAt : List PgStatSubXactStatus → ℕ → List PgStatPendingDroppedStatsItem
  | [], _ => []
  | entry :: stack, n => if entry.nestLevel = n then entry.pendingDrops else pendAt stack n

theorem pendAt_of_forall_ne {stack : List PgStatSubXactStatus} {n : ℕ}
    (h : ∀ m ∈ stackLevels stack, m ≠ n) : pendAt stack n = [] := by
  induction stack with
  | nil => rfl
  | cons _ _ ih =>
    rw [pendAt, if_neg (h _ mem_cons_self)]
    exact ih fun m hm => h m (mem_cons_of_mem _ hm)

section Stack

variable {stack : List PgStatSubXactStatus} {n : ℕ}

section

variable (hsorted : (stackLevels stack).Pairwise (· > ·))
include hsorted

/-- A pushed entry is empty and is the only one of its level. -/
theorem pendAt_pushLevel
    (hle : ∀ m ∈ stackLevels stack, m ≤ n) (m : ℕ) :
    pendAt (pushLevel stack n) m = pendAt stack m := by
  cases stack with
  | nil => simp [pushLevel, pendAt]
  | cons top =>
    by_cases htop : top.nestLevel = n
    · simp [pushLevel, htop]
    · simp only [pushLevel, ne_eq, htop, not_false_eq_true, if_true]
      rw [pendAt]
      split_ifs with hm
      · subst hm
        refine (pendAt_of_forall_ne fun k hk => ?_).symm
        have hlt : top.nestLevel < n := lt_of_le_of_ne (hle _ mem_cons_self) htop
        rcases mem_cons.mp hk with rfl | hk
        · exact htop
        · exact (lt_trans ((pairwise_cons.mp hsorted).1 k hk) hlt).ne
      · rfl

theorem pendAt_linkStack
    (hle : ∀ m ∈ stackLevels stack, m ≤ n) (rel : RelKey) (m : ℕ) :
    pendAt (linkStack stack n rel) m = pendAt stack m := by
  rw [← pendAt_pushLevel hsorted hle]
  obtain ⟨_, _, hpush, -, -⟩ := exists_pushLevel stack n
  simp [linkStack, hpush, modifyTop, pendAt]

theorem pendAt_appendDrops
    (hle : ∀ m ∈ stackLevels stack, m ≤ n) (drops : List PgStatPendingDroppedStatsItem) (m : ℕ) :
    pendAt (appendDrops stack n drops) m =
      if m = n then pendAt stack m ++ drops else pendAt stack m := by
  rw [← pendAt_pushLevel hsorted hle]
  obtain ⟨_, _, hpush, htop, -⟩ := exists_pushLevel stack n
  by_cases hm : m = n
  · simp [appendDrops, hpush, modifyTop, pendAt, htop, hm]
  · simp [appendDrops, hpush, modifyTop, pendAt, htop, hm, Ne.symm hm]

end

end Stack

namespace Backend

/-- The registrations of a level of the backend. -/
def pendAt (s : Backend) (n : ℕ) : List PgStatPendingDroppedStatsItem :=
  PgStat.pendAt s.pgStatXactStack n

variable {s : Backend} {d : ℕ}

/-- The loop over the tables of an ending level moves no registration and drops
nothing. -/
theorem atEOSubXactPgStatRelations_frame (isCommit : Bool) (first : List RelKey)
    (hsorted : (stackLevels s.pgStatXactStack).Pairwise (· > ·))
    (hle : ∀ m ∈ stackLevels s.pgStatXactStack, m ≤ d) :
    (∀ n, (first.foldl (endSubXactRelation isCommit (d + 1)) s).pendAt n = s.pendAt n) ∧
      (first.foldl (endSubXactRelation isCommit (d + 1)) s).dropped = s.dropped := by
  induction first generalizing s with
  | nil => exact ⟨fun _ => rfl, rfl⟩
  | cons rel _ ih =>
    have hstack := s.endSubXactRelation_stack isCommit (d + 1) rel
    rw [Nat.add_sub_cancel] at hstack
    split_ifs at hstack with hreuses
    · have hlevels : stackLevels (s.endSubXactRelation isCommit (d + 1) rel).pgStatXactStack =
          stackLevels (pushLevel s.pgStatXactStack d) := by
        rw [hstack, stackLevels_linkStack]
      obtain ⟨hpend, hdropped⟩ := ih (s := s.endSubXactRelation isCommit (d + 1) rel)
        (by rw [hlevels]; exact pairwise_pushLevel hsorted hle)
        (by
          rw [hlevels]
          intro m hm
          rcases mem_stackLevels_pushLevel hm with rfl | hm
          · exact le_rfl
          · exact hle m hm)
      refine ⟨fun n => (hpend n).trans ?_, hdropped.trans (endSubXactRelation_dropped ..)⟩
      rw [pendAt, hstack, pendAt_linkStack hsorted hle]
      rfl
    · obtain ⟨hpend, hdropped⟩ := ih (s := s.endSubXactRelation isCommit (d + 1) rel)
        (by rw [hstack]; exact hsorted) (by rw [hstack]; exact hle)
      refine ⟨fun n => (hpend n).trans ?_, hdropped.trans (endSubXactRelation_dropped ..)⟩
      rw [pendAt, hstack]
      rfl

/-- The drops of an ending level, once its tables are done with: on commit the parent
level takes the registrations over, on abort those of created items are dropped. -/
theorem atEOSubXactPgStatDroppedStats_frame (isCommit : Bool) (xactState : PgStatSubXactStatus)
    (hsorted : (stackLevels s.pgStatXactStack).Pairwise (· > ·))
    (hle : ∀ m ∈ stackLevels s.pgStatXactStack, m ≤ d) :
    (∀ n, (s.atEOSubXactPgStatDroppedStats xactState isCommit (d + 1)).pendAt n =
      if n = d ∧ isCommit then s.pendAt n ++ xactState.pendingDrops else s.pendAt n) ∧
    (s.atEOSubXactPgStatDroppedStats xactState isCommit (d + 1)).dropped =
      s.dropped ++ if isCommit then [] else xactState.pendingDrops.filter (·.isCreate) := by
  unfold atEOSubXactPgStatDroppedStats
  rw [Nat.add_sub_cancel]
  by_cases hempty : xactState.pendingDrops = []
  · simp [hempty]
  · cases isCommit with
    | true => simpa [hempty, pendAt] using pendAt_appendDrops hsorted hle _
    | false => simpa [hempty, pendAt, pgstatGetXactStackLevel] using pendAt_pushLevel hsorted hle

/-- The end of a subtransaction, registration by registration. -/
theorem WellLinked.endSub_frame (h : s.WellLinked)
    (hs : s.nestLevel = d + 1) (hd : 1 ≤ d) (isCommit : Bool) :
    (∀ n ≤ d, (s.endXact isCommit).pendAt n =
      if n = d ∧ isCommit then s.pendAt n ++ s.pendAt (d + 1) else s.pendAt n) ∧
    (s.endXact isCommit).dropped =
      s.dropped ++ if isCommit then [] else (s.pendAt (d + 1)).filter (·.isCreate) := by
  rw [endXact_of_sub hs hd]
  rcases h.own_entry_or with ⟨xactState, prev, hstack, hlevel⟩ | hno
  · rw [hs] at hlevel
    unfold WellLinked at h
    rw [hstack, hs] at h
    have hown : s.pendAt (d + 1) = xactState.pendingDrops := by
      simp [pendAt, hstack, PgStat.pendAt, hlevel]
    have hbelow : ∀ n ≤ d, s.pendAt n = PgStat.pendAt prev n := fun n hn => by
      simp [pendAt, hstack, PgStat.pendAt, hlevel, show d + 1 ≠ n by omega]
    -- the entry is popped first, then its tables and its registrations are gone through
    obtain ⟨hpend, hdropped⟩ := atEOSubXactPgStatRelations_frame (d := d) isCommit xactState.first
      (s := { s with pgStatXactStack := prev }) (pairwise_cons.mp h.sorted).2
      (fun m hm => by have := h.lt_of_mem_stackLevels hm; omega)
    have hloop := linked_atEOSubXactPgStatRelations (s := { s with pgStatXactStack := prev })
      hd isCommit _ hlevel rfl h
    obtain ⟨hpend', hdropped'⟩ := atEOSubXactPgStatDroppedStats_frame isCommit xactState
      hloop.sorted (fun m hm => (hloop.bounded m hm).2)
    rw [← hlevel, atEOSubXactPgStat_of_entry hstack, hlevel, hown]
    refine ⟨fun n hn => (hpend' n).trans ?_, hdropped'.trans (by rw [hdropped])⟩
    rw [hpend, hbelow n hn]
    rfl
  · rw [hs] at hno
    have hown : s.pendAt (d + 1) = [] := pendAt_of_forall_ne fun m hm => (hno m hm).ne
    rw [atEOSubXactPgStat_of_no_entry hno, hown]
    simp [pendAt]

/-- The loop over the tables of the transaction drops nothing. -/
theorem atEOXactPgStatRelations_dropped (s : Backend) (xactState : PgStatSubXactStatus)
    (isCommit : Bool) : (s.atEOXactPgStatRelations xactState isCommit).dropped = s.dropped := by
  unfold atEOXactPgStatRelations
  induction xactState.first generalizing s with
  | nil => rfl
  | cons _ _ ih =>
    rw [foldl_cons, ih]
    unfold endXactRelation
    split <;> rfl

/-- The end of a transaction drops what its outcome asks for. -/
theorem WellLinked.endTop_dropped (h : s.WellLinked) (hs : s.nestLevel = 1) (isCommit : Bool) :
    (s.endXact isCommit).dropped =
      s.dropped ++ (s.pendAt 1).filter fun pending => pending.isCreate != isCommit := by
  rw [endXact_of_top hs]
  unfold atEOXactPgStat
  rcases h.stack_of_top hs with hstack | ⟨xactState, hstack, hlevel⟩
  · simp [pendAt, hstack, PgStat.pendAt]
  · have hown : s.pendAt 1 = xactState.pendingDrops := by
      simp [pendAt, hstack, PgStat.pendAt, hlevel]
    simp only [hstack, atEOXactPgStatDroppedStats, atEOXactPgStatRelations_dropped, hown]
    congr 2
    funext pending
    cases isCommit <;> cases pending.isCreate <;> rfl

/-! ### What is logged and what is dropped -/

/-- The stats items dropped locally when the current (sub)transaction ends. -/
def localDrops (s : Backend) (isCommit : Bool) : List XlXactStatsItem :=
  ((s.endXact isCommit).dropped.drop s.dropped.length).map (·.item)

/-- The newest stack entry belongs to the current level, unless it has no created item
to drop. -/
def NewestCreatesOwn (s : Backend) : Prop :=
  ∀ top ∈ s.pgStatXactStack.head?,
    top.nestLevel = s.nestLevel ∨ ∀ pending ∈ top.pendingDrops, pending.isCreate = false

theorem WellLinked.localDrops_eq (h : s.WellLinked) (hs : 1 ≤ s.nestLevel) (isCommit : Bool) :
    s.localDrops isCommit =
      if isCommit ∧ 1 < s.nestLevel then []
      else ((s.pendAt s.nestLevel).filter fun pending => pending.isCreate != isCommit).map
        (·.item) := by
  unfold localDrops
  rcases hs.eq_or_lt with htop | hsub
  · rw [h.endTop_dropped htop.symm, drop_left, ← htop]
    simp
  · obtain ⟨d, hd⟩ : ∃ d, s.nestLevel = d + 1 := ⟨s.nestLevel - 1, by omega⟩
    rw [(h.endSub_frame hd (by omega) isCommit).2, hd]
    cases isCommit with
    | true => simp [show d ≠ 0 by omega]
    | false => simp

/-- The logged items are those of the newest entry, whatever its level is. -/
theorem pgstatGetTransactionalDrops_cons {top : PgStatSubXactStatus}
    {prev : List PgStatSubXactStatus} (hstack : s.pgStatXactStack = top :: prev)
    (isCommit : Bool) :
    s.pgstatGetTransactionalDrops isCommit =
      (top.pendingDrops.filter fun pending => pending.isCreate != isCommit).map (·.item) := by
  simp only [pgstatGetTransactionalDrops, hstack]
  congr 2
  funext pending
  cases isCommit <;> cases pending.isCreate <;> rfl

/-- Where there is a record, the items of the newest entry are the items dropped locally exactly at
a commit, or when that entry is that of the current level or holds no created item. -/
theorem transactionalDrops_eq_dropped_iff (s : Backend) (h : s.Reachable) (hs : 1 ≤ s.nestLevel)
    {isCommit : Bool} (hrecord : ¬(isCommit ∧ 1 < s.nestLevel)) :
    (∀ item, item ∈ s.pgstatGetTransactionalDrops isCommit ↔ item ∈ s.localDrops isCommit) ↔
      isCommit = true ∨ s.NewestCreatesOwn := by
  have hlinked := h.wellLinked
  rw [hlinked.localDrops_eq hs, if_neg hrecord]
  cases hstack : s.pgStatXactStack with
  | nil => simp [pgstatGetTransactionalDrops, pendAt, PgStat.pendAt, NewestCreatesOwn, hstack]
  | cons top =>
    rw [pgstatGetTransactionalDrops_cons hstack]
    by_cases hown : top.nestLevel = s.nestLevel
    · have hpend : s.pendAt s.nestLevel = top.pendingDrops := by
        simp [pendAt, hstack, PgStat.pendAt, hown]
      simp [hpend, NewestCreatesOwn, hstack, hown]
    · -- the newest entry belongs to an enclosing level, so this is a subtransaction
      have hno : ∀ m ∈ stackLevels s.pgStatXactStack, m < s.nestLevel := by
        rcases hlinked.own_entry_or with ⟨_, _, hcons, hlevel⟩ | hno
        · obtain ⟨rfl, rfl⟩ := List.cons.inj (hstack.symm.trans hcons)
          exact absurd hlevel hown
        · exact hno
      have hpend : s.pendAt s.nestLevel = [] := pendAt_of_forall_ne fun m hm => (hno m hm).ne
      have hmem : top.nestLevel ∈ stackLevels s.pgStatXactStack := by simp [hstack, stackLevels]
      have hsub : 1 < s.nestLevel :=
        lt_of_le_of_lt (hlinked.bounded _ hmem).1 (hno _ hmem)
      cases isCommit with
      | true => exact absurd ⟨rfl, hsub⟩ hrecord
      | false =>
        simp only [hpend, NewestCreatesOwn, hstack, hown, Bool.false_eq_true, false_or,
          List.head?_cons, Option.mem_def, Option.some.injEq, forall_eq']
        constructor
        · intro hsame pending hpending
          by_contra hcreate
          have hlogged := (hsame pending.item).mp
            (mem_map.mpr ⟨pending, by simpa [hpending] using hcreate, rfl⟩)
          simp at hlogged
        · intro hnone _
          have hfilter : (top.pendingDrops.filter fun pending => pending.isCreate != false) = [] :=
            filter_eq_nil_iff.mpr fun pending hpending => by simp [hnone pending hpending]
          rw [hfilter]
          rfl

/-- The stats item of a table. -/
def sampleItem : XlXactStatsItem := { kind := .relation, dboid := 5, objoid := 16384 }

end Backend

/-- A session: its statistics, and how many of its open levels have an xid. These are the outermost
ones, as `AssignTransactionId` gives an xid to the enclosing levels first. -/
structure Session extends Backend where
  xidLevels : ℕ := 0

namespace Session

/-- Whether the current level has an xid (`GetCurrentTransactionIdIfAny`). -/
def hasXid (s : Session) : Bool := s.nestLevel ≤ s.xidLevels

/-- The states of the well-nested histories, in which a level can get an xid at any time. -/
inductive Reachable : Session → Prop
  | idle {s : Backend} (h : s.Reachable) (hlevel : s.nestLevel = 0) : Reachable ⟨s, 0⟩
  | beginXact {s : Session} (h : Reachable s) : Reachable ⟨s.toBackend.beginXact, s.xidLevels⟩
  | assignXid {s : Session} (h : Reachable s) : Reachable ⟨s.toBackend, s.nestLevel⟩
  | count {s : Session} (h : Reachable s) (hlevel : 1 ≤ s.nestLevel) (op : XactOp) :
      Reachable ⟨op.count s.toBackend, s.xidLevels⟩
  | endXact {s : Session} (h : Reachable s) (hlevel : 1 ≤ s.nestLevel) (isCommit : Bool) :
      Reachable ⟨s.toBackend.endXact isCommit, min s.xidLevels (s.nestLevel - 1)⟩

theorem Reachable.toBackend {s : Session} (h : s.Reachable) : s.toBackend.Reachable := by
  induction h with
  | idle h => exact h
  | beginXact _ ih => exact ih.beginXact
  | assignXid _ ih => exact ih
  | count _ hlevel op ih => exact ih.count hlevel op
  | endXact _ hlevel isCommit ih => exact ih.endXact hlevel isCommit

/-- The stats items in the WAL record of the end of the current (sub)transaction, written by
`RecordTransactionCommit` or `RecordTransactionAbort`. There is no record of the commit of a
subtransaction and of the abort of a level without an xid. -/
def loggedDrops (s : Session) (isCommit : Bool) : Except String (List XlXactStatsItem) :=
  let droppedstats := s.pgstatGetTransactionalDrops isCommit
  if isCommit then
    if 1 < s.nestLevel then .ok []
    else if s.hasXid = false ∧ droppedstats ≠ [] then
      .error "cannot commit a transaction that deleted files but has no xid"
    else .ok droppedstats
  else if s.hasXid then .ok droppedstats
  else .ok []

/-- The record of an abort names the items that the level has created: with an xid, the newest stack
entry is its own or holds none; without one, the level has created none. -/
def AbortLogsOwn (s : Session) : Prop :=
  if s.hasXid then s.NewestCreatesOwn
  else ∀ pending ∈ s.pendAt s.nestLevel, pending.isCreate = false

/-- **Logged and local drops.** At the end of any (sub)transaction of any history, the items written
to WAL are the items dropped locally exactly when it commits, or the record of its abort names the
items that it has created. -/
theorem logged_eq_dropped_iff (s : Session) (h : s.Reachable) (hs : 1 ≤ s.nestLevel)
    (isCommit : Bool) {logged : List XlXactStatsItem} (hlog : s.loggedDrops isCommit = .ok logged) :
    (∀ item, item ∈ logged ↔ item ∈ s.localDrops isCommit) ↔
      isCommit = true ∨ s.AbortLogsOwn := by
  have hdrops {isCommit : Bool} (hrecord : ¬(isCommit ∧ 1 < s.nestLevel)) :=
    s.transactionalDrops_eq_dropped_iff h.toBackend hs hrecord
  have hlocal := h.toBackend.wellLinked.localDrops_eq hs
  rw [loggedDrops] at hlog
  rw [AbortLogsOwn]
  cases isCommit with
  | true =>
    refine iff_of_true ?_ (.inl rfl)
    by_cases hsub : 1 < s.nestLevel
    · obtain rfl : logged = [] := by simpa [hsub] using hlog.symm
      simp [hlocal, hsub]
    · rw [if_pos rfl, if_neg hsub] at hlog
      split_ifs at hlog
      cases hlog
      exact (hdrops fun hrecord => hsub hrecord.2).mpr (.inl rfl)
  | false =>
    cases hxid : s.hasXid with
    | true =>
      obtain rfl : logged = s.pgstatGetTransactionalDrops false := by simpa [hxid] using hlog.symm
      have hsame := hdrops fun hrecord : false = true ∧ _ => absurd hrecord.1 Bool.false_ne_true
      simpa using hsame
    | false =>
      obtain rfl : logged = [] := by simpa [hxid] using hlog.symm
      -- nothing is logged, so the level must have nothing to drop
      have hnone : (∀ item, item ∉ s.localDrops false) ↔
          ∀ pending ∈ s.pendAt s.nestLevel, pending.isCreate = false := by
        rw [hlocal, if_neg (by simp), ← eq_nil_iff_forall_not_mem, map_eq_nil_iff,
          filter_eq_nil_iff]
        simp
      simpa using hnone

open Backend

/-- A session in a transaction with an xid. -/
def inXact : Session := ⟨({} : Backend).beginXact, 1⟩

/-- A subtransaction with an xid that has created the sample table. -/
def createdInside : Session :=
  ⟨inXact.toBackend.beginXact.pgstatCreateTransactional sampleItem, 2⟩

/-- A subtransaction with an xid and without a stack entry, inside of a transaction that has created
the sample table. -/
def createdOutside : Session :=
  ⟨(inXact.toBackend.pgstatCreateTransactional sampleItem).beginXact, 2⟩

theorem inXact_reachable : inXact.Reachable :=
  .assignXid (.beginXact (.idle (.idle rfl rfl fun _ => rfl) rfl))

theorem createdInside_reachable : createdInside.Reachable :=
  .count (.assignXid inXact_reachable.beginXact) (by decide) (.create sampleItem)

theorem createdOutside_reachable : createdOutside.Reachable :=
  .assignXid (.beginXact (.count inXact_reachable (by decide) (.create sampleItem)))

/-- The subtransaction that created the table logs and drops it when it aborts. -/
theorem logged_eq_dropped_createdInside :
    createdInside.loggedDrops false = .ok [sampleItem] ∧
      ∀ item, item ∈ [sampleItem] ↔ item ∈ createdInside.localDrops false :=
  have hlog : createdInside.loggedDrops false = .ok [sampleItem] := by rfl
  ⟨hlog, (logged_eq_dropped_iff createdInside createdInside_reachable (by decide) false hlog).mpr
    (.inr fun top htop => .inl (by cases htop; rfl))⟩

/-- A subtransaction that registered nothing logs a drop of the table of its parent when
it aborts, and drops nothing itself. -/
theorem logged_ne_dropped_createdOutside :
    createdOutside.Reachable ∧ createdOutside.loggedDrops false = .ok [sampleItem] ∧
      createdOutside.localDrops false = [] :=
  ⟨createdOutside_reachable, rfl, by decide⟩

end Session

/-!
## The fate of registered stats items

Whether a registered item is dropped by the end of its transaction can be read off the transaction's
tree: a registration comes with the outcomes of the level that made it and of all the enclosing
ones.
-/

open Function

/-- A registration made in a transaction, with the outcomes of the level that made it
and of the levels around it, innermost first. -/
structure Registration where
  pending : PgStatPendingDroppedStatsItem
  outcomes : List Bool
  deriving DecidableEq, Repr

namespace Registration

/-- The registering level and all the levels around it committed. -/
def allCommitted (r : Registration) : Bool := r.outcomes.all id

/-- The registration, seen from one level further out. -/
def under (commits : Bool) (r : Registration) : Registration :=
  { r with outcomes := r.outcomes ++ [commits] }

/-- A created item is to be dropped if some level aborted, a dropped one if none
did. -/
def asksForDrop (r : Registration) : Bool := r.pending.isCreate != r.allCommitted

@[simp] theorem under_pending (commits : Bool) (r : Registration) :
    (r.under commits).pending = r.pending := rfl

@[simp] theorem under_allCommitted (commits : Bool) (r : Registration) :
    (r.under commits).allCommitted = (r.allCommitted && commits) := by
  simp [allCommitted, under]

theorem asksForDrop_iff (r : Registration) (item : XlXactStatsItem) :
    r.asksForDrop ∧ r.pending.item = item ↔
      r.pending = { item := item, isCreate := true } ∧ false ∈ r.outcomes ∨
        r.pending = { item := item, isCreate := false } ∧ ∀ c ∈ r.outcomes, c = true := by
  obtain ⟨⟨_, isCreate⟩, _⟩ := r
  cases isCreate with
  | true | false => simp [asksForDrop, allCommitted, and_comm]

def select (p : Registration → Bool) (regs : List Registration) :
    List PgStatPendingDroppedStatsItem :=
  (regs.filter p).map (·.pending)

variable (p : Registration → Bool)

@[simp] theorem select_nil : select p [] = [] := rfl

@[simp] theorem select_append (regs regs' : List Registration) :
    select p (regs ++ regs') = select p regs ++ select p regs' := by
  simp [select]

theorem select_map_under (commits : Bool) (regs : List Registration) :
    select p (regs.map (under commits)) = select (fun r => p (r.under commits)) regs := by
  simp [select, filter_map, comp_def]

theorem filter_select (q : PgStatPendingDroppedStatsItem → Bool)
    (regs : List Registration) :
    (select p regs).filter q = select (fun r => q r.pending && p r) regs := by
  simp [select, filter_map]

/-- A selection is divided by any further condition. -/
theorem select_perm (q : Registration → Bool) (regs : List Registration) :
    (select (fun r => !q r && p r) regs ++ select (fun r => q r && p r) regs).Perm
      (select p regs) := by
  have hsplit := filter_append_perm (fun r => !q r) (regs.filter p)
  simp only [filter_filter, Bool.not_not] at hsplit
  unfold select
  rw [← map_append]
  exact hsplit.map _

end Registration

/-- What an operation registers. -/
def XactOp.registers : XactOp → List PgStatPendingDroppedStatsItem
  | .row _ => []
  | .create item => [{ item := item, isCreate := true }]
  | .drop item => [{ item := item, isCreate := false }]

/-- The registrations made in a body, with the outcomes of its subtransactions. -/
def registrations : XactBody XactOp → List Registration
  | .nil => []
  | .act op rest =>
      op.registers.map (fun pending => { pending := pending, outcomes := [] }) ++
        registrations rest
  | .sub body commits rest =>
      (registrations body).map (Registration.under commits) ++ registrations rest

namespace Backend

open Registration

theorem WellLinked.count_pendAt {s : Backend} (h : s.WellLinked) (op : XactOp) (n : ℕ) :
    (op.count s).pendAt n =
      if n = s.nestLevel then s.pendAt n ++ op.registers else s.pendAt n := by
  have hle : ∀ m ∈ stackLevels s.pgStatXactStack, m ≤ s.nestLevel :=
    fun m hm => (h.bounded m hm).2
  cases op with
  | row op =>
    simp only [XactOp.count, XactOp.registers, append_nil, ite_self]
    rw [op.count_eq]
    split_ifs
    · rfl
    · exact pendAt_linkStack h.sorted hle _ n
    · rfl
  | create item | drop item => exact pendAt_appendDrops h.sorted hle _ n

theorem count_dropped (s : Backend) (op : XactOp) : (op.count s).dropped = s.dropped := by
  cases op with
  | row op => exact op.count_dropped s
  | create item | drop item => rfl

theorem count_nestLevel (s : Backend) (op : XactOp) :
    (op.count s).nestLevel = s.nestLevel := by
  cases op with
  | row op => exact op.count_nestLevel s
  | create item | drop item => rfl

/-- What a part of a transaction does with the registrations made in it: those that
every subtransaction of the part kept are pending at the current level, the created
ones among the others have been dropped, and the enclosing levels are as before. -/
structure Accounts (s s' : Backend) (regs : List Registration) : Prop where
  own : s'.pendAt s.nestLevel = s.pendAt s.nestLevel ++ select (·.allCommitted) regs
  enclosing : ∀ n < s.nestLevel, s'.pendAt n = s.pendAt n
  dropped : s'.dropped.Perm
    (s.dropped ++ select (fun r => !r.allCommitted && r.pending.isCreate) regs)

namespace Accounts

theorem refl (s : Backend) : Accounts s s [] where
  own := by simp
  enclosing _ _ := rfl
  dropped := by simp

theorem trans {s s₁ s₂ : Backend} {regs₁ regs₂ : List Registration}
    (h₁ : Accounts s s₁ regs₁) (h₂ : Accounts s₁ s₂ regs₂)
    (hlevel : s₁.nestLevel = s.nestLevel) : Accounts s s₂ (regs₁ ++ regs₂) where
  own := by
    have hown := h₂.own
    rw [hlevel, h₁.own] at hown
    simp [hown]
  enclosing n hn := (h₂.enclosing n (by omega)).trans (h₁.enclosing n hn)
  dropped := by
    rw [select_append, ← append_assoc]
    exact h₂.dropped.trans (h₁.dropped.append_right _)

theorem count {s : Backend} (h : s.WellLinked) (op : XactOp) :
    Accounts s (op.count s)
      (op.registers.map fun pending => { pending := pending, outcomes := [] }) where
  own := by
    rw [h.count_pendAt]
    simp [select, filter_map, comp_def, allCommitted]
  enclosing n hn := by rw [h.count_pendAt, if_neg hn.ne]
  dropped := by
    rw [count_dropped]
    simp [select, filter_map, comp_def, allCommitted]

/-- A subtransaction: its registrations come under its outcome. -/
theorem sub {s s₁ : Backend} {regs : List Registration} (h : s.WellLinked)
    (hs : 1 ≤ s.nestLevel) (hbody : Accounts s.beginXact s₁ regs) (h₁ : s₁.WellLinked)
    (hlevel : s₁.nestLevel = s.nestLevel + 1) (isCommit : Bool) :
    Accounts s (s₁.endXact isCommit) (regs.map (under isCommit)) := by
  obtain ⟨hpend, hdropped⟩ := h₁.endSub_frame hlevel hs isCommit
  -- the subtransaction starts without registrations of its own
  have hnone : s.beginXact.pendAt (s.nestLevel + 1) = [] :=
    pendAt_of_forall_ne fun m hm => (Nat.lt_succ_of_le (h.bounded m hm).2).ne
  have hinner : s₁.pendAt (s.nestLevel + 1) = select (·.allCommitted) regs := by
    simpa [hnone] using hbody.own
  have houter : ∀ n ≤ s.nestLevel, s₁.pendAt n = s.pendAt n :=
    fun n hn => hbody.enclosing n (Nat.lt_succ_of_le hn)
  have hearlier : s₁.dropped.Perm
      (s.dropped ++ select (fun r => !r.allCommitted && r.pending.isCreate) regs) :=
    hbody.dropped
  refine ⟨?_, fun n hn => ?_, ?_⟩
  · rw [hpend _ le_rfl, houter _ le_rfl, hinner, select_map_under]
    cases isCommit with
    | true => simp
    | false => simp [select]
  · rw [hpend n hn.le, if_neg (by omega), houter n hn.le]
  · rw [hdropped, hinner, select_map_under]
    cases isCommit with
    | true => simpa using hearlier
    | false =>
      refine (hearlier.append_right _).trans ?_
      rw [append_assoc]
      refine List.Perm.append_left _ ?_
      -- an abort drops the created items that the subtransaction had kept so far
      have hall := select_perm (·.pending.isCreate) (·.allCommitted) regs
      simp only [Bool.false_eq_true, if_false, filter_select, under_allCommitted, Bool.and_false,
        Bool.not_false, Bool.true_and, under_pending]
      simp only [Bool.and_comm (Registration.allCommitted _)] at hall
      exact hall

end Accounts

theorem accounts_run (body : XactBody XactOp) {s : Backend} (h : s.WellLinked)
    (hs : 1 ≤ s.nestLevel) :
    Accounts s (body.run (backendMachine XactOp.count) s) (registrations body) := by
  induction body generalizing s with
  | nil => exact Accounts.refl s
  | act op _ ih =>
    have hlevel := count_nestLevel s op
    exact (Accounts.count h op).trans (ih (h.xactOp hs op) (by omega)) hlevel
  | sub body commits _ ihBody ihRest =>
    have hbegin : 1 ≤ s.beginXact.nestLevel := by simp
    obtain ⟨hlinked, hlevel⟩ := wellLinked_run XactOp.count (fun h hs op => h.xactOp hs op)
      count_nestLevel body h.beginXact hbegin
    have hsub := Accounts.sub h hs (ihBody h.beginXact hbegin) hlinked hlevel commits
    have hback := endXact_nestLevel hlevel commits
    have hrest := ihRest (hlinked.endXact (by omega) commits) (hs.trans_eq hback.symm)
    simp only [XactBody.run, backendMachine_leave]
    exact hsub.trans hrest hback

/-- By the end of a transaction the log of drops has grown by the registrations whose
fate asks for it. -/
theorem WellLinked.endXact_run_dropped {s : Backend} (h : s.WellLinked) (hs : s.nestLevel = 0)
    (body : XactBody XactOp) (commits : Bool) :
    (((body.run (backendMachine XactOp.count) s.beginXact).endXact commits).dropped).Perm
      (s.dropped ++ select (·.asksForDrop) ((registrations body).map (under commits))) := by
  have hbegin : s.beginXact.nestLevel = 1 := by simp [hs]
  obtain ⟨hlinked, hlevel⟩ := wellLinked_run XactOp.count (fun h hs op => h.xactOp hs op)
    count_nestLevel body h.beginXact hbegin.ge
  have haccounts := accounts_run body h.beginXact hbegin.ge
  have hown := haccounts.own
  rw [hbegin] at hlevel hown
  have hnone : s.beginXact.pendAt 1 = [] :=
    pendAt_of_forall_ne fun m hm => by
      have := h.bounded m hm
      omega
  rw [hnone, nil_append] at hown
  rw [hlinked.endTop_dropped hlevel, hown, filter_select, select_map_under]
  refine (haccounts.dropped.append_right _).trans ?_
  rw [append_assoc]
  refine List.Perm.append_left _ ?_
  have hall := select_perm (fun r => (r.under commits).asksForDrop) (·.allCommitted)
    (registrations body)
  convert hall using 3
  all_goals
    funext r
    cases hcommitted : r.allCommitted <;> simp [asksForDrop, hcommitted]

end Backend

/-! ### Objects -/

/-- The objects with statistics that an operation leaves. -/
def XactOp.objects (op : XactOp) (objects : Finset XlXactStatsItem) : Finset XlXactStatsItem :=
  match op with
  | .row _ => objects
  | .create item => insert item objects
  | .drop item => objects.erase item

/-- Only objects that exist are dropped. -/
def XactOp.DropsExisting (op : XactOp) (objects : Finset XlXactStatsItem) : Prop :=
  match op with
  | .drop item => item ∈ objects
  | _ => True

/-- The items of the registrations that satisfy a condition. -/
def selectItems (p : Registration → Bool) (regs : List Registration) : List XlXactStatsItem :=
  (Registration.select p regs).map (·.item)

theorem mem_selectItems {p : Registration → Bool} {regs : List Registration}
    {item : XlXactStatsItem} :
    item ∈ selectItems p regs ↔ ∃ r ∈ regs, p r ∧ r.pending.item = item := by
  simp [selectItems, Registration.select, and_assoc]

/-- The objects that a transaction registers as created. -/
def createdItems (body : XactBody XactOp) : List XlXactStatsItem :=
  selectItems (·.pending.isCreate) (registrations body)

/-- The creations that no subtransaction of the body undid. -/
def keptCreates (body : XactBody XactOp) : List XlXactStatsItem :=
  selectItems (fun r => r.pending.isCreate && r.allCommitted) (registrations body)

/-- The drops that no subtransaction of the body undid. -/
def keptDrops (body : XactBody XactOp) : List XlXactStatsItem :=
  selectItems (fun r => !r.pending.isCreate && r.allCommitted) (registrations body)

/-- What the catalogs see to. Dropped objects exist where they are dropped, and the
identifier of a created object is neither in use nor used twice in a transaction. -/
structure CatalogConsistent (objects : Finset XlXactStatsItem) (body : XactBody XactOp) :
    Prop where
  dropsExisting : body.Admissible XactOp.objects XactOp.DropsExisting objects
  createdOnce : (createdItems body).Nodup
  createdFresh : ∀ item ∈ createdItems body, item ∉ objects

section Recursion

variable (op : XactOp) (body rest : XactBody XactOp) (commits : Bool)

theorem selectItems_registrations_sub (p : Registration → Bool) :
    selectItems p (registrations (.sub body commits rest)) =
      selectItems (fun r => p (r.under commits)) (registrations body) ++
        selectItems p (registrations rest) := by
  simp [registrations, selectItems, Registration.select_map_under]

theorem createdItems_sub :
    createdItems (.sub body commits rest) = createdItems body ++ createdItems rest :=
  selectItems_registrations_sub body rest commits _

theorem keptCreates_sub :
    keptCreates (.sub body commits rest) =
      (if commits then keptCreates body else []) ++ keptCreates rest := by
  unfold keptCreates
  rw [selectItems_registrations_sub]
  cases commits <;> simp [selectItems, Registration.select]

theorem keptDrops_sub :
    keptDrops (.sub body commits rest) =
      (if commits then keptDrops body else []) ++ keptDrops rest := by
  unfold keptDrops
  rw [selectItems_registrations_sub]
  cases commits <;> simp [selectItems, Registration.select]

theorem createdItems_act :
    createdItems (.act op rest) =
      (match op with | .create item => [item] | _ => []) ++ createdItems rest := by
  cases op <;> rfl

theorem keptCreates_act :
    keptCreates (.act op rest) =
      (match op with | .create item => [item] | _ => []) ++ keptCreates rest := by
  cases op <;> rfl

theorem keptDrops_act :
    keptDrops (.act op rest) =
      (match op with | .drop item => [item] | _ => []) ++ keptDrops rest := by
  cases op <;> rfl

end Recursion

theorem keptCreates_subset (body : XactBody XactOp) : keptCreates body ⊆ createdItems body := by
  intro _ hitem
  obtain ⟨r, hr, hkept, rfl⟩ := mem_selectItems.mp hitem
  exact mem_selectItems.mpr ⟨r, hr, (Bool.and_eq_true_iff.mp hkept).1, rfl⟩

/-- The objects after a body: those before and those created in it, less those dropped
in it, where each drop is of an object that was there. -/
structure Leaves (objects : Finset XlXactStatsItem) (body : XactBody XactOp) : Prop where
  dropsNodup : (keptDrops body).Nodup
  dropsSubset : ∀ item ∈ keptDrops body, item ∈ objects ∨ item ∈ keptCreates body
  mem_iff : ∀ item, item ∈ body.denote XactOp.objects objects ↔
    (item ∈ objects ∨ item ∈ keptCreates body) ∧ item ∉ keptDrops body

namespace Leaves

variable {objects : Finset XlXactStatsItem} {body rest : XactBody XactOp}

theorem create {item : XlXactStatsItem} (h : Leaves (insert item objects) rest) :
    Leaves objects (.act (.create item) rest) where
  dropsNodup := h.dropsNodup
  dropsSubset other hother := by
    have := h.dropsSubset other hother
    rw [keptCreates_act]
    simp only [Finset.mem_insert, cons_append, mem_cons] at this ⊢
    tauto
  mem_iff other := by
    have := h.mem_iff other
    rw [keptCreates_act, keptDrops_act]
    simp only [XactBody.denote, XactOp.objects, Finset.mem_insert, cons_append,
      nil_append, mem_cons] at this ⊢
    tauto

theorem drop {item : XlXactStatsItem} (hitem : item ∈ objects) (hfresh : item ∉ keptCreates rest)
    (h : Leaves (objects.erase item) rest) : Leaves objects (.act (.drop item) rest) where
  dropsNodup := by
    refine nodup_cons.mpr ⟨fun hagain => ?_, h.dropsNodup⟩
    -- a second drop would find the object neither left over nor created anew
    rcases h.dropsSubset item hagain with hleft | hcreated
    · exact Finset.notMem_erase item objects hleft
    · exact hfresh hcreated
  dropsSubset other hother := by
    rcases mem_cons.mp hother with rfl | hother
    · exact Or.inl hitem
    · exact (h.dropsSubset other hother).imp_left Finset.mem_of_mem_erase
  mem_iff other := by
    have := h.mem_iff other
    rw [keptCreates_act, keptDrops_act]
    simp only [XactBody.denote, XactOp.objects, Finset.mem_erase, cons_append,
      nil_append, mem_cons] at this ⊢
    by_cases heq : other = item
    · subst heq
      tauto
    · tauto

theorem subCommit (hbody : Leaves objects body)
    (hrest : Leaves (body.denote XactOp.objects objects) rest)
    (hfresh : ∀ item ∈ keptCreates rest, item ∉ objects ∧ item ∉ keptCreates body) :
    Leaves objects (.sub body true rest) where
  dropsNodup := by
    rw [keptDrops_sub]
    refine nodup_append'.mpr ⟨hbody.dropsNodup, hrest.dropsNodup, ?_⟩
    intro item hfirst hsecond
    rcases hrest.dropsSubset item hsecond with hleft | hcreated
    · exact ((hbody.mem_iff item).mp hleft).2 hfirst
    · rcases hbody.dropsSubset item hfirst with hthere | hearlier
      · exact (hfresh item hcreated).1 hthere
      · exact (hfresh item hcreated).2 hearlier
  dropsSubset item hitem := by
    rw [keptDrops_sub] at hitem
    rw [keptCreates_sub, mem_append]
    rcases mem_append.mp hitem with hfirst | hsecond
    · exact (hbody.dropsSubset item hfirst).imp_right Or.inl
    · rcases hrest.dropsSubset item hsecond with hleft | hcreated
      · exact ((hbody.mem_iff item).mp hleft).1.imp_right Or.inl
      · exact Or.inr (Or.inr hcreated)
  mem_iff item := by
    have hthen := hrest.mem_iff item
    rw [hbody.mem_iff item] at hthen
    rw [keptCreates_sub, keptDrops_sub]
    have hlater : item ∈ keptCreates rest → item ∉ keptDrops body := fun hcreated hdrop =>
      (hbody.dropsSubset item hdrop).elim (hfresh item hcreated).1 (hfresh item hcreated).2
    refine hthen.trans ?_
    grind

theorem subAbort (hrest : Leaves objects rest) : Leaves objects (.sub body false rest) := by
  refine ⟨?_, ?_, ?_⟩
  · simpa [keptDrops_sub] using hrest.dropsNodup
  · simpa [keptDrops_sub, keptCreates_sub] using hrest.dropsSubset
  · simpa [keptDrops_sub, keptCreates_sub, XactBody.denote] using hrest.mem_iff

end Leaves

theorem CatalogConsistent.leaves {objects : Finset XlXactStatsItem} {body : XactBody XactOp}
    (h : CatalogConsistent objects body) : Leaves objects body := by
  induction body generalizing objects with
  | nil =>
    exact ⟨nodup_nil, by simp [keptDrops, registrations, selectItems],
      by simp [keptDrops, keptCreates, registrations, selectItems, XactBody.denote]⟩
  | act op rest ih =>
    obtain ⟨⟨hop, hrest⟩, honce, hfresh⟩ := h
    rw [createdItems_act] at honce hfresh
    cases op with
    | row =>
      have hleaves := ih ⟨hrest, honce, hfresh⟩
      exact ⟨hleaves.dropsNodup, hleaves.dropsSubset, hleaves.mem_iff⟩
    | create =>
      obtain ⟨hnotin, honce⟩ := nodup_cons.mp honce
      refine Leaves.create (ih ⟨hrest, honce, fun other hother => ?_⟩)
      refine Finset.mem_insert.not.mpr (not_or.mpr ?_)
      exact ⟨fun heq => hnotin (heq ▸ hother), hfresh other (by simp [hother])⟩
    | drop item =>
      refine Leaves.drop hop (fun hcreated => ?_) (ih ⟨hrest, honce, fun other hother herase => ?_⟩)
      · exact hfresh item (keptCreates_subset rest hcreated) hop
      · exact hfresh other hother (Finset.mem_of_mem_erase herase)
  | sub body commits rest ihBody ihRest =>
    obtain ⟨⟨hbody, hrest⟩, honce, hfresh⟩ := h
    rw [createdItems_sub] at honce hfresh
    obtain ⟨honceBody, honceRest, hdisjoint⟩ := nodup_append'.mp honce
    have hleaves := ihBody ⟨hbody, honceBody, fun item hitem =>
      hfresh item (mem_append_left _ hitem)⟩
    cases commits with
    | true =>
      have hnew : ∀ item ∈ createdItems rest, item ∉ objects ∧ item ∉ keptCreates body :=
        fun item hitem => ⟨hfresh item (mem_append_right _ hitem),
          fun hkept => hdisjoint (keptCreates_subset body hkept) hitem⟩
      refine hleaves.subCommit (ihRest ⟨hrest, honceRest, fun item hitem hin => ?_⟩)
        (fun item hitem => hnew item (keptCreates_subset rest hitem))
      exact ((hleaves.mem_iff item).mp hin).1.elim (hnew item hitem).1 (hnew item hitem).2
    | false =>
      exact (ihRest ⟨hrest, honceRest, fun item hitem =>
        hfresh item (mem_append_right _ hitem)⟩).subAbort

theorem CatalogConsistent.nodup_asksForDrop {objects : Finset XlXactStatsItem}
    {body : XactBody XactOp} (h : CatalogConsistent objects body) (commits : Bool) :
    (selectItems (·.asksForDrop)
      ((registrations body).map (Registration.under commits))).Nodup := by
  unfold selectItems
  rw [Registration.select_map_under]
  cases commits with
  | false =>
    simp only [Registration.asksForDrop, Registration.under_pending,
      Registration.under_allCommitted, Bool.and_false, Bool.bne_false]
    exact h.createdOnce
  | true =>
    -- what asks for a drop: the drops kept, and the creations undone in some subtransaction
    have hsplit := (Registration.select_perm (fun r => (r.under true).asksForDrop)
      (·.pending.isCreate) (registrations body)).map (·.item)
    have hcreates := (Registration.select_perm (·.pending.isCreate) (·.allCommitted)
      (registrations body)).map (·.item)
    have hdrop : (fun r : Registration => !r.pending.isCreate && (r.under true).asksForDrop) =
        fun r => !r.pending.isCreate && r.allCommitted := by
      funext r
      cases hcreate : r.pending.isCreate <;> simp [Registration.asksForDrop, hcreate]
    have hundone : (fun r : Registration => r.pending.isCreate && (r.under true).asksForDrop) =
        fun r => !r.allCommitted && r.pending.isCreate := by
      funext r
      cases hcreate : r.pending.isCreate <;> simp [Registration.asksForDrop, hcreate]
    rw [hdrop, hundone, map_append] at hsplit
    rw [map_append] at hcreates
    obtain ⟨honce, -, hdisjoint⟩ := nodup_append'.mp (hcreates.nodup_iff.mpr h.createdOnce)
    refine hsplit.nodup_iff.mp (nodup_append'.mpr ⟨h.leaves.dropsNodup, honce, ?_⟩)
    intro item hdropped hcreated
    rcases h.leaves.dropsSubset item hdropped with hthere | hkept
    · have hmem : item ∈ createdItems body := hcreates.subset (mem_append_left _ hcreated)
      exact h.createdFresh item hmem hthere
    · refine hdisjoint hcreated ?_
      simpa only [keptCreates, selectItems, Bool.and_comm] using hkept

namespace Backend

/-- The registrations dropped in a transaction that starts in the given state. -/
def droppedBy (s : Backend) (body : XactBody XactOp) (commits : Bool) :
    List PgStatPendingDroppedStatsItem :=
  ((body.run (backendMachine XactOp.count) { s with dropped := [] }.beginXact).endXact
    commits).dropped

/-- The registrations of a whole transaction, with the outcomes up to its own. -/
def xactRegistrations (body : XactBody XactOp) (commits : Bool) : List Registration :=
  (registrations body).map (Registration.under commits)

/-- **The fate of an item.** By the end of a transaction, whatever its subtransactions
did, the items dropped are those registered as created under a level that aborted and
those registered as dropped under levels that all committed. Each registration is acted
upon at most once, and no item is dropped twice when the objects are consistent with the
catalogs. -/
theorem droppedBy_fate (s : Backend) (h : s.Reachable) (hs : s.nestLevel = 0)
    (body : XactBody XactOp) (commits : Bool) :
    (∀ item, item ∈ (s.droppedBy body commits).map (·.item) ↔
      (∃ r ∈ xactRegistrations body commits,
        r.pending = { item := item, isCreate := true } ∧ false ∈ r.outcomes) ∨
      (∃ r ∈ xactRegistrations body commits,
        r.pending = { item := item, isCreate := false } ∧ ∀ c ∈ r.outcomes, c = true)) ∧
    (s.droppedBy body commits).Perm
      (((xactRegistrations body commits).filter (·.asksForDrop)).map (·.pending)) ∧
    ∀ objects, CatalogConsistent objects body →
      ((s.droppedBy body commits).map (·.item)).Nodup := by
  have hlinked : { s with dropped := [] }.WellLinked := h.wellLinked
  have hperm : (s.droppedBy body commits).Perm
      (((xactRegistrations body commits).filter (·.asksForDrop)).map (·.pending)) :=
    hlinked.endXact_run_dropped hs body commits
  refine ⟨fun item => ?_, hperm, fun objects hobjects => ?_⟩
  · rw [(hperm.map PgStatPendingDroppedStatsItem.item).mem_iff]
    refine mem_selectItems.trans ?_
    rw [← exists_or]
    refine exists_congr fun r => ?_
    rw [Registration.asksForDrop_iff, and_or_left]
  · exact (hperm.map PgStatPendingDroppedStatsItem.item).nodup_iff.mpr
      (hobjects.nodup_asksForDrop commits)

/-- A table created in a subtransaction that commits, and dropped in a later one that
aborts. -/
def keptTable : XactBody XactOp :=
  .sub (.act (.create sampleItem) .nil) true (.sub (.act (.drop sampleItem) .nil) false .nil)

theorem keptTable_consistent : CatalogConsistent ∅ keptTable where
  dropsExisting := by simp [keptTable, XactBody.Admissible, XactBody.denote, XactOp.objects,
    XactOp.DropsExisting]
  createdOnce := by decide
  createdFresh := by simp

/-- The table is dropped once when the transaction aborts and not at all when it
commits. -/
theorem droppedBy_fate_keptTable :
    sampleItem ∉ ((({} : Backend).droppedBy keptTable true).map (·.item)) ∧
      sampleItem ∈ ((({} : Backend).droppedBy keptTable false).map (·.item)) ∧
      ((({} : Backend).droppedBy keptTable false).map (·.item)).Nodup :=
  have hidle : ({} : Backend).Reachable := .idle rfl rfl fun _ => rfl
  ⟨((droppedBy_fate {} hidle rfl keptTable true).1 sampleItem).not.mpr (by decide),
    ((droppedBy_fate {} hidle rfl keptTable false).1 sampleItem).mpr (by decide),
    (droppedBy_fate {} hidle rfl keptTable false).2.2 ∅ keptTable_consistent⟩

/-- A table that a transaction creates and drops again is dropped although its creating
level committed. -/
theorem created_and_dropped_item_is_dropped :
    let body : XactBody XactOp := .act (.create sampleItem) (.act (.drop sampleItem) .nil)
    sampleItem ∈ (({} : Backend).droppedBy body true).map (·.item) ∧
      ∀ r ∈ xactRegistrations body true, false ∉ r.outcomes := by
  decide

end Backend

end PgCutover.PgStat
