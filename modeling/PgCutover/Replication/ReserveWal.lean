import PgCutover.Lib.Runs
import PgCutover.Replication.SlotWal

/-!
# Reserving WAL while checkpoints remove it

`ReplicationSlotReserveWal` publishes a position and then looks at the last removed segment. A
checkpoint that chose what to remove before the position was published, and removes it after the
look, leaves a slot without its WAL. A reservation that does not overlap that part of a checkpoint
is safe: later checkpoints see the slot, and either keep its WAL or invalidate it.
-/

namespace PgCutover.Replication.SlotWal

open Wal Lib Function

variable {n : ℕ} {c : KeepSettings} {s : SlotCtl n}

/-- The positions of a slot in memory. -/
def SlotCtl.data (s : SlotCtl n) (i : Fin n) : SlotData := (s.slots i).data

theorem SlotCtl.modify_data_self (i : Fin n) (f : Slot → Slot) :
    (s.modify i f).data i = (f (s.slots i)).data := congrArg Slot.data (update_self ..)

/-- From the first `KeepLogSeg` of a checkpoint to the last removal. -/
def Checkpoint.Removing : Checkpoint n → Prop
  | .idle | .guts _ | .keep _ => False
  | _ => True

/-- The actions other than confirmations and crashes. -/
def Action.KeepsPositions : Action n → Prop
  | .confirm .. | .crash .. => False
  | _ => True

/-- No call of `ReplicationSlotReserveWal` or `ReplicationSlotsComputeRequiredLSN` by a backend
overlaps the part of a checkpoint that decides on and removes segments. -/
def SlotCtl.NoOverlap (s : SlotCtl n) : Action n → Prop
  | .reserveWal .. | .computeRequiredLSN _ => ¬ s.checkpoint.Removing
  | .checkpointer => ∀ recptr, s.checkpoint = .keep recptr →
    ∀ k, s.backends k = .idle ∧ s.computing (.backend k) = none
  | _ => True

/-- The slots keep WAL that is there, no call is in progress, and none has reserved WAL. -/
structure SlotCtl.AtRest (c : KeepSettings) (s : SlotCtl n) : Prop where
  redo_le : c.segSize ≤ s.redoRecPtr
  insert_le : s.redoRecPtr ≤ s.insertRecPtr
  kept : ∀ i, (s.data i).Live → c.segSize ≤ (s.data i).restartLsn ∧
    s.removed (xlByteToSeg c.segSize (s.data i).restartLsn) = false
  min_pos : s.replicationSlotMinLSN ≠ invalidXLogRecPtr → c.segSize ≤ s.replicationSlotMinLSN
  computing_eq : ∀ p, s.computing p = none
  backends_eq : ∀ k, s.backends k = .idle
  checkpoint_eq : s.checkpoint = .idle
  reserved_eq : ∀ i, s.reserved i = false
  removed_lt : ∀ seg, s.removed seg = true → seg < xlByteToSeg c.segSize s.redoRecPtr

/-- A slot that has had a position. -/
def SlotData.Placed (d : SlotData) : Prop :=
  d.restartLsn ≠ invalidXLogRecPtr ∨ d.invalidated = true

/-- `KeepLogSeg` for some minimum. -/
def IsCutoff (c : KeepSettings) (redo recptr cutoff : ℕ) : Prop :=
  0 < cutoff ∧ ∃ keep, cutoff = c.keepLogSeg keep recptr (xlByteToSeg c.segSize redo)

/-- The first `i` slots keep no WAL before segment `cutoff`. -/
def KeepFrom (c : KeepSettings) (data : Fin n → SlotData) (cutoff i : ℕ) : Prop :=
  ∀ j : Fin n, j < i → (data j).Live → cutoff ≤ xlByteToSeg c.segSize (data j).restartLsn

/-- The minimum covers the first `i` slots. -/
def Covers (data : Fin n → SlotData) (m i : ℕ) : Prop :=
  ∀ j : Fin n, j < i → (data j).Live → Below m (data j).restartLsn

/-- The minimum that the checkpointer computes, or has computed. -/
def Covered (data : Fin n → SlotData) (minLSN : ℕ) : Option Computing → Prop
  | none => Covers data minLSN n
  | some call => Covers data call.minRequired call.next

def BackendReserves (c : KeepSettings) (data : Fin n → SlotData) (removed : ℕ → Bool) :
    Backend n → Prop
  | .setRestart _ lsn => c.segSize ≤ lsn ∧ removed (xlByteToSeg c.segSize lsn) = false
  | .checkRemoved i | .logSnapshot i => (data i).Placed
  | _ => True

/-- What the checkpointer has found out about the slots. -/
def CheckpointReserves (c : KeepSettings) (data : Fin n → SlotData) (redo minLSN : ℕ)
    (computing : Option Computing) : Checkpoint n → Prop
  | .idle | .guts _ => True
  | .keep recptr => c.segSize ≤ recptr
  | .scan recptr cutoff i _ _ =>
    c.segSize ≤ recptr ∧ IsCutoff c redo recptr cutoff ∧ KeepFrom c data cutoff i
  | .markDirty recptr cutoff _ | .save recptr cutoff _ | .release recptr cutoff _ =>
    c.segSize ≤ recptr ∧ IsCutoff c redo recptr cutoff
  | .keepAgain recptr =>
    c.segSize ≤ recptr ∧
      (∃ cutoff, IsCutoff c redo recptr cutoff ∧ KeepFrom c data cutoff n) ∧
      Covered data minLSN computing
  | .remove segno =>
    segno < xlByteToSeg c.segSize redo ∧ KeepFrom c data (segno + 1) n

/-- The invariant of the runs without overlap. -/
structure Reserves (c : KeepSettings) (s : SlotCtl n) : Prop where
  redo_le : c.segSize ≤ s.redoRecPtr
  insert_le : s.redoRecPtr ≤ s.insertRecPtr
  kept : ∀ i, (s.data i).Live → c.segSize ≤ (s.data i).restartLsn ∧
    s.removed (xlByteToSeg c.segSize (s.data i).restartLsn) = false
  min_pos : s.replicationSlotMinLSN ≠ invalidXLogRecPtr → c.segSize ≤ s.replicationSlotMinLSN
  computing_pos : ∀ p, ∀ call ∈ s.computing p,
    call.minRequired ≠ invalidXLogRecPtr → c.segSize ≤ call.minRequired
  backends : ∀ k, BackendReserves c s.data s.removed (s.backends k)
  reserved : ∀ i, s.reserved i = true → (s.data i).Placed
  removed_lt : ∀ seg, s.removed seg = true → seg < xlByteToSeg c.segSize s.redoRecPtr
  quiet : s.checkpoint.Removing → ∀ k, s.backends k = .idle ∧ s.computing (.backend k) = none
  checkpoint : CheckpointReserves c s.data s.redoRecPtr s.replicationSlotMinLSN
    (s.computing .checkpointer) s.checkpoint

/-- Before the first `KeepLogSeg` the checkpointer knows nothing about the slots. -/
theorem CheckpointReserves.of_not_removing {data data' : Fin n → SlotData}
    {redo redo' minLSN minLSN' : ℕ} {computing computing' : Option Computing}
    {pc : Checkpoint n} (h : CheckpointReserves c data redo minLSN computing pc)
    (hpc : ¬ pc.Removing) : CheckpointReserves c data' redo' minLSN' computing' pc := by
  cases pc with
  | idle | guts | keep => exact h
  | _ => exact absurd trivial hpc

/-- Only the second `KeepLogSeg` depends on the minimum. -/
theorem CheckpointReserves.covered {data : Fin n → SlotData} {redo minLSN minLSN' : ℕ}
    {computing computing' : Option Computing} {pc : Checkpoint n}
    (h : CheckpointReserves c data redo minLSN computing pc)
    (hcovered : Covered data minLSN computing → Covered data minLSN' computing') :
    CheckpointReserves c data redo minLSN' computing' pc := by
  cases pc with
  | keepAgain => exact ⟨h.1, h.2.1, hcovered h.2.2⟩
  | _ => exact h

theorem Covers.require {data : Fin n → SlotData} {m i : ℕ} (h : Covers data m i) (hi : i < n) :
    Covers data ((data ⟨i, hi⟩).require m) (i + 1) := by
  intro j hj hlive
  rcases Nat.lt_succ_iff_lt_or_eq.mp hj with hj | hj
  · exact (h j hj hlive).require _
  · obtain rfl : j = ⟨i, hi⟩ := Fin.ext hj
    exact hlive.below_require m

namespace Reserves

section

variable (h : Reserves c s)
include h

theorem removed_eq_false {lsn : ℕ} (hlsn : s.redoRecPtr ≤ lsn) :
    s.removed (xlByteToSeg c.segSize lsn) = false := by
  by_contra hremoved
  have hlt := h.removed_lt _ (Bool.not_eq_false _ ▸ hremoved)
  exact Nat.not_lt.mpr (xlByteToSeg_mono c.segSize hlsn) hlt

theorem modify (i : Fin n) {f : Slot → Slot}
    (hf : (f (s.slots i)).data = (s.slots i).data) : Reserves c (s.modify i f) := by
  have hdata : (s.modify i f).data = s.data := funext (SlotCtl.update_field Slot.data hf)
  refine
    { h with kept := ?_, backends := ?_, reserved := ?_, checkpoint := ?_ } <;> rw [hdata]
  · exact h.kept
  · exact h.backends
  · exact h.reserved
  · exact h.checkpoint

theorem setBackend (k : ℕ) {b : Backend n}
    (hb : BackendReserves c s.data s.removed b) (hpc : ¬ s.checkpoint.Removing) :
    Reserves c { s with backends := update s.backends k b } :=
  { h with
    backends := (forall_update_iff s.backends fun _ b =>
      BackendReserves c s.data s.removed b).mpr ⟨hb, fun j _ => h.backends j⟩
    quiet := fun hremoving => absurd hremoving hpc }

theorem setComputing (p : Proc) {o : Option Computing} {minLSN : ℕ}
    (ho : ∀ call ∈ o, call.minRequired ≠ invalidXLogRecPtr → c.segSize ≤ call.minRequired)
    (hmin : minLSN ≠ invalidXLogRecPtr → c.segSize ≤ minLSN)
    (hquiet : ∀ k, p = .backend k → ¬ s.checkpoint.Removing)
    (hcheckpoint : CheckpointReserves c s.data s.redoRecPtr minLSN
      (update s.computing p o .checkpointer) s.checkpoint) :
    Reserves c
      { s with replicationSlotMinLSN := minLSN, computing := update s.computing p o } := by
  refine
    { h with min_pos := hmin, computing_pos := ?_, quiet := ?_, checkpoint := hcheckpoint }
  · exact (forall_update_iff s.computing fun _ o => ∀ call ∈ o,
      call.minRequired ≠ invalidXLogRecPtr → c.segSize ≤ call.minRequired).mpr
      ⟨ho, fun q _ => h.computing_pos q⟩
  · intro hremoving k
    have hne : Proc.backend k ≠ p := fun hp => hquiet k hp.symm hremoving
    exact ⟨(h.quiet hremoving k).1, (update_of_ne hne ..).trans (h.quiet hremoving k).2⟩

theorem computeRequiredLSN (k : ℕ) (hpc : ¬ s.checkpoint.Removing) :
    Reserves c (s.computeRequiredLSN (.backend k)) := by
  refine h.setComputing _ (fun call hcall => ?_) h.min_pos (fun _ _ => hpc)
    (h.checkpoint.of_not_removing hpc)
  obtain rfl := Option.mem_some.mp hcall
  exact fun hm => absurd rfl hm

theorem computeStep (p : Proc) : Reserves c (s.computeStep p) := by
  rw [SlotCtl.computeStep]
  cases hcall : s.computing p with
  | none => exact h
  | some call =>
    obtain ⟨next, m⟩ := call
    have hpos := h.computing_pos p _ hcall
    have hquiet (k : ℕ) (hp : p = .backend k) : ¬ s.checkpoint.Removing := by
      subst hp
      exact fun hremoving => Option.some_ne_none _ (hcall.symm.trans (h.quiet hremoving k).2)
    -- what the step does to the minimum the checkpointer computes
    have hcheckpoint (minLSN : ℕ) (o : Option Computing)
        (ho : Covers s.data m next → Covered s.data minLSN o) :
        CheckpointReserves c s.data s.redoRecPtr minLSN (update s.computing p o .checkpointer)
          s.checkpoint := by
      cases p with
      | backend k => exact h.checkpoint.of_not_removing (hquiet k rfl)
      | checkpointer =>
        refine h.checkpoint.covered fun hcovered => ?_
        rw [hcall] at hcovered
        exact ho hcovered
    dsimp only
    split_ifs with hnext
    · refine h.setComputing p (fun call hcall' => ?_) h.min_pos hquiet
        (hcheckpoint _ _ fun hcovers => hcovers.require hnext)
      obtain rfl := Option.mem_some.mp hcall'
      exact SlotData.le_require hpos fun hlive => (h.kept ⟨next, hnext⟩ hlive).1
    · refine h.setComputing p nofun hpos hquiet (hcheckpoint _ _ fun hcovers j _ => ?_)
      exact hcovers j (Nat.lt_of_lt_of_le j.isLt (Nat.not_lt.mp hnext))

theorem saveSlotToPath (p : Proc) (i : Fin n) :
    Reserves c (s.saveSlotToPath p i) := by
  have h' : Reserves c (s.modify i fun slot => { slot with justDirtied := false }) :=
    h.modify i rfl
  rw [SlotCtl.saveSlotToPath]
  split_ifs
  · exact { h' with }
  · exact h'

theorem saveStep (p : Proc) : Reserves c (s.saveStep p) := by
  rw [SlotCtl.saveStep]
  cases s.saving p with
  | none => exact h
  | some saving =>
    cases saving with
    | waiting i =>
      dsimp only
      split_ifs
      · exact { h.modify i (f := fun slot => { slot with ioInProgress := some p }) rfl with }
      · exact h
    | copied i cp => exact { h.modify i (f := fun slot => { slot with disk := cp }) rfl with }
    | renamed i =>
      let f (slot : Slot) : Slot :=
        { slot with dirty := if slot.justDirtied then slot.dirty else false, ioInProgress := none }
      exact { h.modify i (f := f) rfl with }

/-- A slot gets a position whose WAL is there, or is invalidated. -/
theorem setData (i : Fin n) {slot : Slot} {pc : Checkpoint n}
    (hplaced : slot.data.Placed)
    (hkept : slot.data.Live → c.segSize ≤ slot.data.restartLsn ∧
      s.removed (xlByteToSeg c.segSize slot.data.restartLsn) = false)
    (hquiet : pc.Removing → ∀ k, s.backends k = .idle ∧ s.computing (.backend k) = none)
    (hcheckpoint : CheckpointReserves c (update s.data i slot.data) s.redoRecPtr
      s.replicationSlotMinLSN (s.computing .checkpointer) pc) :
    Reserves c { s with slots := update s.slots i slot, checkpoint := pc } := by
  have hdata : { s with slots := update s.slots i slot, checkpoint := pc }.data =
      update s.data i slot.data := by
    funext j
    exact apply_update (fun _ => Slot.data) s.slots i slot j
  have hmono (j : Fin n) (hj : (s.data j).Placed) : (update s.data i slot.data j).Placed := by
    by_cases hji : j = i
    · subst hji
      rw [update_self]
      exact hplaced
    · rw [update_of_ne hji]
      exact hj
  refine { h with kept := ?_, backends := ?_, reserved := ?_, quiet := hquiet, checkpoint := ?_ }
    <;> rw [hdata]
  · exact (forall_update_iff s.data fun _ d => d.Live → c.segSize ≤ d.restartLsn ∧
      s.removed (xlByteToSeg c.segSize d.restartLsn) = false).mpr ⟨hkept, fun j _ => h.kept j⟩
  · intro k
    have hk := h.backends k
    cases hb : s.backends k with
    | checkRemoved j | logSnapshot j =>
      rw [hb] at hk
      exact hmono j hk
    | _ => rw [hb] at hk; exact hk
  · exact fun j hj => hmono j (h.reserved j hj)
  · exact hcheckpoint

theorem reserveReturn (k : ℕ) {i : Fin n} (hi : (s.data i).Placed)
    (hpc : ¬ s.checkpoint.Removing) : Reserves c (s.reserveReturn k i) :=
  { h.setBackend k trivial hpc (b := .idle) with
    reserved := (forall_update_iff s.reserved fun i b => b = true → (s.data i).Placed).mpr
      ⟨fun _ => hi, fun j _ => h.reserved j⟩ }

theorem backendStep (k : ℕ) : Reserves c (s.backendStep c k) := by
  have hk := h.backends k
  have hpc (hidle : s.backends k ≠ .idle) : ¬ s.checkpoint.Removing := fun hremoving =>
    hidle (h.quiet hremoving k).1
  rw [SlotCtl.backendStep]
  cases hb : s.backends k with rw [hb] at hk
  | idle => exact h
  | markDirty i =>
    have hpc := hpc (by rw [hb]; nofun)
    have hmarked : Reserves c ((s.markDirty i).computeRequiredLSN (.backend k)) :=
      (h.modify i rfl).computeRequiredLSN k hpc
    exact hmarked.setBackend k trivial hpc
  | readPosition i =>
    refine h.setBackend k ?_ (hpc (by rw [hb]; nofun))
    have hle : s.redoRecPtr ≤ if (s.slots i).logical then s.insertRecPtr else s.redoRecPtr :=
      iteInduction (fun _ => h.insert_le) fun _ => Nat.le_refl _
    exact ⟨Nat.le_trans h.redo_le hle, h.removed_eq_false hle⟩
  | setRestart i lsn =>
    have hpc := hpc (by rw [hb]; nofun)
    have hlsn : lsn ≠ invalidXLogRecPtr :=
      Nat.ne_of_gt (Nat.lt_of_lt_of_le c.segSize_pos hk.1)
    have hset : Reserves c (s.modify i fun slot => { slot with data.restartLsn := lsn }) :=
      h.setData i (.inl hlsn) (fun _ => hk) h.quiet (h.checkpoint.of_not_removing hpc)
    have hplaced :
        ((s.modify i fun slot => { slot with data.restartLsn := lsn }).data i).Placed := by
      rw [SlotCtl.modify_data_self]
      exact .inl hlsn
    exact (hset.computeRequiredLSN k hpc).setBackend k hplaced hpc
  | checkRemoved =>
    have hpc := hpc (by rw [hb]; nofun)
    dsimp only
    split_ifs
    · exact h.setBackend k hk hpc
    · exact h.reserveReturn k hk hpc
    · exact h.setBackend k trivial hpc
  | logSnapshot =>
    exact h.reserveReturn k hk (hpc (by rw [hb]; nofun))

/-- A slot that the scan passes keeps no WAL before the cutoff. -/
theorem scanSlot {recptr cutoff i : ℕ} {hi : i < n} {invalidated : Bool}
    {initial : Option ℕ} (hpc : s.checkpoint = .scan recptr cutoff i invalidated initial) :
    Reserves c (s.scanSlot c recptr cutoff ⟨i, hi⟩ invalidated initial) := by
  have hquiet := h.quiet (by rw [hpc]; trivial)
  obtain ⟨hrecptr, hcutoff, hfrom⟩ : CheckpointReserves c s.data s.redoRecPtr _ _ (.scan ..) :=
    hpc ▸ h.checkpoint
  rw [SlotCtl.scanSlot]
  split_ifs with hobsolete hactive hinitial
  · exact h.setData _ (.inr rfl) (fun hlive => nomatch hlive.1) (fun _ => hquiet)
      ⟨hrecptr, hcutoff⟩
  · exact { h with quiet := fun _ => hquiet, checkpoint := ⟨hrecptr, hcutoff, hfrom⟩ }
  · refine { h with
      quiet := fun _ => hquiet, checkpoint := ⟨hrecptr, hcutoff, fun j hj hlive => ?_⟩ }
    rcases Nat.lt_succ_iff_lt_or_eq.mp hj with hj | hj
    · exact hfrom j hj hlive
    · obtain rfl : j = ⟨i, hi⟩ := Fin.ext hj
      rw [hinitial] at hobsolete
      have hlsn := Nat.not_lt.mp fun hlt => hobsolete ⟨hlive.1, hlive.2, hlt⟩
      exact (Nat.le_div_iff_mul_le c.segSize_pos).mpr hlsn
  · exact
      { h with
        quiet := fun _ => hquiet
        checkpoint := ⟨hrecptr, hcutoff, fun j hj => absurd hj (Nat.not_lt_zero _)⟩ }

theorem keepLogSeg_pos {recptr : ℕ} (hrecptr : c.segSize ≤ recptr) :
    0 < c.keepLogSeg s.replicationSlotMinLSN recptr (xlByteToSeg c.segSize s.redoRecPtr) :=
  KeepSettings.keepLogSeg_pos h.min_pos hrecptr (Nat.div_pos h.redo_le c.segSize_pos)

/-- What is removed is before the redo position and before what the slots keep. -/
theorem remove {cutoff : ℕ} (hpos : 0 < cutoff)
    (hredo : cutoff ≤ xlByteToSeg c.segSize s.redoRecPtr) (hfrom : KeepFrom c s.data cutoff n)
    (hquiet : ∀ k, s.backends k = .idle ∧ s.computing (.backend k) = none) :
    Reserves c { s with checkpoint := .remove (SlotCtl.lastSegToRemove cutoff) } := by
  have hlast : SlotCtl.lastSegToRemove cutoff + 1 = cutoff := by
    rw [SlotCtl.lastSegToRemove, if_neg (Nat.ne_of_gt hpos)]
    exact Nat.sub_add_cancel hpos
  refine { h with quiet := fun _ => hquiet, checkpoint := ⟨?_, ?_⟩ }
  · exact Nat.lt_of_lt_of_le (hlast ▸ Nat.lt_succ_self _) hredo
  · rw [hlast]
    exact hfrom

/-- The second `KeepLogSeg` keeps the WAL of the slots: the new minimum does, or the first one
already had to give way to `max_slot_wal_keep_size`. -/
theorem keepAgain {recptr cutoff : ℕ}
    (hcutoff : IsCutoff c s.redoRecPtr recptr cutoff) (hfrom : KeepFrom c s.data cutoff n)
    (hcovers : Covers s.data s.replicationSlotMinLSN n) :
    KeepFrom c s.data
      (c.keepLogSeg s.replicationSlotMinLSN recptr (xlByteToSeg c.segSize s.redoRecPtr)) n := by
  intro j hj hlive
  obtain ⟨_, keep, rfl⟩ := hcutoff
  have hbelow := hcovers j hj hlive
  have hseg : 0 < xlByteToSeg c.segSize (s.data j).restartLsn :=
    Nat.div_pos (h.kept j hlive).1 c.segSize_pos
  rcases KeepSettings.keepLogSeg_le hbelow.1 hbelow.2 hseg recptr _ keep with hle | ⟨_, hle⟩
  · exact hle
  · exact Nat.le_trans hle (hfrom j hj hlive)

theorem checkpointerStep (hreturned : s.computing .checkpointer = none)
    (hno : s.NoOverlap .checkpointer) : Reserves c (s.checkpointerStep c) := by
  have hcheckpoint := h.checkpoint
  have hquiet := h.quiet
  rw [SlotCtl.checkpointerStep]
  cases hpc : s.checkpoint with
  | idle => exact h
  | guts i =>
    dsimp only
    split_ifs with hi
    · exact { h.saveSlotToPath .checkpointer ⟨i, hi⟩ with quiet := nofun, checkpoint := trivial }
    · exact { h with quiet := nofun, checkpoint := Nat.le_trans h.redo_le h.insert_le }
  | keep recptr =>
    rw [hpc] at hcheckpoint
    exact
      { h with
        quiet := fun _ => hno recptr hpc
        checkpoint := ⟨hcheckpoint, ⟨h.keepLogSeg_pos hcheckpoint, _, rfl⟩,
          fun j hj => absurd hj (Nat.not_lt_zero _)⟩ }
  | scan _ cutoff i =>
    rw [hpc] at hcheckpoint hquiet
    obtain ⟨hrecptr, hcutoff, hfrom⟩ := hcheckpoint
    dsimp only
    by_cases hi : i < n
    · rw [dif_pos hi]
      exact h.scanSlot hpc
    have hfrom : KeepFrom c s.data cutoff n := fun j hj =>
      hfrom j (Nat.lt_of_lt_of_le hj (Nat.not_lt.mp hi))
    split_ifs
    · have hcovered : Covered s.data s.replicationSlotMinLSN
          ((s.computeRequiredLSN .checkpointer).computing .checkpointer) := by
        exact fun j hj => absurd hj (Nat.not_lt_zero _)
      have hstarted : Reserves c (s.computeRequiredLSN .checkpointer) :=
        h.setComputing _ (fun call hcall hm => absurd (Option.mem_some.mp hcall ▸ rfl) hm) h.min_pos
          nofun (h.checkpoint.covered fun _ => hcovered)
      exact
        { hstarted with
          quiet := fun _ => hstarted.quiet (by rw [SlotCtl.computeRequiredLSN, hpc]; trivial)
          checkpoint := ⟨hrecptr, ⟨cutoff, hcutoff, hfrom⟩, hcovered⟩ }
    · obtain ⟨hpos, _, rfl⟩ := hcutoff
      exact h.remove hpos (KeepSettings.keepLogSeg_le_logSegNo ..) hfrom (hquiet trivial)
  | markDirty _ _ i =>
    rw [hpc] at hcheckpoint hquiet
    have hmarked : Reserves c (s.markDirty i) := h.modify i rfl
    exact { hmarked with quiet := fun _ => hquiet trivial, checkpoint := hcheckpoint }
  | save _ _ i =>
    rw [hpc] at hcheckpoint hquiet
    have hsaved := h.saveSlotToPath .checkpointer i
    obtain ⟨_, _, heq⟩ := SlotCtl.saveSlotToPath_eq (s := s) .checkpointer i
    dsimp only
    rw [heq] at hsaved ⊢
    exact { hsaved with quiet := fun _ => hquiet trivial, checkpoint := hcheckpoint }
  | release _ _ i =>
    rw [hpc] at hcheckpoint hquiet
    have hreleased := h.modify i (f := fun slot => { slot with activePid := none }) rfl
    exact
      { hreleased with
        quiet := fun _ => hquiet trivial
        checkpoint := ⟨hcheckpoint.1, hcheckpoint.2, fun j hj => absurd hj (Nat.not_lt_zero _)⟩ }
  | keepAgain =>
    rw [hpc] at hcheckpoint hquiet
    obtain ⟨hrecptr, ⟨_, hcutoff, hfrom⟩, hcovered⟩ := hcheckpoint
    rw [hreturned] at hcovered
    exact h.remove (h.keepLogSeg_pos hrecptr) (KeepSettings.keepLogSeg_le_logSegNo ..)
      (h.keepAgain hcutoff hfrom hcovered) (hquiet trivial)
  | remove => exact { h with quiet := nofun, checkpoint := trivial }

theorem removeFile (seg : ℕ) : Reserves c (s.removeFile seg) := by
  have hcheckpoint := h.checkpoint
  have hquiet := h.quiet
  rw [SlotCtl.removeFile]
  cases hpc : s.checkpoint with
  | remove =>
    rw [hpc] at hcheckpoint hquiet
    obtain ⟨hredo, hfrom⟩ := hcheckpoint
    dsimp only
    split_ifs with hseg
    · refine
        { h with
          kept := fun i hlive => ⟨(h.kept i hlive).1, ?_⟩
          backends := fun k => ?_
          removed_lt := ?_
          quiet := hquiet
          checkpoint := ⟨hredo, hfrom⟩ }
      · have hne : xlByteToSeg c.segSize (s.data i).restartLsn ≠ seg :=
          Nat.ne_of_gt (Nat.lt_of_le_of_lt hseg (hfrom i i.isLt hlive))
        exact (update_of_ne hne ..).trans (h.kept i hlive).2
      · show BackendReserves c _ _ (s.backends k)
        rw [(hquiet trivial k).1]
        trivial
      · exact (forall_update_iff s.removed fun seg b => b = true → seg < _).mpr
          ⟨fun _ => Nat.lt_of_le_of_lt hseg hredo, fun seg _ => h.removed_lt seg⟩
    · exact h
  | _ => exact h

omit h in
theorem of_atRest (hs : s.AtRest c) : Reserves c s where
  redo_le := hs.redo_le
  insert_le := hs.insert_le
  kept := hs.kept
  min_pos := hs.min_pos
  computing_pos p := by
    rw [hs.computing_eq p]
    nofun
  backends k := by
    rw [hs.backends_eq k]
    trivial
  reserved i hi := nomatch (hs.reserved_eq i).symm.trans hi
  removed_lt := hs.removed_lt
  quiet _ k := ⟨hs.backends_eq k, hs.computing_eq _⟩
  checkpoint := by
    rw [hs.checkpoint_eq]
    trivial

theorem step (a : Action n) (ha : s.NoOverlap a ∧ a.KeepsPositions) :
    Reserves c (s.step c a) := by
  cases a with
  | insertWal => exact { h with insert_le := Nat.le_trans h.insert_le (Nat.le_add_right ..) }
  | acquire k i | release k i => exact iteInduction (fun _ => h.modify i rfl) fun _ => h
  | reserveWal k => exact iteInduction (fun _ => h.setBackend k trivial ha.1) fun _ => h
  | computeRequiredLSN k => exact iteInduction (fun _ => h.computeRequiredLSN k ha.1) fun _ => h
  | saveSlot k i => exact iteInduction (fun _ => h.saveSlotToPath _ i) fun _ => h
  | compute p => exact h.computeStep p
  | save p => exact h.saveStep p
  | backend k => exact iteInduction (fun _ => h.backendStep k) fun _ => h
  | beginCheckpoint =>
    rw [SlotCtl.step]
    cases hpc : s.checkpoint with
    | idle =>
      exact
        { h with
          redo_le := Nat.le_trans h.redo_le h.insert_le
          insert_le := Nat.le_refl _
          removed_lt := fun seg hseg =>
            Nat.lt_of_lt_of_le (h.removed_lt seg hseg) (xlByteToSeg_mono _ h.insert_le)
          quiet := nofun
          checkpoint := trivial }
    | _ => exact h
  | checkpointer =>
    exact iteInduction (fun hreturned => h.checkpointerStep hreturned.1 ha.1) fun _ => h
  | removeFile seg => exact h.removeFile seg
  | confirm | crash => exact ha.2.elim

end

end Reserves

/-- If no reservation overlaps the part of a checkpoint that removes WAL, then in every state the
WAL of a slot that has been reserved is there, or the slot has been invalidated. -/
theorem SlotCtl.reserved_kept (hs : s.AtRest c) {l : List (Action n)}
    (hl : ∀ a ∈ l, a.KeepsPositions) (hno : EveryStep (SlotCtl.step c) SlotCtl.NoOverlap s l)
    (i : Fin n) (hreserved : (run (SlotCtl.step c) s l).reserved i = true)
    (hvalid : ((run (SlotCtl.step c) s l).slots i).data.invalidated = false) :
    ((run (SlotCtl.step c) s l).slots i).data.restartLsn ≠ invalidXLogRecPtr ∧
      (run (SlotCtl.step c) s l).removed (xlByteToSeg c.segSize
        ((run (SlotCtl.step c) s l).slots i).data.restartLsn) = false := by
  have h : Reserves c (run (SlotCtl.step c) s l) :=
    run_invariant (fun _ a h ha => h.step a ha) (Reserves.of_atRest hs) (hno.and_forall hl)
  have hplaced : ((run (SlotCtl.step c) s l).slots i).data.restartLsn ≠ invalidXLogRecPtr :=
    (h.reserved i hreserved).resolve_right fun hinvalid => nomatch hvalid.symm.trans hinvalid
  exact ⟨hplaced, (h.kept i ⟨hvalid, hplaced⟩).2⟩

/-- Segments of 16 MB; slots keep at most three segments. -/
def cappedSegments : KeepSettings := { defaultSegments with maxSlotWalKeepSegs := some 3 }

/-- A server with a new physical slot, the last checkpoint at position 0/1000000. -/
def newSlot : SlotCtl 1 where
  slots _ :=
    { logical := false, data := ⟨invalidXLogRecPtr, false⟩, dirty := false, justDirtied := false,
      activePid := none, ioInProgress := none, disk := ⟨invalidXLogRecPtr, false⟩ }
  replicationSlotMinLSN := invalidXLogRecPtr
  lastRemovedSegNo := 0
  redoRecPtr := 0x1000000
  insertRecPtr := 0x3000000
  removed _ := false
  computing _ := none
  saving _ := none
  backends _ := .idle
  checkpoint := .idle
  reserved _ := false

theorem newSlot_atRest : newSlot.AtRest cappedSegments where
  redo_le := by decide
  insert_le := by decide
  kept _ hlive := absurd rfl hlive.2
  min_pos hmin := absurd rfl hmin
  computing_eq _ := rfl
  backends_eq _ := rfl
  checkpoint_eq := rfl
  reserved_eq _ := rfl
  removed_lt _ hremoved := nomatch hremoved

/-- A reservation and then a checkpoint, which keeps segment 1 for the slot. -/
def reserveThenCheckpoint : List (Action 1) :=
  [.acquire 0 onlySlot, .reserveWal 0 onlySlot, .backend 0, .backend 0, .compute (.backend 0),
    .compute (.backend 0), .backend 0, .beginCheckpoint, .checkpointer, .checkpointer,
    .checkpointer, .checkpointer, .checkpointer, .removeFile 0, .removeFile 1]

theorem reserved_kept_reserveThenCheckpoint :
    ((run (SlotCtl.step cappedSegments) newSlot reserveThenCheckpoint).slots
        0).data.restartLsn ≠ invalidXLogRecPtr ∧
      (run (SlotCtl.step cappedSegments) newSlot reserveThenCheckpoint).removed
        (xlByteToSeg cappedSegments.segSize ((run (SlotCtl.step cappedSegments) newSlot
          reserveThenCheckpoint).slots 0).data.restartLsn) = false := by
  refine SlotCtl.reserved_kept newSlot_atRest ?_ ?_ 0 (by decide) (by decide)
  · simp [reserveThenCheckpoint, Action.KeepsPositions]
  · refine ⟨trivial, nofun, trivial, trivial, trivial, trivial, trivial, trivial, nofun, nofun,
      ?_, nofun, nofun, trivial, trivial, trivial⟩
    intro _ _ k
    cases k with
    | zero | succ k => exact ⟨rfl, rfl⟩

/-- The slot reads position 0/1000000. A checkpoint begins at position 0/5000000, and finds no slot that keeps
segment 1. The slot publishes its position, finds nothing removed and returns. Then the checkpoint
removes segment 1. -/
theorem not_kept_reserveDuringCheckpoint :
    newSlot.AtRest cappedSegments ∧
      let s := run (SlotCtl.step cappedSegments) newSlot
        [.acquire 0 0, .reserveWal 0 0, .backend 0, .insertWal 0x2000000, .beginCheckpoint,
          .checkpointer, .checkpointer, .checkpointer, .checkpointer, .checkpointer, .backend 0,
          .compute (.backend 0), .compute (.backend 0), .backend 0, .removeFile 1]
      s.reserved 0 = true ∧ (s.slots 0).data = ⟨0x1000000, false⟩ ∧
        s.removed (xlByteToSeg cappedSegments.segSize (s.slots 0).data.restartLsn) = true :=
  ⟨newSlot_atRest, by decide⟩

end PgCutover.Replication.SlotWal
