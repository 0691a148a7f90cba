import PgCutover.Lib.Runs
import PgCutover.Replication.SlotWal

/-!
# The WAL behind the slots' state files

After a crash a slot starts again from the `restart_lsn` in its state file, but a checkpoint keeps
the WAL that the slots in memory require. A confirmation that is taken into account before it is
saved lets a checkpoint remove WAL that the state file still asks for.
-/

namespace PgCutover.Replication.SlotWal

open Wal Lib Function

variable {n : ℕ} {c : KeepSettings} {s : SlotCtl n}

/-- All WAL from the `restart_lsn` in each slot's state file is there. -/
def SlotCtl.DiskRetained (c : KeepSettings) (s : SlotCtl n) : Prop :=
  ∀ i, (s.slots i).disk.Live →
    ∀ seg, xlByteToSeg c.segSize (s.slots i).disk.restartLsn ≤ seg → s.removed seg = false

/-- The state after a start of the server: the slots are the ones on disk and their WAL is
there. -/
structure SlotCtl.Started (c : KeepSettings) (s : SlotCtl n) : Prop where
  redo_le : c.segSize ≤ s.redoRecPtr
  insert_le : s.redoRecPtr ≤ s.insertRecPtr
  segSize_le : ∀ i, (s.slots i).disk.Live → c.segSize ≤ (s.slots i).disk.restartLsn
  data_eq : ∀ i, (s.slots i).data = (s.slots i).disk
  min_eq : s.replicationSlotMinLSN = SlotCtl.requiredLSN fun i => (s.slots i).disk
  computing_eq : ∀ p, s.computing p = none
  saving_eq : ∀ p, s.saving p = none
  backends_eq : ∀ k, s.backends k = .idle
  checkpoint_eq : s.checkpoint = .idle
  diskRetained : s.DiskRetained c

/-- The actions other than the reservation of WAL for a slot. -/
def Action.KeepsReservations : Action n → Prop
  | .reserveWal _ _ => False
  | _ => True

/-- A confirmation moves a valid position forward, and a slot that the minimum is computed from
is as in its state file. -/
def SlotCtl.SavesBeforeComputing (s : SlotCtl n) : Action n → Prop
  | .confirm _ i lsn =>
    (s.slots i).data.restartLsn ≠ invalidXLogRecPtr ∧ (s.slots i).data.restartLsn ≤ lsn
  | .compute p => ∀ next minRequired, s.computing p = some ⟨next, minRequired⟩ →
    ∀ h : next < n, (s.slots ⟨next, h⟩).data.restartLsn = (s.slots ⟨next, h⟩).disk.restartLsn
  | _ => True

/-- The positions of two copies of a slot, the first taken before the second. -/
structure Ordered (c : KeepSettings) (d e : SlotData) : Prop where
  live_iff : d.Live ↔ e.Live
  segSize_le : d.Live → c.segSize ≤ d.restartLsn
  le : d.Live → d.restartLsn ≤ e.restartLsn

theorem Ordered.refl {d : SlotData} (h : d.Live → c.segSize ≤ d.restartLsn) : Ordered c d d :=
  ⟨Iff.rfl, h, fun _ => Nat.le_refl _⟩

theorem Ordered.right {d e : SlotData} (h : Ordered c d e) : Ordered c e e :=
  .refl fun he => Nat.le_trans (h.segSize_le (h.live_iff.mpr he)) (h.le (h.live_iff.mpr he))

/-- A bound that every slot's state file meets. -/
def OnDisk (slots : Fin n → Slot) (P : ℕ → Prop) : Prop :=
  ∀ i, (slots i).disk.Live → P (slots i).disk.restartLsn

/-- The checkpointer removes no WAL that a state file asks for. -/
def CheckpointRetains (c : KeepSettings) (slots : Fin n → Slot) : Checkpoint n → Prop
  | .idle | .guts _ => True
  | .keep recptr => c.segSize ≤ recptr
  | .scan _ cutoff _ invalidated initial =>
    invalidated = false ∧ initial = none ∧ 0 < cutoff ∧
      OnDisk slots fun lsn => cutoff ≤ xlByteToSeg c.segSize lsn
  | .remove segno => OnDisk slots fun lsn => segno < xlByteToSeg c.segSize lsn
  -- no slot is invalidated
  | .markDirty .. | .save .. | .release .. | .keepAgain _ => False

/-- The minimum of the slots read so far is not after their state files. -/
structure ComputingRetains (c : KeepSettings) (slots : Fin n → Slot) (call : Computing) :
    Prop where
  pos : call.minRequired ≠ invalidXLogRecPtr → c.segSize ≤ call.minRequired
  below : ∀ i : Fin n, i < call.next → (slots i).disk.Live →
    Below call.minRequired (slots i).disk.restartLsn

/-- A process that writes a state file holds the slot's lock, and its copy is between the state
file and the slot. -/
def SavingRetains (c : KeepSettings) (slots : Fin n → Slot) (p : Proc) :
    Option (Saving n) → Prop
  | some (.copied i cp) =>
    (slots i).ioInProgress = some p ∧ Ordered c (slots i).disk cp ∧ Ordered c cp (slots i).data
  | some (.renamed i) => (slots i).ioInProgress = some p
  | _ => True

/-- The invariant of the runs that save before they compute. -/
structure Retains (c : KeepSettings) (s : SlotCtl n) : Prop where
  redo_le : c.segSize ≤ s.redoRecPtr
  insert_le : s.redoRecPtr ≤ s.insertRecPtr
  stored : ∀ i, Ordered c (s.slots i).disk (s.slots i).data
  saving : ∀ p, SavingRetains c s.slots p (s.saving p)
  min_pos : s.replicationSlotMinLSN ≠ invalidXLogRecPtr → c.segSize ≤ s.replicationSlotMinLSN
  min_below : OnDisk s.slots (Below s.replicationSlotMinLSN)
  computing : ∀ p, ∀ call ∈ s.computing p, ComputingRetains c s.slots call
  backends : ∀ k, s.backends k = .idle ∨ ∃ i, s.backends k = .markDirty i
  checkpoint : CheckpointRetains c s.slots s.checkpoint
  diskRetained : s.DiskRetained c

theorem Ordered.left {d e : SlotData} (h : Ordered c d e) : Ordered c d d := .refl h.segSize_le

section Forward

variable {slots slots' : Fin n → Slot}
  (hforward : ∀ i, Ordered c (slots i).disk (slots' i).disk)

include hforward

/-- The state files move forward only, so a lower bound of them stays one. -/
theorem OnDisk.forward {P : ℕ → Prop} (hP : ∀ a b, a ≤ b → P a → P b) (h : OnDisk slots P) :
    OnDisk slots' P := by
  intro i hlive
  have hlive := (hforward i).live_iff.mpr hlive
  exact hP _ _ ((hforward i).le hlive) (h i hlive)

theorem CheckpointRetains.forward {pc : Checkpoint n} (h : CheckpointRetains c slots pc) :
    CheckpointRetains c slots' pc := by
  cases pc with
  | scan =>
    obtain ⟨hinvalidated, hinitial, hpos, hcutoff⟩ := h
    exact ⟨hinvalidated, hinitial, hpos,
      hcutoff.forward hforward fun _ _ hab ha => Nat.le_trans ha (xlByteToSeg_mono _ hab)⟩
  | remove =>
    exact OnDisk.forward hforward
      (fun _ _ hab ha => Nat.lt_of_lt_of_le ha (xlByteToSeg_mono _ hab)) h
  | _ => exact h

theorem ComputingRetains.forward {call : Computing} (h : ComputingRetains c slots call) :
    ComputingRetains c slots' call := by
  refine ⟨h.pos, fun i hi hlive => ?_⟩
  have hlive := (hforward i).live_iff.mpr hlive
  have hbelow := h.below i hi hlive
  exact ⟨hbelow.1, Nat.le_trans hbelow.2 ((hforward i).le hlive)⟩

end Forward

theorem SavingRetains.update_other {slots : Fin n → Slot} {p : Proc} {o : Option (Saving n)}
    (h : SavingRetains c slots p o) {i : Fin n} (hio : (slots i).ioInProgress ≠ some p)
    (slot : Slot) : SavingRetains c (update slots i slot) p o := by
  have hne (j : Fin n) (hj : (slots j).ioInProgress = some p) : j ≠ i := by
    rintro rfl
    exact hio hj
  match o with
  | none | some (.waiting _) => trivial
  | some (.copied j cp) =>
    rw [SavingRetains, update_of_ne (hne j h.1)]
    exact h
  | some (.renamed j) =>
    rw [SavingRetains, update_of_ne (hne j h)]
    exact h

theorem SavingRetains.forward {slots slots' : Fin n → Slot} {p : Proc} {o : Option (Saving n)}
    (h : SavingRetains c slots p o)
    (hio : ∀ i, (slots' i).ioInProgress = (slots i).ioInProgress)
    (hdisk : ∀ i, (slots' i).disk = (slots i).disk)
    (hdata : ∀ i d, Ordered c d (slots i).data → Ordered c d (slots' i).data) :
    SavingRetains c slots' p o := by
  match o with
  | none | some (.waiting _) => trivial
  | some (.copied j cp) =>
    rw [SavingRetains, hio j, hdisk j]
    exact ⟨h.1, h.2.1, hdata j cp h.2.2⟩
  | some (.renamed j) =>
    rw [SavingRetains, hio j]
    exact h

theorem Ordered.confirm {d e : SlotData} (h : Ordered c d e) {lsn : ℕ}
    (hvalid : e.restartLsn ≠ invalidXLogRecPtr) (hle : e.restartLsn ≤ lsn) :
    Ordered c d { e with restartLsn := lsn } := by
  have hlsn : lsn ≠ invalidXLogRecPtr := fun hlsn =>
    hvalid (Nat.eq_zero_of_le_zero (Nat.le_trans hle (Nat.le_of_eq hlsn)))
  refine ⟨h.live_iff.trans ?_, h.segSize_le, fun hd => Nat.le_trans (h.le hd) hle⟩
  exact and_congr_right fun _ => iff_of_true hvalid hlsn

namespace Retains

section

variable (h : Retains c s)
include h

/-- The position of a slot in memory is at least a segment into the log. -/
theorem segSize_le_data (i : Fin n) (hlive : (s.slots i).data.Live) :
    c.segSize ≤ (s.slots i).data.restartLsn :=
  (h.stored i).right.segSize_le hlive

/-- A change of the slots that moves the state files forward. -/
theorem forward {slots : Fin n → Slot} {saving : Proc → Option (Saving n)}
    (hforward : ∀ i, Ordered c (s.slots i).disk (slots i).disk)
    (hstored : ∀ i, Ordered c (slots i).disk (slots i).data)
    (hsaving : ∀ p, SavingRetains c slots p (saving p)) :
    Retains c { s with slots := slots, saving := saving } :=
  { redo_le := h.redo_le
    insert_le := h.insert_le
    stored := hstored
    saving := hsaving
    min_pos := h.min_pos
    min_below := h.min_below.forward hforward fun _ _ hab ha => ⟨ha.1, Nat.le_trans ha.2 hab⟩
    computing := fun p call hcall => (h.computing p call hcall).forward hforward
    backends := h.backends
    checkpoint := h.checkpoint.forward hforward
    diskRetained := fun i hlive seg hseg => by
      have hlive := (hforward i).live_iff.mpr hlive
      have hle := xlByteToSeg_mono c.segSize ((hforward i).le hlive)
      exact h.diskRetained i hlive seg (Nat.le_trans hle hseg) }

theorem modify (i : Fin n) {f : Slot → Slot}
    (hdata : (f (s.slots i)).data = (s.slots i).data)
    (hdisk : (f (s.slots i)).disk = (s.slots i).disk)
    (hio : (f (s.slots i)).ioInProgress = (s.slots i).ioInProgress) :
    Retains c (s.modify i f) := by
  have hdata := SlotCtl.update_field Slot.data hdata
  have hdisk := SlotCtl.update_field Slot.disk hdisk
  have hio := SlotCtl.update_field Slot.ioInProgress hio
  refine h.forward (fun j => ?_) (fun j => ?_) (fun p => ?_)
  · rw [hdisk j]
    exact (h.stored j).left
  · rw [hdisk j, hdata j]
    exact h.stored j
  · refine (h.saving p).forward hio hdisk fun j d hd => ?_
    rw [hdata j]
    exact hd

variable (p : Proc)

theorem setComputing {o : Option Computing}
    (ho : ∀ call ∈ o, ComputingRetains c s.slots call) :
    Retains c { s with computing := update s.computing p o } :=
  { h with
    computing := (forall_update_iff s.computing fun _ o =>
      ∀ call ∈ o, ComputingRetains c s.slots call).mpr
      ⟨ho, fun q _ => h.computing q⟩ }

theorem computeRequiredLSN : Retains c (s.computeRequiredLSN p) := by
  refine h.setComputing p fun call hcall => ?_
  obtain rfl := Option.mem_some.mp hcall
  exact ⟨fun h => absurd rfl h, fun i hi => absurd hi (Nat.not_lt_zero _)⟩

/-- A call that has read every slot publishes a minimum that is not after any state file. -/
theorem computeStep
    (hsaved : s.SavesBeforeComputing (.compute p)) : Retains c (s.computeStep p) := by
  rw [SlotCtl.computeStep]
  cases hcall : s.computing p with
  | none => exact h
  | some call =>
    obtain ⟨next, m⟩ := call
    have hretains := h.computing p _ hcall
    dsimp only
    split_ifs with hnext
    · refine h.setComputing p fun call hcall' => ?_
      obtain rfl := Option.mem_some.mp hcall'
      have hdata := hsaved next m hcall hnext
      refine ⟨SlotData.le_require hretains.pos (h.segSize_le_data _), fun i hi hlive => ?_⟩
      rcases Nat.lt_succ_iff_lt_or_eq.mp hi with hi | hi
      · exact (hretains.below i hi hlive).require _
      · obtain rfl : i = ⟨next, hnext⟩ := Fin.ext hi
        rw [← hdata]
        exact ((h.stored _).live_iff.mp hlive).below_require m
    · have h' : Retains c { s with computing := update s.computing p none } :=
        h.setComputing p nofun
      exact
        { h' with
          min_pos := hretains.pos
          min_below := fun i => hretains.below i (Nat.lt_of_lt_of_le i.isLt (Nat.not_lt.mp hnext)) }

theorem setSaving {o : Option (Saving n)}
    (ho : SavingRetains c s.slots p o) : Retains c { s with saving := update s.saving p o } :=
  { h with
    saving := (forall_update_iff s.saving fun q o => SavingRetains c s.slots q o).mpr
      ⟨ho, fun q _ => h.saving q⟩ }

theorem saveSlotToPath (i : Fin n) :
    Retains c (s.saveSlotToPath p i) := by
  have h' : Retains c (s.modify i fun slot => { slot with justDirtied := false }) :=
    h.modify i rfl rfl rfl
  rw [SlotCtl.saveSlotToPath]
  split_ifs
  · exact h'.setSaving p trivial
  · exact h'

/-- A save by `p` changes only slot `i`, whose lock no other process holds. -/
theorem save {p : Proc} {i : Fin n} {slot : Slot} {o : Option (Saving n)}
    (hio : ∀ q ≠ p, (s.slots i).ioInProgress ≠ some q)
    (hforward : Ordered c (s.slots i).disk slot.disk) (hstored : Ordered c slot.disk slot.data)
    (ho : SavingRetains c (update s.slots i slot) p o) :
    Retains c
      { s with slots := update s.slots i slot, saving := update s.saving p o } := by
  refine h.forward ?_ ?_ ?_
  · exact (forall_update_iff s.slots fun j slot => Ordered c (s.slots j).disk slot.disk).mpr
      ⟨hforward, fun j _ => (h.stored j).left⟩
  · exact (forall_update_iff s.slots fun _ slot => Ordered c slot.disk slot.data).mpr
      ⟨hstored, fun j _ => h.stored j⟩
  · exact (forall_update_iff s.saving fun q o => SavingRetains c (update s.slots i slot) q o).mpr
      ⟨ho, fun q hq => (h.saving q).update_other (hio q hq) slot⟩

theorem saveStep : Retains c (s.saveStep p) := by
  have hsaving := h.saving p
  rw [SlotCtl.saveStep]
  cases hp : s.saving p with
  | none => exact h
  | some saving =>
    rw [hp] at hsaving
    cases saving with
    | waiting i =>
      dsimp only
      split_ifs with hio
      · refine h.save (fun q _ => by rw [hio]; nofun) (h.stored i).left (h.stored i) ?_
        rw [SavingRetains, update_self]
        exact ⟨rfl, h.stored i, (h.stored i).right⟩
      · exact h
    | copied =>
      obtain ⟨hio, hdisk, hdata⟩ := hsaving
      refine h.save (fun q hq => ?_) hdisk hdata ?_
      · rw [hio]
        exact fun heq => hq (Option.some.inj heq).symm
      · rw [SavingRetains, update_self]
        exact hio
    | renamed i =>
      refine h.save (fun q hq => ?_) (h.stored i).left (h.stored i) trivial
      rw [show _ = _ from hsaving]
      exact fun heq => hq (Option.some.inj heq).symm

theorem confirm (k : ℕ) {i : Fin n} {lsn : ℕ}
    (hvalid : (s.slots i).data.restartLsn ≠ invalidXLogRecPtr)
    (hle : (s.slots i).data.restartLsn ≤ lsn) : Retains c (s.confirm k i lsn) := by
  let slot := { s.slots i with data.restartLsn := lsn }
  have hdisk := SlotCtl.update_field Slot.disk (show slot.disk = (s.slots i).disk from rfl)
  have hdata (j : Fin n) (d : SlotData) (hd : Ordered c d (s.slots j).data) :
      Ordered c d (update s.slots i slot j).data := by
    by_cases hj : j = i
    · subst hj
      rw [update_self]
      exact hd.confirm hvalid hle
    · rw [update_of_ne hj]
      exact hd
  have hmoved : Retains c { s with slots := update s.slots i slot, saving := s.saving } := by
    refine h.forward (fun j => ?_) (fun j => ?_) (fun p => ?_)
    · rw [hdisk j]
      exact (h.stored j).left
    · rw [hdisk j]
      exact hdata j _ (h.stored j)
    · exact (h.saving p).forward (SlotCtl.update_field Slot.ioInProgress rfl) hdisk hdata
  rw [SlotCtl.confirm]
  split_ifs
  · refine { hmoved with backends := ?_ }
    exact (forall_update_iff s.backends fun _ b => b = .idle ∨ ∃ i, b = .markDirty i).mpr
      ⟨.inr ⟨i, rfl⟩, fun j _ => h.backends j⟩
  · exact h

theorem backendStep (k : ℕ) : Retains c (s.backendStep c k) := by
  rw [SlotCtl.backendStep]
  rcases h.backends k with hk | ⟨i, hk⟩
  · rw [hk]
    exact h
  · rw [hk]
    have hmarked : Retains c ((s.markDirty i).computeRequiredLSN (.backend k)) :=
      (h.modify i rfl rfl rfl).computeRequiredLSN _
    refine { hmarked with backends := ?_ }
    exact (forall_update_iff s.backends fun _ b => b = .idle ∨ ∃ i, b = .markDirty i).mpr
      ⟨.inl rfl, fun j _ => h.backends j⟩

/-- `KeepLogSeg` keeps all WAL that a state file asks for. -/
theorem keepLogSeg_le (hcap : c.maxSlotWalKeepSegs = none)
    (recptr logSegNo : ℕ) :
    OnDisk s.slots fun lsn =>
      c.keepLogSeg s.replicationSlotMinLSN recptr logSegNo ≤ xlByteToSeg c.segSize lsn := by
  intro i hlive
  have hbelow := h.min_below i hlive
  have hpos : 0 < xlByteToSeg c.segSize (s.slots i).disk.restartLsn :=
    Nat.div_pos ((h.stored i).segSize_le hlive) c.segSize_pos
  exact (KeepSettings.keepLogSeg_le hbelow.1 hbelow.2 hpos recptr logSegNo 0).resolve_right
    fun hcapped => hcapped.1 hcap

theorem scanSlot {recptr cutoff : ℕ} {i : Fin n} (hpos : 0 < cutoff)
    (hcutoff : OnDisk s.slots fun lsn => cutoff ≤ xlByteToSeg c.segSize lsn) :
    Retains c (s.scanSlot c recptr cutoff i false none) := by
  have hkept : ¬ ((s.slots i).data.invalidated = false ∧
      (s.slots i).data.restartLsn ≠ invalidXLogRecPtr ∧
      (s.slots i).data.restartLsn < cutoff * c.segSize) := by
    rintro ⟨hvalid, hrestart, hlt⟩
    have hlive := (h.stored i).live_iff.mpr ⟨hvalid, hrestart⟩
    have hle := Nat.le_trans (hcutoff i hlive)
      (xlByteToSeg_mono c.segSize ((h.stored i).le hlive))
    exact Nat.not_lt.mpr ((Nat.le_div_iff_mul_le c.segSize_pos).mp hle) hlt
  rw [SlotCtl.scanSlot]
  dsimp only [Option.getD_none]
  rw [if_neg hkept]
  exact { h with checkpoint := ⟨rfl, rfl, hpos, hcutoff⟩ }

theorem checkpointerStep (hcap : c.maxSlotWalKeepSegs = none) :
    Retains c (s.checkpointerStep c) := by
  have hcheckpoint := h.checkpoint
  rw [SlotCtl.checkpointerStep]
  cases hpc : s.checkpoint with rw [hpc] at hcheckpoint
  | idle => exact h
  | guts i =>
    dsimp only
    split_ifs with hi
    · exact { h.saveSlotToPath .checkpointer ⟨i, hi⟩ with checkpoint := trivial }
    · exact { h with checkpoint := Nat.le_trans h.redo_le h.insert_le }
  | keep =>
    have hredo : 0 < xlByteToSeg c.segSize s.redoRecPtr := Nat.div_pos h.redo_le c.segSize_pos
    exact
      { h with
        checkpoint := ⟨rfl, rfl, KeepSettings.keepLogSeg_pos h.min_pos hcheckpoint hredo,
          h.keepLogSeg_le hcap _ _⟩ }
  | scan _ _ i =>
    obtain ⟨rfl, rfl, hpos, hcutoff⟩ := hcheckpoint
    by_cases hi : i < n
    all_goals dsimp only
    · rw [dif_pos hi]
      exact h.scanSlot hpos hcutoff
    · rw [dif_neg hi, if_neg Bool.false_ne_true]
      refine { h with checkpoint := fun i hlive => ?_ }
      have hle := hcutoff i hlive
      dsimp only at hle ⊢
      rw [SlotCtl.lastSegToRemove]
      split_ifs <;> omega
  | remove => exact { h with checkpoint := trivial }
  | markDirty | save | release | keepAgain =>
    exact hcheckpoint.elim

theorem removeFile (seg : ℕ) : Retains c (s.removeFile seg) := by
  have hcheckpoint := h.checkpoint
  rw [SlotCtl.removeFile]
  cases hpc : s.checkpoint with
  | remove segno =>
    rw [hpc] at hcheckpoint
    dsimp only
    split_ifs with hseg
    · refine { h with checkpoint := hcheckpoint, diskRetained := fun i hlive seg' hle => ?_ }
      have hlt : segno < xlByteToSeg c.segSize (s.slots i).disk.restartLsn := hcheckpoint i hlive
      have hne : seg' ≠ seg := by
        rintro rfl
        exact Nat.not_lt.mpr (Nat.le_trans hle hseg) hlt
      exact (update_of_ne hne ..).trans (h.diskRetained i hlive seg' hle)
    · exact h
  | _ => exact h

omit h in
theorem of_started (hs : s.Started c) : Retains c s where
  redo_le := hs.redo_le
  insert_le := hs.insert_le
  stored i := by
    rw [hs.data_eq i]
    exact .refl (hs.segSize_le i)
  saving p := by
    rw [hs.saving_eq p]
    trivial
  min_pos hmin := by
    rw [hs.min_eq, SlotCtl.requiredLSN] at hmin ⊢
    rcases foldl_require_cases _ invalidXLogRecPtr with heq | ⟨d, hd, hlive, heq⟩
    · exact absurd heq hmin
    · obtain ⟨i, _, rfl⟩ := List.mem_map.mp hd
      rw [heq]
      exact hs.segSize_le i hlive
  min_below i hlive := by
    rw [hs.min_eq]
    exact below_foldl_require_of_mem (List.mem_map.mpr ⟨i, List.mem_finRange i, rfl⟩) hlive _
  computing p := by
    rw [hs.computing_eq p]
    nofun
  backends k := .inl (hs.backends_eq k)
  checkpoint := by
    rw [hs.checkpoint_eq]
    trivial
  diskRetained := hs.diskRetained

theorem restart {redoRecPtr insertRecPtr : ℕ} (hredo : c.segSize ≤ redoRecPtr)
    (hinsert : redoRecPtr ≤ insertRecPtr) : Retains c (s.restart redoRecPtr insertRecPtr) :=
  of_started
    { redo_le := hredo
      insert_le := hinsert
      segSize_le := fun i => (h.stored i).segSize_le
      data_eq := fun _ => rfl
      min_eq := rfl
      computing_eq := fun _ => rfl
      saving_eq := fun _ => rfl
      backends_eq := fun _ => rfl
      checkpoint_eq := rfl
      diskRetained := h.diskRetained }

end

theorem step (hcap : c.maxSlotWalKeepSegs = none) (h : Retains c s) (a : Action n)
    (ha : s.SavesBeforeComputing a ∧ a.KeepsReservations) : Retains c (s.step c a) := by
  cases a with
  | insertWal => exact { h with insert_le := Nat.le_trans h.insert_le (Nat.le_add_right ..) }
  | acquire k i | release k i => exact iteInduction (fun _ => h.modify i rfl rfl rfl) fun _ => h
  | confirm k => exact iteInduction (fun _ => h.confirm k ha.1.1 ha.1.2) fun _ => h
  | reserveWal => exact ha.2.elim
  | computeRequiredLSN => exact iteInduction (fun _ => h.computeRequiredLSN _) fun _ => h
  | saveSlot k i => exact iteInduction (fun _ => h.saveSlotToPath _ i) fun _ => h
  | compute p => exact h.computeStep p ha.1
  | save p => exact h.saveStep p
  | backend k => exact iteInduction (fun _ => h.backendStep k) fun _ => h
  | beginCheckpoint =>
    rw [SlotCtl.step]
    cases hpc : s.checkpoint with
    | idle =>
      exact
        { h with
          redo_le := Nat.le_trans h.redo_le h.insert_le
          insert_le := Nat.le_refl _
          checkpoint := trivial }
    | _ => exact h
  | checkpointer => exact iteInduction (fun _ => h.checkpointerStep hcap) fun _ => h
  | removeFile seg => exact h.removeFile seg
  | crash =>
    exact iteInduction (fun hpos => h.restart hpos.1 hpos.2) fun _ => h

end Retains

/-- In a run whose confirmations move positions forward and are saved before the minimum is
computed from them, a checkpoint never removes WAL that a state file asks for, wherever the
server crashes. -/
theorem SlotCtl.diskRetained_run (hcap : c.maxSlotWalKeepSegs = none) (hs : s.Started c)
    {l : List (Action n)} (hl : ∀ a ∈ l, a.KeepsReservations)
    (hsaves : EveryStep (SlotCtl.step c) SlotCtl.SavesBeforeComputing s l) :
    (run (SlotCtl.step c) s l).DiskRetained c :=
  (run_invariant (fun _ a h ha => h.step hcap a ha) (Retains.of_started hs)
    (hsaves.and_forall hl)).diskRetained

/-- A server with one slot at position 0/1000000 and the log at position 0/5000000. -/
def oneSlot : SlotCtl 1 where
  slots _ :=
    { logical := false, data := ⟨0x1000000, false⟩, dirty := false, justDirtied := false,
      activePid := none, ioInProgress := none, disk := ⟨0x1000000, false⟩ }
  replicationSlotMinLSN := 0x1000000
  lastRemovedSegNo := 0
  redoRecPtr := 0x1000000
  insertRecPtr := 0x5000000
  removed _ := false
  computing _ := none
  saving _ := none
  backends _ := .idle
  checkpoint := .idle
  reserved _ := false

theorem oneSlot_started : oneSlot.Started defaultSegments where
  redo_le := by decide
  insert_le := by decide
  segSize_le _ _ := Nat.le_refl _
  data_eq _ := rfl
  min_eq := by decide
  computing_eq _ := rfl
  saving_eq _ := rfl
  backends_eq _ := rfl
  checkpoint_eq := rfl
  diskRetained _ _ _ _ := rfl

/-- The standby confirms position 0/4000000, and the checkpoint saves the slot before the minimum is
computed. -/
def savedConfirmation : List (Action 1) :=
  [.acquire 0 onlySlot, .confirm 0 onlySlot 0x4000000, .backend 0, .beginCheckpoint, .checkpointer,
    .save .checkpointer, .save .checkpointer, .save .checkpointer, .compute (.backend 0),
    .compute (.backend 0), .checkpointer, .checkpointer, .checkpointer, .checkpointer,
    .removeFile 1, .crash 0x5000000 0x5000000]

theorem diskRetained_savedConfirmation :
    (run (SlotCtl.step defaultSegments) oneSlot savedConfirmation).removed 1 = true ∧
      (run (SlotCtl.step defaultSegments) oneSlot savedConfirmation).DiskRetained
        defaultSegments := by
  refine ⟨by decide, SlotCtl.diskRetained_run rfl oneSlot_started ?_ ?_⟩
  · simp [savedConfirmation, Action.KeepsReservations]
  · refine ⟨trivial, ⟨by decide, by decide⟩, trivial, trivial, trivial, trivial, trivial, trivial,
      ?_, ?_, trivial, trivial, trivial, trivial, trivial, trivial, trivial⟩
    all_goals
      intro _ _ _ hnext
      obtain rfl := Nat.lt_one_iff.mp hnext
      rfl

/-- The standby confirms position 0/4000000 after the checkpoint has passed the slot. The minimum is
computed from the confirmed position, and the checkpoint removes segment 1. After the crash the
slot is at position 0/1000000 again. -/
theorem not_diskRetained_unsavedConfirmation :
    oneSlot.Started defaultSegments ∧ ¬ (run (SlotCtl.step defaultSegments) oneSlot
      [.acquire 0 0, .beginCheckpoint, .checkpointer, .confirm 0 0 0x4000000, .backend 0,
        .compute (.backend 0), .compute (.backend 0), .checkpointer, .checkpointer, .checkpointer,
        .checkpointer, .removeFile 1, .crash 0x5000000 0x5000000]).DiskRetained defaultSegments := by
  refine ⟨oneSlot_started, fun hretained => ?_⟩
  have hremoved := hretained 0 (by decide) 1 (by decide)
  revert hremoved
  decide

end PgCutover.Replication.SlotWal
