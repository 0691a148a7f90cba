import Mathlib.Tactic.Ring

/-!
# Positions and segments of the write-ahead log

A position is a byte number. The log is kept in segments of equal size, numbered from 1.
-/

namespace PgCutover.Wal

/-- `InvalidXLogRecPtr`. -/
def invalidXLogRecPtr : ℕ := 0

/-- `XLByteToSeg`. -/
def xlByteToSeg (segSize recptr : ℕ) : ℕ := recptr / segSize

theorem xlByteToSeg_mono (segSize : ℕ) {a b : ℕ} (h : a ≤ b) :
    xlByteToSeg segSize a ≤ xlByteToSeg segSize b := Nat.div_le_div_right h

/-- The settings that decide which segments a checkpoint keeps. -/
structure KeepSettings where
  segSize : ℕ
  segSize_pos : 0 < segSize
  /-- `max_slot_wal_keep_size` in segments; `none` is -1. -/
  maxSlotWalKeepSegs : Option ℕ
  /-- `wal_keep_size` in segments. -/
  walKeepSegs : ℕ

namespace KeepSettings

variable (c : KeepSettings)

/-- The oldest segment that slots keep. -/
def slotKeepSeg (currSegNo keep recptr : ℕ) : ℕ :=
  if keep ≠ invalidXLogRecPtr ∧ keep < recptr then
    let segno := xlByteToSeg c.segSize keep
    match c.maxSlotWalKeepSegs with
    | none => segno
    | some slotKeepSegs => if currSegNo - segno > slotKeepSegs then currSegNo - slotKeepSegs
        else segno
  else currSegNo

/-- Keep at least `wal_keep_size`. -/
def walKeepSeg (currSegNo segno : ℕ) : ℕ :=
  if 0 < c.walKeepSegs ∧ currSegNo - segno < c.walKeepSegs then
    if currSegNo ≤ c.walKeepSegs then 1 else currSegNo - c.walKeepSegs
  else segno

/-- `KeepLogSeg`: the first segment to keep, at most `logSegNo`. `keep` is the minimum required
by the slots. WAL summarization is off. -/
def keepLogSeg (keep recptr logSegNo : ℕ) : ℕ :=
  let currSegNo := xlByteToSeg c.segSize recptr
  let segno := c.walKeepSeg currSegNo (c.slotKeepSeg currSegNo keep recptr)
  if segno < logSegNo then segno else logSegNo

variable {c}

theorem walKeepSeg_mono {curr a b : ℕ} (h : a ≤ b) : c.walKeepSeg curr a ≤ c.walKeepSeg curr b := by
  rw [walKeepSeg, walKeepSeg]
  split_ifs <;> omega

theorem walKeepSeg_le {curr a : ℕ} (h : 0 < a) : c.walKeepSeg curr a ≤ a := by
  rw [walKeepSeg]
  split_ifs <;> omega

/-- A position that is not before the required minimum is kept, unless `max_slot_wal_keep_size`
cuts it off. -/
theorem slotKeepSeg_le {keep lsn : ℕ} (recptr : ℕ) (hkeep : keep ≠ invalidXLogRecPtr)
    (hle : keep ≤ lsn) :
    c.slotKeepSeg (xlByteToSeg c.segSize recptr) keep recptr ≤ xlByteToSeg c.segSize lsn ∨
      ∃ cap, c.maxSlotWalKeepSegs = some cap ∧
        c.slotKeepSeg (xlByteToSeg c.segSize recptr) keep recptr =
          xlByteToSeg c.segSize recptr - cap := by
  rw [slotKeepSeg]
  split_ifs with hbefore
  · have hseg : xlByteToSeg c.segSize keep ≤ xlByteToSeg c.segSize lsn :=
      xlByteToSeg_mono c.segSize hle
    cases hcap : c.maxSlotWalKeepSegs with
    | none => exact .inl hseg
    | some cap =>
      dsimp only
      split_ifs
      · exact .inr ⟨cap, rfl, rfl⟩
      · exact .inl hseg
  · rw [not_and, Nat.not_lt] at hbefore
    exact .inl (xlByteToSeg_mono _ (Nat.le_trans (hbefore hkeep) hle))

theorem le_slotKeepSeg {cap : ℕ} (hcap : c.maxSlotWalKeepSegs = some cap) (keep recptr : ℕ) :
    xlByteToSeg c.segSize recptr - cap ≤
      c.slotKeepSeg (xlByteToSeg c.segSize recptr) keep recptr := by
  rw [slotKeepSeg, hcap]
  split_ifs
  · dsimp only
    split_ifs <;> omega
  · exact Nat.sub_le _ _

theorem one_le_slotKeepSeg {curr keep recptr : ℕ} (hcurr : 0 < curr)
    (hkeep : keep ≠ invalidXLogRecPtr → c.segSize ≤ keep) :
    0 < c.slotKeepSeg curr keep recptr := by
  rw [slotKeepSeg]
  split_ifs with hbefore
  · have hseg : 0 < xlByteToSeg c.segSize keep :=
      Nat.div_pos (hkeep hbefore.1) c.segSize_pos
    cases c.maxSlotWalKeepSegs with
    | none => exact hseg
    | some =>
      dsimp only
      split_ifs <;> omega
  · exact hcurr

theorem walKeepSeg_pos {curr segno : ℕ} (hsegno : 0 < segno) : 0 < c.walKeepSeg curr segno := by
  rw [walKeepSeg]
  split_ifs <;> omega

theorem keepLogSeg_le_logSegNo (keep recptr logSegNo : ℕ) :
    c.keepLogSeg keep recptr logSegNo ≤ logSegNo := by
  rw [keepLogSeg]
  split_ifs <;> omega

theorem keepLogSeg_pos {keep recptr logSegNo : ℕ}
    (hkeep : keep ≠ invalidXLogRecPtr → c.segSize ≤ keep) (hrecptr : c.segSize ≤ recptr)
    (hlog : 0 < logSegNo) : 0 < c.keepLogSeg keep recptr logSegNo := by
  have hcurr : 0 < xlByteToSeg c.segSize recptr := Nat.div_pos hrecptr c.segSize_pos
  have hwal : 0 < c.walKeepSeg (xlByteToSeg c.segSize recptr)
      (c.slotKeepSeg (xlByteToSeg c.segSize recptr) keep recptr) :=
    walKeepSeg_pos (one_le_slotKeepSeg hcurr hkeep)
  rw [keepLogSeg]
  split_ifs
  · exact hwal
  · exact hlog

/-- A position that is not before the required minimum is kept, or is one that no minimum would
have kept. -/
theorem keepLogSeg_le {keep lsn : ℕ} (hkeep : keep ≠ invalidXLogRecPtr) (hle : keep ≤ lsn)
    (hlsn : 0 < xlByteToSeg c.segSize lsn) (recptr logSegNo keep' : ℕ) :
    c.keepLogSeg keep recptr logSegNo ≤ xlByteToSeg c.segSize lsn ∨
      c.maxSlotWalKeepSegs ≠ none ∧
        c.keepLogSeg keep recptr logSegNo ≤ c.keepLogSeg keep' recptr logSegNo := by
  rcases slotKeepSeg_le (c := c) recptr hkeep hle with hseg | ⟨_, hcap, heq⟩
  · have hwal : c.walKeepSeg (xlByteToSeg c.segSize recptr)
        (c.slotKeepSeg (xlByteToSeg c.segSize recptr) keep recptr) ≤ xlByteToSeg c.segSize lsn :=
      Nat.le_trans (walKeepSeg_mono hseg) (walKeepSeg_le hlsn)
    refine .inl ?_
    rw [keepLogSeg]
    split_ifs <;> omega
  · have hseg := le_slotKeepSeg hcap keep' recptr
    rw [← heq] at hseg
    have hwal : c.walKeepSeg (xlByteToSeg c.segSize recptr)
        (c.slotKeepSeg (xlByteToSeg c.segSize recptr) keep recptr) ≤
        c.walKeepSeg (xlByteToSeg c.segSize recptr)
          (c.slotKeepSeg (xlByteToSeg c.segSize recptr) keep' recptr) := walKeepSeg_mono hseg
    refine .inr ⟨by rw [hcap]; nofun, ?_⟩
    simp only [keepLogSeg]
    split_ifs <;> omega

end KeepSettings

end PgCutover.Wal
