import Mathlib.Data.Set.Card
import PgCutover.BlkRefTable.Table

/-!
# What happens to a relation between two backups

Blocks of a relation are written, the relation is truncated, and it is extended by blocks of
zeroes. The first two are recorded in the block reference table, the last is not.
`traced_runEvents` says what the record of a window tells about a block: a block that is not
recorded as modified is unchanged, or it was cut off by a truncation and is zero.
-/

namespace PgCutover.IncrBackup

open BlkRefTable Function List

variable {β : Type} [Zero β]

/-- A relation fork. There is nothing beyond its end. -/
structure Relation (β : Type) [Zero β] where
  len : ℕ
  block : ℕ → β
  len_lt : len < 2 ^ 32
  block_eq_zero : ∀ b, len ≤ b → block b = 0

/-- What happens in the cluster. -/
inductive Event (β : Type)
  /-- A block gets new contents, and the relation is extended up to it if it has to be. -/
  | write (blknum : UInt32) (contents : β)
  /-- The relation is truncated to a number of blocks. -/
  | truncate (nblocks : UInt32)
  /-- The relation is extended by a number of blocks of zeroes. -/
  | extend (n : ℕ)
  /-- Something is recorded for another key. -/
  | elsewhere (key : BlockRefTableKey) (op : EntryOp)

namespace Relation

/-- The relation after a write of one block. -/
def write (rel : Relation β) (blknum : UInt32) (contents : β) (h : blknum ≠ invalidBlockNumber) :
    Relation β where
  len := max rel.len (blknum.toNat + 1)
  block := update rel.block blknum.toNat contents
  len_lt := by
    have hlt := blknum.toNat_lt
    have hne : blknum.toNat ≠ invalidBlockNumber.toNat := fun heq => h (UInt32.toNat_inj.mp heq)
    have hinvalid : invalidBlockNumber.toNat = 2 ^ 32 - 1 := rfl
    have := rel.len_lt
    omega
  block_eq_zero b hb := by
    rw [update_of_ne (by omega)]
    exact rel.block_eq_zero b (by omega)

/-- Cut off the blocks from a number on. -/
def truncate (rel : Relation β) (nblocks : ℕ) (h : nblocks < rel.len) : Relation β where
  len := nblocks
  block b := if b < nblocks then rel.block b else 0
  len_lt := h.trans rel.len_lt
  block_eq_zero _ hb := if_neg (Nat.not_lt.mpr hb)

/-- Add blocks of zeroes. -/
def extend (rel : Relation β) (n : ℕ) (h : rel.len + n < 2 ^ 32) : Relation β where
  len := rel.len + n
  block := rel.block
  len_lt := h
  block_eq_zero b hb := rel.block_eq_zero b (by omega)

end Relation

/-- The effect of an event on a relation, and what is recorded for it. What is impossible has no
effect: a block number that is not valid, a truncation to a length that the relation does not
have, an extension beyond the largest length. -/
def Event.apply (key : BlockRefTableKey) (rel : Relation β) :
    Event β → Relation β × List (BlockRefTableKey × EntryOp)
  | .write blknum contents =>
    if h : blknum ≠ invalidBlockNumber then
      (rel.write blknum contents h, [(key, .markBlockModified blknum)])
    else (rel, [])
  | .truncate nblocks =>
    if h : nblocks.toNat < rel.len then
      (rel.truncate nblocks.toNat h, [(key, .setLimitBlock nblocks)])
    else (rel, [])
  | .extend n => if h : rel.len + n < 2 ^ 32 then (rel.extend n h, []) else (rel, [])
  | .elsewhere other op => (rel, if other = key then [] else [(other, op)])

/-- The relation after some events, and all that is recorded for them. -/
def runEvents (key : BlockRefTableKey) (rel : Relation β) (events : List (Event β)) :
    Relation β × List (BlockRefTableKey × EntryOp) :=
  events.foldl (fun state event =>
    let next := event.apply key state.1
    (next.1, state.2 ++ next.2)) (rel, [])

variable (key : BlockRefTableKey) (ops : List EntryOp) (rel : Relation β) (events : List (Event β))

theorem runEvents_append_singleton (event : Event β) :
    runEvents key rel (events ++ [event]) =
      ((event.apply key (runEvents key rel events).1).1,
        (runEvents key rel events).2 ++ (event.apply key (runEvents key rel events).1).2) := by
  rw [runEvents, foldl_append]
  rfl

/-! ### What the record tells -/

/-- A truncation in the record cut off a block. -/
def CutOff (ops : List EntryOp) (b : ℕ) : Prop :=
  ∃ nblocks, .setLimitBlock nblocks ∈ ops ∧ nblocks.toNat ≤ b

theorem opsFor_append (ops more : List (BlockRefTableKey × EntryOp)) :
    opsFor key (ops ++ more) = opsFor key ops ++ opsFor key more := by
  rw [opsFor, filter_append, map_append]
  rfl

theorem Fork.run_append_singleton (op : EntryOp) :
    Fork.run (ops ++ [op]) = (Fork.run ops).step op := by
  rw [Fork.run, foldl_append]
  rfl

theorem cutOff_append_mark {ops : List EntryOp} {blknum : UInt32} {b : ℕ} :
    CutOff (ops ++ [.markBlockModified blknum]) b ↔ CutOff ops b := by
  simp [CutOff]

theorem cutOff_append_setLimit {ops : List EntryOp} {nblocks : UInt32} {b : ℕ} :
    CutOff (ops ++ [.setLimitBlock nblocks]) b ↔ CutOff ops b ∨ nblocks.toNat ≤ b := by
  simp [CutOff, or_and_right, exists_or]

/-- The limit block is the lowest of the truncations. -/
theorem limitBlock_spec :
    ((∀ n, .setLimitBlock n ∉ ops) ∧ (Fork.run ops).limitBlock = invalidBlockNumber) ∨
      .setLimitBlock (Fork.run ops).limitBlock ∈ ops ∧
        ∀ n, .setLimitBlock n ∈ ops → (Fork.run ops).limitBlock ≤ n := by
  induction ops using List.reverseRecOn with
  | nil => exact .inl ⟨fun n => not_mem_nil, rfl⟩
  | append_singleton _ op ih =>
    rw [Fork.run_append_singleton]
    cases op with
    | markBlockModified => simpa [Fork.step] using ih
    | setLimitBlock nblocks =>
      right
      rw [Fork.step]
      simp only [mem_append, mem_singleton, EntryOp.setLimitBlock.injEq]
      split_ifs with hlower
      · refine ⟨.inr rfl, fun n hn => ?_⟩
        rcases hn with hn | rfl
        · rcases ih with ⟨hnone, -⟩ | ⟨-, hmin⟩
          · exact absurd hn (hnone n)
          · exact UInt32.le_trans (UInt32.le_of_lt hlower) (hmin n hn)
        · exact UInt32.le_refl _
      · rcases ih with ⟨hnone, hinvalid⟩ | ⟨hmem, hmin⟩
        · -- the truncation is to the largest number, which is not below that of a new entry
          rw [hinvalid] at hlower ⊢
          have heq : nblocks = invalidBlockNumber := by
            have hge := UInt32.le_iff_toNat_le.mp (UInt32.not_lt.mp hlower)
            have hlt := nblocks.toNat_lt
            have hmax : invalidBlockNumber.toNat = 2 ^ 32 - 1 := rfl
            exact UInt32.toNat_inj.mp (by omega)
          refine ⟨.inr heq.symm, fun n hn => ?_⟩
          rcases hn with hn | rfl
          · exact absurd hn (hnone n)
          · rw [heq]
            exact UInt32.le_refl _
        · refine ⟨.inl hmem, fun n hn => ?_⟩
          rcases hn with hn | rfl
          · exact hmin n hn
          · exact UInt32.not_lt.mp hlower

theorem limitBlock_le_iff {b : ℕ} (hb : b < invalidBlockNumber.toNat) :
    (Fork.run ops).limitBlock.toNat ≤ b ↔ CutOff ops b := by
  rcases limitBlock_spec ops with ⟨hnone, hinvalid⟩ | ⟨hmem, hmin⟩
  · rw [hinvalid]
    constructor
    · intro hle
      omega
    · rintro ⟨n, hn, -⟩
      exact absurd hn (hnone n)
  · constructor
    · exact fun hle => ⟨_, hmem, hle⟩
    · rintro ⟨n, hn, hle⟩
      exact (UInt32.le_iff_toNat_le.mp (hmin n hn)).trans hle

/-- What is known of a block after some events, from the relation before them and the record. -/
structure Traced (old new : Relation β) (ops : List EntryOp) (b : ℕ) : Prop where
  unchanged : b ∉ (Fork.run ops).modified → ¬CutOff ops b → new.block b = old.block b
  zero : b ∉ (Fork.run ops).modified → CutOff ops b → new.block b = 0
  beyond : b ∈ (Fork.run ops).modified → new.len ≤ b → CutOff ops b

namespace Traced

variable {old rel : Relation β} {ops : List EntryOp} {b : ℕ}

theorem refl (rel : Relation β) (b : ℕ) : Traced rel rel [] b where
  unchanged _ _ := rfl
  zero _ hcut := by
    obtain ⟨n, hn, -⟩ := hcut
    exact absurd hn not_mem_nil
  beyond hmem _ := absurd hmem (Set.notMem_empty b)

theorem write (h : Traced old rel ops b) {blknum : UInt32} (contents : β)
    (hvalid : blknum ≠ invalidBlockNumber) :
    Traced old (rel.write blknum contents hvalid) (ops ++ [.markBlockModified blknum]) b := by
  have hmodified : b ∈ (Fork.run (ops ++ [.markBlockModified blknum])).modified ↔
      b = blknum.toNat ∨ b ∈ (Fork.run ops).modified := by
    rw [Fork.run_append_singleton]
    rfl
  refine ⟨fun hmem hcut => ?_, fun hmem hcut => ?_, fun hmem hlen => ?_⟩
  · rw [hmodified, not_or] at hmem
    rw [cutOff_append_mark] at hcut
    exact (update_of_ne hmem.1 _ _).trans (h.unchanged hmem.2 hcut)
  · rw [hmodified, not_or] at hmem
    rw [cutOff_append_mark] at hcut
    exact (update_of_ne hmem.1 _ _).trans (h.zero hmem.2 hcut)
  · rw [cutOff_append_mark]
    have hlen' : max rel.len (blknum.toNat + 1) ≤ b := hlen
    rcases hmodified.mp hmem with rfl | hmem
    · omega
    · exact h.beyond hmem (by omega)

theorem truncate (h : Traced old rel ops b) {nblocks : UInt32} (hlen : nblocks.toNat < rel.len) :
    Traced old (rel.truncate nblocks.toNat hlen) (ops ++ [.setLimitBlock nblocks]) b := by
  -- below the new length, neither the record nor the contents change
  have hbelow : b < nblocks.toNat →
      (b ∈ (Fork.run (ops ++ [.setLimitBlock nblocks])).modified ↔
        b ∈ (Fork.run ops).modified) ∧
      (rel.truncate nblocks.toNat hlen).block b = rel.block b := by
    intro hb
    refine ⟨?_, if_pos hb⟩
    rw [Fork.run_append_singleton, Fork.step]
    split_ifs
    · exact and_iff_left hb
    · exact Iff.rfl
  refine ⟨fun hmem hcut => ?_, fun hmem hcut => ?_, fun hmem hend => ?_⟩
  · rw [cutOff_append_setLimit, not_or, Nat.not_le] at hcut
    obtain ⟨hiff, hblock⟩ := hbelow hcut.2
    rw [hblock]
    exact h.unchanged (fun hold => hmem (hiff.mpr hold)) hcut.1
  · rcases Nat.lt_or_ge b nblocks.toNat with hb | hb
    · obtain ⟨hiff, hblock⟩ := hbelow hb
      rw [cutOff_append_setLimit] at hcut
      rw [hblock]
      exact h.zero (fun hold => hmem (hiff.mpr hold)) (hcut.resolve_right (Nat.not_le.mpr hb))
    · exact if_neg (Nat.not_lt.mpr hb)
  · rw [cutOff_append_setLimit]
    exact .inr hend

theorem extend (h : Traced old rel ops b) {n : ℕ} (hlen : rel.len + n < 2 ^ 32) :
    Traced old (rel.extend n hlen) ops b :=
  ⟨h.unchanged, h.zero, fun hmem hend => h.beyond hmem ((Nat.le_add_right _ _).trans hend)⟩

theorem apply (h : Traced old rel ops b) (key : BlockRefTableKey) (event : Event β) :
    Traced old (event.apply key rel).1 (ops ++ opsFor key (event.apply key rel).2) b := by
  cases event with
  | write blknum contents =>
    rw [Event.apply]
    split_ifs with hvalid
    · have hops : opsFor key [(key, .markBlockModified blknum)] = [.markBlockModified blknum] := by
        simp [opsFor]
      rw [hops]
      exact h.write contents hvalid
    · exact (append_nil ops).symm ▸ h
  | truncate nblocks =>
    rw [Event.apply]
    split_ifs with hlen
    · have hops : opsFor key [(key, .setLimitBlock nblocks)] = [.setLimitBlock nblocks] := by
        simp [opsFor]
      rw [hops]
      exact h.truncate hlen
    · exact (append_nil ops).symm ▸ h
  | extend =>
    rw [Event.apply]
    split_ifs with hlen
    · exact (append_nil ops).symm ▸ h.extend hlen
    · exact (append_nil ops).symm ▸ h
  | elsewhere other op =>
    have hops : opsFor key (if other = key then [] else [(other, op)]) = [] := by
      split_ifs with hkey
      · rfl
      · simp [opsFor, hkey]
    rw [Event.apply, hops, append_nil]
    exact h

end Traced

/-- Every block is traced through a window. -/
theorem traced_runEvents
    (b : ℕ) :
    Traced rel (runEvents key rel events).1 (opsFor key (runEvents key rel events).2) b := by
  induction events using List.reverseRecOn with
  | nil => exact .refl rel b
  | append_singleton _ event ih =>
    rw [runEvents_append_singleton, opsFor_append]
    exact ih.apply key event

/-- A relation is only truncated to a length that it can have. -/
theorem ne_invalid_of_truncated {n : UInt32}
    (hn : .setLimitBlock n ∈ opsFor key (runEvents key rel events).2) : n ≠ invalidBlockNumber := by
  induction events using List.reverseRecOn with
  | nil => exact absurd hn not_mem_nil
  | append_singleton events event ih =>
    rw [runEvents_append_singleton, opsFor_append, mem_append] at hn
    rcases hn with hn | hn
    · exact ih hn
    · rintro rfl
      cases event with rw [Event.apply] at hn
      | write =>
        split_ifs at hn <;> simp [opsFor] at hn
      | truncate nblocks =>
        split_ifs at hn with hlen
        · obtain rfl : invalidBlockNumber = nblocks := by simpa [opsFor] using hn
          have := (runEvents key rel events).1.len_lt
          have hmax : invalidBlockNumber.toNat = 2 ^ 32 - 1 := rfl
          omega
        · exact absurd hn not_mem_nil
      | extend =>
        split_ifs at hn <;> exact absurd hn not_mem_nil
      | elsewhere =>
        split_ifs at hn with hkey
        · exact absurd hn not_mem_nil
        · simp [opsFor, hkey] at hn

/-!
## How a file is backed up

`GetFileBackupMethod` of `basebackup_incremental.c` decides from the block reference table whether
an incremental backup has the whole of a segment file or only some of its blocks.
-/

/-- `BLCKSZ`. -/
def blcksz : ℕ := 8192

/-- The blocks of a segment. -/
def relsegSize : ℕ := 131072

/-- `MAIN_FORKNUM`. -/
def mainForknum : UInt32 := 0

/-- `FSM_FORKNUM`. -/
def fsmForknum : UInt32 := 1

/-- `FileBackupMethod`, with the data for an incremental file. -/
inductive FileBackupMethod
  | backUpFileFully
  | backUpFileIncrementally (relativeBlockNumbers : List ℕ) (truncationBlockLength : ℕ)
  deriving DecidableEq, Repr

/-- How the call can fail. -/
inductive BackupError
  /-- `overflow computing block number bounds for segment %u with size %zu`. -/
  | overflow (segno size : ℕ)
  /-- No error of the source: the blocks of the segment were read outside of a chunk. -/
  | outsideChunk
  deriving DecidableEq, Repr

/-- The length below which missing blocks are to be taken from older backups. -/
def truncationBlockLength (limitBlock : UInt32) (startBlkno size : ℕ) : ℕ :=
  if limitBlock ≠ invalidBlockNumber then
    let relativeLimit := limitBlock.toNat - startBlkno
    if size / blcksz < relativeLimit then relativeLimit else size / blcksz
  else size / blcksz

/-- What is sent of a relation fork with an entry in the block reference table. -/
def methodOfEntry (brtentry : BlockRefTableEntry) (segno size : ℕ) :
    Except BackupError FileBackupMethod :=
  let startBlkno := segno * relsegSize % 2 ^ 32
  if brtentry.limitBlock.toNat ≤ startBlkno then .ok .backUpFileFully
  else
    let stopBlkno := (startBlkno + size / blcksz) % 2 ^ 32
    if startBlkno / relsegSize ≠ segno ∨ stopBlkno < startBlkno then .error (.overflow segno size)
    else
      match brtentry.entryGetBlocks startBlkno stopBlkno relsegSize with
      | none => .error .outsideChunk
      | some blocks =>
        -- `nblocks * BLCKSZ > size * 0.9`, which is exact: both sides are multiples of `BLCKSZ /
        -- 10`
        -- below `2 ^ 30`, so rounding does not change the comparison
        if blocks.length * blcksz * 10 > size * 9 then .ok .backUpFileFully
        else
          let sorted := blocks.mergeSort (· ≤ ·)
          .ok (.backUpFileIncrementally (sorted.map (· - startBlkno))
            (truncationBlockLength brtentry.limitBlock startBlkno size))

/-- The key of the special entry for the database as a whole. -/
def databaseKey (key : BlockRefTableKey) : BlockRefTableKey :=
  { key with relNumber := 0, forknum := mainForknum }

/-- `GetFileBackupMethod`. The manifest of the prior backup has the file or an incremental file for
it when `inManifest` or `incrementalInManifest` is true. -/
def getFileBackupMethod (brtab : BlockRefTable) (inManifest incrementalInManifest : Bool)
    (key : BlockRefTableKey) (segno size : ℕ) : Except BackupError FileBackupMethod :=
  if size % blcksz ≠ 0 ∨ size / blcksz > relsegSize then .ok .backUpFileFully
  else if key.forknum = fsmForknum then .ok .backUpFileFully
  else if !inManifest && !incrementalInManifest then .ok .backUpFileFully
  else if (brtab.lookup (databaseKey key)).isSome then .ok .backUpFileFully
  else
    match brtab.lookup key with
    | none =>
      if size = 0 then .ok .backUpFileFully
      else .ok (.backUpFileIncrementally [] (size / blcksz))
    | some brtentry => methodOfEntry brtentry segno size

/-! ### When the whole file is sent -/

/-- A segment file of a relation fork. -/
structure SegmentFile where
  key : BlockRefTableKey
  segno : ℕ
  relNumber_ne_zero : key.relNumber ≠ 0
  segno_lt : segno < 32768

namespace SegmentFile

variable (seg : SegmentFile)

/-- The first block of the segment. -/
def start : ℕ := seg.segno * relsegSize

theorem start_lt : seg.start + relsegSize ≤ 2 ^ 32 := by
  have := seg.segno_lt
  rw [start, relsegSize]
  omega

/-- The blocks of the segment that are recorded as modified, up to a length of the file. -/
def modifiedBlocks (ops : List EntryOp) (len : ℕ) : Set ℕ :=
  {b | b ∈ (Fork.run ops).modified ∧ seg.start ≤ b ∧ b < seg.start + len}

/-- The whole file is sent: it is a free space map, or the prior backup has no file for it, or the
database is new, or the file is empty and nothing is recorded for the relation fork, or the
relation was truncated to the start of the segment or below, or more than nine tenths of the
blocks are modified. -/
def Whole (inPrior : Bool) (record : List (BlockRefTableKey × EntryOp)) (len : ℕ) : Prop :=
  seg.key.forknum = fsmForknum ∨ inPrior = false ∨ opsFor (databaseKey seg.key) record ≠ [] ∨
    (opsFor seg.key record = [] ∧ len = 0) ∨ CutOff (opsFor seg.key record) seg.start ∨
    9 * len < 10 * (seg.modifiedBlocks (opsFor seg.key record) len).ncard

/-- The relation was truncated, but never to a length within the segment or below. -/
def LimitBeyond (ops : List EntryOp) : Prop :=
  (∃ nblocks, .setLimitBlock nblocks ∈ ops) ∧ ¬CutOff ops (seg.start + relsegSize)

end SegmentFile

/-- What an incremental file has: the modified blocks, and a length that is at least that of the
file. The length is too large for a segment when all truncations were beyond the segment. -/
structure IncrementalSpec (seg : SegmentFile) (ops : List EntryOp) (len : ℕ)
    (relativeBlockNumbers : List ℕ) (truncationBlockLength : ℕ) : Prop where
  mem_iff : ∀ r, r ∈ relativeBlockNumbers ↔ r < len ∧ seg.start + r ∈ (Fork.run ops).modified
  nodup : relativeBlockNumbers.Nodup
  le : len ≤ truncationBlockLength
  gt_iff : relsegSize < truncationBlockLength ↔ seg.LimitBeyond ops

section Method

variable {seg : SegmentFile} {len : ℕ}

theorem segmentRange (seg : SegmentFile) (hlen : len ≤ relsegSize) :
    BlockRefTableEntry.SegmentRange seg.start (seg.start + len) := by
  refine ⟨?_, Nat.le_add_right _ _, Nat.add_le_add_left hlen _⟩
  rw [SegmentFile.start, relsegSize, blocksPerChunk]
  omega

theorem truncationBlockLength_spec (seg : SegmentFile) (ops : List EntryOp)
    (hlen : len ≤ relsegSize)
    (hvalid : ∀ n, .setLimitBlock n ∈ ops → n ≠ invalidBlockNumber) :
    len ≤ truncationBlockLength (Fork.run ops).limitBlock seg.start (len * blcksz) ∧
      (relsegSize < truncationBlockLength (Fork.run ops).limitBlock seg.start (len * blcksz) ↔
        seg.LimitBeyond ops) := by
  have hsize : len * blcksz / blcksz = len := Nat.mul_div_cancel len (by decide)
  rw [truncationBlockLength, hsize, SegmentFile.LimitBeyond]
  rcases limitBlock_spec ops with ⟨hnone, hinvalid⟩ | ⟨hmem, hmin⟩
  · rw [if_neg (not_not.mpr hinvalid)]
    refine ⟨Nat.le_refl _, iff_of_false (Nat.not_lt.mpr hlen) ?_⟩
    rintro ⟨⟨n, hn⟩, -⟩
    exact hnone n hn
  · rw [if_pos (hvalid _ hmem)]
    have hcut : ¬CutOff ops (seg.start + relsegSize) ↔
        seg.start + relsegSize < (Fork.run ops).limitBlock.toNat := by
      rw [← Nat.not_le, not_iff_not]
      constructor
      · rintro ⟨n, hn, hle⟩
        exact (UInt32.le_iff_toNat_le.mp (hmin n hn)).trans hle
      · exact fun hle => ⟨_, hmem, hle⟩
    have hsome : ∃ n, .setLimitBlock n ∈ ops := ⟨_, hmem⟩
    rw [and_iff_right hsome, hcut]
    dsimp only
    split_ifs <;> omega

/-- The number of blocks that are found. -/
theorem length_found {entry : BlockRefTableEntry} {ops : List EntryOp}
    (htidy : entry.Tidy) (hrep : entry.Represents (Fork.run ops)) :
    (entry.found seg.start (seg.start + len)).length = (seg.modifiedBlocks ops len).ncard := by
  have hset : seg.modifiedBlocks ops len =
      ((entry.found seg.start (seg.start + len)).toFinset : Set ℕ) := by
    ext b
    rw [coe_toFinset, Set.mem_ofPred_eq]
    rw [BlockRefTableEntry.mem_found, hrep.blocks]
    rfl
  rw [hset, Set.ncard_coe_finset, toFinset_card_of_nodup]
  exact BlockRefTableEntry.nodup_found htidy

/-- What is sent of a relation fork with an entry. -/
theorem methodOfEntry_eq {entry : BlockRefTableEntry} {ops : List EntryOp}
    (htidy : entry.Tidy) (hrep : entry.Represents (Fork.run ops)) (hlen : len ≤ relsegSize)
    (hend : seg.start + len < 2 ^ 32)
    (hvalid : ∀ n, .setLimitBlock n ∈ ops → n ≠ invalidBlockNumber) :
    (CutOff ops seg.start ∨ 9 * len < 10 * (seg.modifiedBlocks ops len).ncard →
      methodOfEntry entry seg.segno (len * blcksz) = .ok .backUpFileFully) ∧
    (¬(CutOff ops seg.start ∨ 9 * len < 10 * (seg.modifiedBlocks ops len).ncard) →
      ∃ numbers truncation,
        methodOfEntry entry seg.segno (len * blcksz) =
          .ok (.backUpFileIncrementally numbers truncation) ∧
        IncrementalSpec seg ops len numbers truncation) := by
  have hsegno := seg.segno_lt
  have hsize : len * blcksz / blcksz = len := Nat.mul_div_cancel len (by decide)
  have hstart : seg.segno * relsegSize % 2 ^ 32 = seg.start := by
    rw [SegmentFile.start, relsegSize]
    omega
  have hstop : (seg.start + len) % 2 ^ 32 = seg.start + len := Nat.mod_eq_of_lt hend
  have hlimit : entry.limitBlock.toNat ≤ seg.start ↔ CutOff ops seg.start := by
    rw [hrep.limitBlock]
    refine limitBlock_le_iff ops ?_
    rw [SegmentFile.start, relsegSize]
    have hmax : invalidBlockNumber.toNat = 2 ^ 32 - 1 := rfl
    omega
  have hbounds : ¬(seg.start / relsegSize ≠ seg.segno ∨ seg.start + len < seg.start) := by
    rw [SegmentFile.start, relsegSize]
    omega
  have hmany : (entry.found seg.start (seg.start + len)).length * blcksz * 10 >
      len * blcksz * 9 ↔ 9 * len < 10 * (seg.modifiedBlocks ops len).ncard := by
    rw [length_found htidy hrep, blcksz]
    omega
  have hget : entry.entryGetBlocks seg.start (seg.start + len) relsegSize =
      some (entry.found seg.start (seg.start + len)) :=
    BlockRefTableEntry.entryGetBlocks_segment htidy (segmentRange seg hlen)
  rw [methodOfEntry]
  rw [hstart, hsize, hstop, if_neg hbounds, hget]
  dsimp only
  constructor
  · rintro (hcut | hwhole)
    · rw [if_pos (hlimit.mpr hcut)]
    · rw [if_pos (hmany.mpr hwhole), ite_self]
  · intro hnot
    rw [not_or] at hnot
    rw [if_neg fun h => hnot.1 (hlimit.mp h), if_neg fun h => hnot.2 (hmany.mp h)]
    obtain ⟨hle, hgt⟩ := truncationBlockLength_spec seg ops hlen hvalid
    rw [hrep.limitBlock]
    refine ⟨_, _, rfl, fun r => ?_, ?_, hle, hgt⟩
    · rw [mem_map]
      constructor
      · rintro ⟨b, hb, rfl⟩
        rw [mem_mergeSort, BlockRefTableEntry.mem_found, hrep.blocks] at hb
        rw [Nat.add_sub_cancel' hb.2.1]
        exact ⟨by omega, hb.1⟩
      · rintro ⟨hr, hmem⟩
        refine ⟨seg.start + r, ?_, Nat.add_sub_cancel_left _ _⟩
        rw [mem_mergeSort, BlockRefTableEntry.mem_found, hrep.blocks]
        exact ⟨hmem, by omega, by omega⟩
    · have hsorted : ((entry.found seg.start (seg.start + len)).mergeSort (· ≤ ·)).Nodup :=
        (mergeSort_perm _ _).nodup_iff.mpr (BlockRefTableEntry.nodup_found htidy)
      refine hsorted.map_on fun a ha b hb heq => ?_
      rw [mem_mergeSort, BlockRefTableEntry.mem_found] at ha hb
      omega

theorem getFileBackupMethod_eq (seg : SegmentFile) (inManifest incrementalInManifest : Bool)
    (record : List (BlockRefTableKey × EntryOp)) (hlen : len ≤ relsegSize)
    (hend : seg.start + len < 2 ^ 32)
    (hvalid : ∀ n, .setLimitBlock n ∈ opsFor seg.key record → n ≠ invalidBlockNumber) :
    (seg.Whole (inManifest || incrementalInManifest) record len →
      getFileBackupMethod (.run record) inManifest incrementalInManifest seg.key seg.segno
        (len * blcksz) = .ok .backUpFileFully) ∧
    (¬seg.Whole (inManifest || incrementalInManifest) record len →
      ∃ numbers truncation,
        getFileBackupMethod (.run record) inManifest incrementalInManifest seg.key seg.segno
          (len * blcksz) = .ok (.backUpFileIncrementally numbers truncation) ∧
        IncrementalSpec seg (opsFor seg.key record) len numbers truncation) := by
  have hsize : ¬(len * blcksz % blcksz ≠ 0 ∨ len * blcksz / blcksz > relsegSize) := by
    rw [Nat.mul_mod_left, Nat.mul_div_cancel len (by decide)]
    omega
  have hdatabase : ((BlockRefTable.run record).lookup (databaseKey seg.key)).isSome ↔
      opsFor (databaseKey seg.key) record ≠ [] := by
    rcases BlockRefTable.lookup_run record (databaseKey seg.key) with
      ⟨hnil, hnone⟩ | ⟨hne, entry, hsome, -⟩
    · simp [hnil, hnone]
    · simp [hne, hsome]
  rw [getFileBackupMethod, if_neg hsize, SegmentFile.Whole]
  by_cases hfork : seg.key.forknum = fsmForknum
  · rw [if_pos hfork]
    exact ⟨fun _ => rfl, fun hnot => absurd (.inl hfork) hnot⟩
  rw [if_neg hfork]
  by_cases hmanifest : (inManifest || incrementalInManifest) = false
  · have hneither : (!inManifest && !incrementalInManifest) = true := by
      cases inManifest <;> cases incrementalInManifest <;> simp_all
    rw [if_pos hneither]
    exact ⟨fun _ => rfl, fun hnot => absurd (.inr (.inl hmanifest)) hnot⟩
  have hsome : ¬(!inManifest && !incrementalInManifest) = true := by
    cases inManifest <;> cases incrementalInManifest <;> simp_all
  rw [if_neg hsome]
  by_cases hdb : opsFor (databaseKey seg.key) record ≠ []
  · rw [if_pos (hdatabase.mpr hdb)]
    exact ⟨fun _ => rfl, fun hnot => absurd (.inr (.inr (.inl hdb))) hnot⟩
  rw [if_neg fun h => hdb (hdatabase.mp h)]
  simp only [hfork, hmanifest, hdb, Bool.true_eq_false, false_or]
  -- what remains is decided by the entry of the relation fork
  rcases BlockRefTable.lookup_run record seg.key with
    ⟨hnil, hnone⟩ | ⟨hne, entry, hentry, hrep, htidy⟩
  · have hmodified : seg.modifiedBlocks [] len = ∅ := by
      ext b
      exact iff_of_false (fun hb => hb.1) (Set.notMem_empty b)
    have hcut : ¬CutOff [] seg.start := fun ⟨n, hn, _⟩ => absurd hn not_mem_nil
    rw [hnil, hnone, hmodified, Set.ncard_empty]
    simp only [true_and, hcut, Nat.mul_zero, Nat.not_lt_zero, or_false]
    constructor
    · rintro rfl
      rw [Nat.zero_mul, if_pos rfl]
    · intro hpos
      have hsize' : len * blcksz ≠ 0 := Nat.mul_ne_zero hpos (by decide)
      rw [if_neg hsize', Nat.mul_div_cancel len (by decide)]
      refine ⟨[], len, rfl, fun r => ?_, nodup_nil, Nat.le_refl _, ?_⟩
      · exact iff_of_false not_mem_nil fun h => h.2
      · refine iff_of_false (Nat.not_lt.mpr hlen) ?_
        rintro ⟨⟨n, hn⟩, -⟩
        exact absurd hn not_mem_nil
  · rw [hentry]
    simp only [hne, false_and, false_or]
    exact methodOfEntry_eq htidy hrep hlen hend hvalid

end Method

end PgCutover.IncrBackup
