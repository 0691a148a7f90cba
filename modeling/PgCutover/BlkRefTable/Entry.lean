import PgCutover.Lib.Memory
import Mathlib.Data.Nat.Prime.Basic

/-!
# Block reference table entries

The entry of one relation fork in `blkreftable.c`. The blocks of a fork are divided into chunks.
The modified blocks of a chunk are kept as an array of offsets and, once there are too many of
them, as a bitmap. The abstract content of an entry is its limit block and the set of its
modified blocks (`BlockRefTableEntry.blocks`); `mem_blocks_markBlockModified` and
`mem_blocks_setLimitBlock` say how the operations change it.
-/

namespace PgCutover.BlkRefTable

open Lib Function List

/-- The blocks that one chunk is about (`BLOCKS_PER_CHUNK`). -/
def blocksPerChunk : ℕ := 65536

/-- The words of a chunk that is a bitmap; a shorter chunk is an array of offsets. -/
def maxEntriesPerChunk : ℕ := 4096

/-- The words that a chunk has at first. -/
def initialEntriesPerChunk : ℕ := 16

/-- `InvalidBlockNumber`, here the limit of a fork that was never truncated. -/
def invalidBlockNumber : UInt32 := 0xFFFFFFFF

/-- `BlockRefTableKey`: the relation file locator and the fork number. -/
structure BlockRefTableKey where
  spcOid : UInt32
  dbOid : UInt32
  relNumber : UInt32
  forknum : UInt32
  deriving DecidableEq, Repr

/-- The words of a chunk, either offsets or a bitmap. -/
abbrev BlockRefTableChunk := ℕ → BitVec 16

/-- `BlockRefTableEntry`. The arrays have `nchunks` elements. -/
structure BlockRefTableEntry where
  key : BlockRefTableKey
  limitBlock : UInt32
  nchunks : ℕ
  chunkSize : ℕ → ℕ
  chunkUsage : ℕ → ℕ
  chunkData : ℕ → BlockRefTableChunk

/-- An entry without chunks. -/
def newEntry (key : BlockRefTableKey) (limitBlock : UInt32) : BlockRefTableEntry where
  key := key
  limitBlock := limitBlock
  nchunks := 0
  chunkSize _ := 0
  chunkUsage _ := 0
  chunkData _ _ := 0#16

/-- An entry without modified blocks and without a limit. -/
def createBlockRefTableEntry (key : BlockRefTableKey) : BlockRefTableEntry :=
  newEntry key invalidBlockNumber

namespace BlockRefTableEntry

/-! ### Operations -/

/-- Replace a chunk and the number of its elements in use. -/
def setChunk (entry : BlockRefTableEntry) (chunkno usage : ℕ) (chunk : BlockRefTableChunk) :
    BlockRefTableEntry :=
  { entry with
    chunkUsage := update entry.chunkUsage chunkno usage
    chunkData := update entry.chunkData chunkno chunk }

/-- The chunk is allocated with the given number of words. -/
def setChunkSize (entry : BlockRefTableEntry) (chunkno size : ℕ) : BlockRefTableEntry :=
  { entry with chunkSize := update entry.chunkSize chunkno size }

/-- Discard the contents of all chunks above one. -/
def discardHigher (entry : BlockRefTableEntry) (limitChunkno : ℕ) : BlockRefTableEntry :=
  { entry with
    chunkUsage := fun chunkno =>
      if limitChunkno < chunkno ∧ chunkno < entry.nchunks then 0 else entry.chunkUsage chunkno }

/-- What `BlockRefTableEntrySetLimitBlock` does to the chunk that holds the limit. -/
def discardOffsets (entry : BlockRefTableEntry) (limitChunkno limitChunkoffset : ℕ) :
    BlockRefTableEntry :=
  let limitChunk := entry.chunkData limitChunkno
  if entry.chunkUsage limitChunkno = maxEntriesPerChunk then
    entry.setChunk limitChunkno maxEntriesPerChunk
      ((List.range' limitChunkoffset (blocksPerChunk - limitChunkoffset)).foldl unsetBit limitChunk)
  else
    let kept := filterInPlace (fun offset => offset.toNat < limitChunkoffset) limitChunk
      (entry.chunkUsage limitChunkno)
    entry.setChunk limitChunkno kept.2 kept.1

/-- `BlockRefTableEntrySetLimitBlock`. -/
def setLimitBlock (entry : BlockRefTableEntry) (limitBlock : UInt32) : BlockRefTableEntry :=
  if limitBlock ≥ entry.limitBlock then entry
  else
    let entry := { entry with limitBlock := limitBlock }
    let limitChunkno := limitBlock.toNat / blocksPerChunk
    let limitChunkoffset := limitBlock.toNat % blocksPerChunk
    if limitChunkno ≥ entry.nchunks then entry
    else (entry.discardHigher limitChunkno).discardOffsets limitChunkno limitChunkoffset

/-- Double a number until it is large enough: `while (max_chunks < chunkno + 1)`. -/
def growChunks (needed : ℕ) : ℕ → ℕ → ℕ
  | 0, maxChunks => maxChunks
  | fuel + 1, maxChunks =>
    if maxChunks < needed then growChunks needed fuel (maxChunks * 2) else maxChunks

/-- Enlarge the arrays so that they have an element for a chunk. -/
def enlarge (entry : BlockRefTableEntry) (chunkno : ℕ) : BlockRefTableEntry :=
  if chunkno ≥ entry.nchunks then
    { entry with
      nchunks := growChunks (chunkno + 1) (chunkno + 1) (max 16 entry.nchunks)
      chunkSize := fun c => if c < entry.nchunks then entry.chunkSize c else 0
      chunkUsage := fun c => if c < entry.nchunks then entry.chunkUsage c else 0
      chunkData := fun c => if c < entry.nchunks then entry.chunkData c else fun _ => 0#16 }
  else entry

/-- Add an offset to the chunk of a block, which exists. -/
def addOffset (entry : BlockRefTableEntry) (chunkno chunkoffset : ℕ) : BlockRefTableEntry :=
  let usage := entry.chunkUsage chunkno
  let chunk := entry.chunkData chunkno
  if usage = maxEntriesPerChunk then
    entry.setChunk chunkno maxEntriesPerChunk (setBit chunk chunkoffset)
  else if BitVec.ofNat 16 chunkoffset ∈ inUse chunk usage then entry
  else if usage = maxEntriesPerChunk - 1 then
    -- convert to a bitmap
    let newchunk := ((inUse chunk usage).map BitVec.toNat).foldl setBit fun _ => 0#16
    (entry.setChunk chunkno maxEntriesPerChunk (setBit newchunk chunkoffset)).setChunkSize chunkno
      maxEntriesPerChunk
  else
    let entry :=
      if usage = entry.chunkSize chunkno then
        entry.setChunkSize chunkno (entry.chunkSize chunkno * 2)
      else entry
    entry.setChunk chunkno (usage + 1) (update chunk usage (BitVec.ofNat 16 chunkoffset))

/-- `BlockRefTableEntryMarkBlockModified`. -/
def markBlockModified (entry : BlockRefTableEntry) (blknum : UInt32) : BlockRefTableEntry :=
  let chunkno := blknum.toNat / blocksPerChunk
  let chunkoffset := blknum.toNat % blocksPerChunk
  let entry := entry.enlarge chunkno
  if entry.chunkSize chunkno = 0 then
    (entry.setChunk chunkno 1
      (update (fun _ => 0#16) 0 (BitVec.ofNat 16 chunkoffset))).setChunkSize chunkno
      initialEntriesPerChunk
  else entry.addOffset chunkno chunkoffset

/-! ### Contents -/

/-- The offsets in a chunk, in the order in which they are stored. -/
def offsets (usage : ℕ) (chunk : BlockRefTableChunk) : List ℕ :=
  if usage = maxEntriesPerChunk then (List.range blocksPerChunk).filter (bitIsSet chunk)
  else (inUse chunk usage).map BitVec.toNat

/-- The block numbers that a chunk stands for. -/
def chunkBlocks (entry : BlockRefTableEntry) (chunkno : ℕ) : List ℕ :=
  (offsets (entry.chunkUsage chunkno) (entry.chunkData chunkno)).map (chunkno * blocksPerChunk + ·)

/-- The modified blocks, chunk by chunk. -/
def blocks (entry : BlockRefTableEntry) : List ℕ :=
  (List.range entry.nchunks).flatMap entry.chunkBlocks

/-- The sizes of an entry: elements in use are allocated, no chunk has more than the maximum, and
sizes can be doubled up to it. -/
structure WellSized (entry : BlockRefTableEntry) : Prop where
  nchunks_le : entry.nchunks ≤ 131072
  usage_le : ∀ c, entry.chunkUsage c ≤ entry.chunkSize c
  size_dvd : ∀ c, entry.chunkSize c = 0 ∨ entry.chunkSize c ∣ maxEntriesPerChunk

theorem wellSized_newEntry (key : BlockRefTableKey) (limitBlock : UInt32) :
    (newEntry key limitBlock).WellSized :=
  ⟨Nat.zero_le _, fun _ => le_rfl, fun _ => .inl rfl⟩

theorem WellSized.usage_le_max {entry : BlockRefTableEntry} (h : entry.WellSized) (c : ℕ) :
    entry.chunkUsage c ≤ maxEntriesPerChunk := by
  refine (h.usage_le c).trans ?_
  rcases h.size_dvd c with hzero | hdvd
  · rw [hzero]
    exact Nat.zero_le _
  · exact Nat.le_of_dvd (by decide) hdvd

theorem lt_of_mem_offsets {usage n : ℕ} {chunk : BlockRefTableChunk}
    (h : n ∈ offsets usage chunk) : n < blocksPerChunk := by
  rw [offsets] at h
  split_ifs at h
  · exact mem_range.mp (mem_filter.mp h).1
  · obtain ⟨x, -, rfl⟩ := mem_map.mp h
    exact x.isLt

theorem chunk_of_offset (c : ℕ) {n : ℕ} (h : n < blocksPerChunk) :
    (c * blocksPerChunk + n) / blocksPerChunk = c ∧
      (c * blocksPerChunk + n) % blocksPerChunk = n := by
  unfold blocksPerChunk at *
  omega

theorem mem_blocks {entry : BlockRefTableEntry} {b : ℕ} :
    b ∈ entry.blocks ↔ b / blocksPerChunk < entry.nchunks ∧
      b % blocksPerChunk ∈ offsets (entry.chunkUsage (b / blocksPerChunk))
        (entry.chunkData (b / blocksPerChunk)) := by
  rw [blocks, mem_flatMap]
  constructor
  · rintro ⟨c, hc, hb⟩
    obtain ⟨n, hn, rfl⟩ := mem_map.mp hb
    obtain ⟨hdiv, hmod⟩ := chunk_of_offset c (lt_of_mem_offsets hn)
    rw [hdiv, hmod]
    exact ⟨mem_range.mp hc, hn⟩
  · rintro ⟨hc, hn⟩
    exact ⟨_, mem_range.mpr hc, mem_map.mpr ⟨_, hn, Nat.div_add_mod' b blocksPerChunk⟩⟩

/-! ### The limit block -/

section Operations

variable {entry : BlockRefTableEntry} {b chunkno usage : ℕ} {chunk : BlockRefTableChunk}

theorem mem_offsets_array {n : ℕ} (husage : usage ≠ maxEntriesPerChunk) :
    n ∈ offsets usage chunk ↔ ∃ x ∈ inUse chunk usage, x.toNat = n := by
  rw [offsets, if_neg husage, mem_map]

theorem mem_offsets_bitmap {n : ℕ} :
    n ∈ offsets maxEntriesPerChunk chunk ↔ n < blocksPerChunk ∧ bitIsSet chunk n = true := by
  rw [offsets, if_pos rfl, mem_filter, mem_range]

theorem offsets_zero : offsets 0 chunk = [] := rfl

theorem mem_blocks_setChunk :
    b ∈ (entry.setChunk chunkno usage chunk).blocks ↔
      if b / blocksPerChunk = chunkno then
        chunkno < entry.nchunks ∧ b % blocksPerChunk ∈ offsets usage chunk
      else b ∈ entry.blocks := by
  rw [mem_blocks, setChunk]
  dsimp only
  split_ifs with hchunk
  · rw [hchunk, update_self, update_self]
  · rw [update_of_ne hchunk, update_of_ne hchunk, mem_blocks]

theorem offset_lt (b : ℕ) : b % blocksPerChunk < blocksPerChunk := Nat.mod_lt b (by decide)

/-- A block below another one is in a lower chunk, or in the same chunk with a lower offset. -/
theorem lt_iff_chunk_lt (b limit : ℕ) :
    b < limit ↔ b / blocksPerChunk < limit / blocksPerChunk ∨
      b / blocksPerChunk = limit / blocksPerChunk ∧
        b % blocksPerChunk < limit % blocksPerChunk := by
  unfold blocksPerChunk
  omega

/-- What is kept of the chunk that has the limit block. -/
theorem mem_offsets_filterInPlace {n limit : ℕ} (husage : usage < maxEntriesPerChunk) :
    n ∈ offsets (filterInPlace (fun x : BitVec 16 => x.toNat < limit) chunk usage).2
        (filterInPlace (fun x : BitVec 16 => x.toNat < limit) chunk usage).1 ↔
      n < limit ∧ n ∈ offsets usage chunk := by
  obtain ⟨hle, hkept, -⟩ := filterInPlace_spec (fun x : BitVec 16 => x.toNat < limit) chunk usage
  rw [mem_offsets_array (hle.trans_lt husage).ne, mem_offsets_array husage.ne, hkept]
  simp only [mem_filter, decide_eq_true_eq]
  constructor
  · rintro ⟨x, ⟨hx, hlt⟩, rfl⟩
    exact ⟨hlt, x, hx, rfl⟩
  · rintro ⟨hlt, x, hx, rfl⟩
    exact ⟨x, ⟨hx, hlt⟩, rfl⟩

theorem mem_blocks_discardHigher {limitChunkno : ℕ} :
    b ∈ (entry.discardHigher limitChunkno).blocks ↔
      b / blocksPerChunk ≤ limitChunkno ∧ b ∈ entry.blocks := by
  rw [mem_blocks, mem_blocks, discardHigher]
  dsimp only
  split_ifs with hhigher
  · rw [offsets_zero]
    simp only [not_mem_nil, and_false, false_iff]
    omega
  · constructor
    · rintro ⟨hc, hn⟩
      exact ⟨by omega, hc, hn⟩
    · exact fun h => h.2

theorem mem_blocks_discardOffsets {limitChunkno limitChunkoffset : ℕ}
    (husage : entry.chunkUsage limitChunkno ≤ maxEntriesPerChunk) :
    b ∈ (entry.discardOffsets limitChunkno limitChunkoffset).blocks ↔
      (b / blocksPerChunk = limitChunkno → b % blocksPerChunk < limitChunkoffset) ∧
        b ∈ entry.blocks := by
  have hoff := offset_lt b
  rw [discardOffsets]
  split_ifs with hbitmap
  all_goals rw [mem_blocks_setChunk]
  · split_ifs with hchunk
    · rw [mem_blocks, hchunk, hbitmap, mem_offsets_bitmap, mem_offsets_bitmap,
        bitIsSet_foldl_unsetBit (by decide), mem_range'_1]
      have hrange : ¬ (limitChunkoffset ≤ b % blocksPerChunk ∧
          b % blocksPerChunk < limitChunkoffset + (blocksPerChunk - limitChunkoffset)) ↔
            b % blocksPerChunk < limitChunkoffset := by omega
      rw [hrange]
      simp only [forall_const]
      tauto
    · simp [hchunk]
  · split_ifs with hchunk
    · rw [mem_offsets_filterInPlace (lt_of_le_of_ne husage hbitmap), mem_blocks, hchunk]
      simp only [forall_const]
      tauto
    · simp [hchunk]

theorem mem_blocks_setLimitBlock (hw : entry.WellSized) {limitBlock : UInt32}
    (hlower : limitBlock < entry.limitBlock) :
    b ∈ (entry.setLimitBlock limitBlock).blocks ↔ b < limitBlock.toNat ∧ b ∈ entry.blocks := by
  rw [setLimitBlock, if_neg (UInt32.not_le.mpr hlower), lt_iff_chunk_lt]
  have hblocks : { entry with limitBlock := limitBlock }.blocks = entry.blocks := rfl
  dsimp only
  split_ifs with hnone
  · -- all chunks are below the one of the limit block
    rw [hblocks]
    refine ⟨fun h => ⟨.inl ?_, h⟩, fun h => h.2⟩
    have := (mem_blocks.mp h).1
    omega
  · have husage : ({ entry with limitBlock := limitBlock }.discardHigher
        (limitBlock.toNat / blocksPerChunk)).chunkUsage (limitBlock.toNat / blocksPerChunk) ≤
          maxEntriesPerChunk := by
      rw [discardHigher]
      dsimp only
      rw [if_neg (by omega)]
      exact hw.usage_le_max _
    rw [mem_blocks_discardOffsets husage, mem_blocks_discardHigher]
    constructor
    · rintro ⟨hsame, hle, hb⟩
      exact ⟨hle.lt_or_eq.imp_right fun h => ⟨h, hsame h⟩, hb⟩
    · rintro ⟨hlt, hb⟩
      exact ⟨fun h => by omega, by omega, hb⟩

/-- A limit block that is not lower changes nothing. -/
theorem setLimitBlock_of_ge {limitBlock : UInt32} (h : entry.limitBlock ≤ limitBlock) :
    entry.setLimitBlock limitBlock = entry := if_pos h

theorem setLimitBlock_frame (entry : BlockRefTableEntry) (limitBlock : UInt32) :
    (entry.setLimitBlock limitBlock).key = entry.key ∧
      (entry.setLimitBlock limitBlock).limitBlock =
        if limitBlock < entry.limitBlock then limitBlock else entry.limitBlock := by
  by_cases hlower : limitBlock < entry.limitBlock
  · rw [setLimitBlock, if_neg (UInt32.not_le.mpr hlower), if_pos hlower]
    dsimp only
    split_ifs
    · exact ⟨rfl, rfl⟩
    · rw [discardOffsets]
      split_ifs <;> exact ⟨rfl, rfl⟩
  · rw [setLimitBlock_of_ge (UInt32.not_lt.mp hlower), if_neg hlower]
    exact ⟨rfl, rfl⟩

theorem WellSized.setChunk (h : entry.WellSized) (husage : usage ≤ entry.chunkSize chunkno) :
    (entry.setChunk chunkno usage chunk).WellSized := by
  refine ⟨h.nchunks_le, fun c => ?_, h.size_dvd⟩
  rw [BlockRefTableEntry.setChunk]
  dsimp only
  by_cases hc : c = chunkno
  · rw [hc, update_self]
    exact husage
  · rw [update_of_ne hc]
    exact h.usage_le c

theorem WellSized.discardOffsets (h : entry.WellSized) (limitChunkno limitChunkoffset : ℕ) :
    (entry.discardOffsets limitChunkno limitChunkoffset).WellSized := by
  rw [BlockRefTableEntry.discardOffsets]
  split_ifs with hbitmap
  · exact h.setChunk (hbitmap ▸ h.usage_le _)
  · exact h.setChunk ((filterInPlace_spec _ _ _).1.trans (h.usage_le _))

theorem WellSized.discardHigher (h : entry.WellSized) (limitChunkno : ℕ) :
    (entry.discardHigher limitChunkno).WellSized := by
  refine ⟨h.nchunks_le, fun c => ?_, h.size_dvd⟩
  rw [BlockRefTableEntry.discardHigher]
  dsimp only
  split_ifs
  · exact Nat.zero_le _
  · exact h.usage_le c

theorem WellSized.setLimitBlock (h : entry.WellSized) (limitBlock : UInt32) :
    (entry.setLimitBlock limitBlock).WellSized := by
  rw [BlockRefTableEntry.setLimitBlock]
  dsimp only
  split_ifs
  · exact h
  · exact ⟨h.nchunks_le, h.usage_le, h.size_dvd⟩
  · apply WellSized.discardOffsets
    apply WellSized.discardHigher
    exact ⟨h.nchunks_le, h.usage_le, h.size_dvd⟩

/-! ### Modified blocks -/

/-- The new array size is large enough, and not much larger. -/
theorem growChunks_spec {needed fuel maxChunks : ℕ} (hpos : 1 ≤ maxChunks)
    (hfuel : needed ≤ maxChunks + fuel) :
    needed ≤ growChunks needed fuel maxChunks ∧
      growChunks needed fuel maxChunks ≤ max maxChunks (2 * needed) := by
  induction fuel generalizing maxChunks with
  | zero => exact ⟨hfuel, le_max_left _ _⟩
  | succ _ ih =>
    rw [growChunks]
    split_ifs with hlt
    · obtain ⟨hge, hle⟩ := ih (show 1 ≤ maxChunks * 2 by omega) (by omega)
      exact ⟨hge, by omega⟩
    · exact ⟨by omega, le_max_left _ _⟩

theorem lt_enlarge_nchunks (entry : BlockRefTableEntry) (chunkno : ℕ) :
    chunkno < (entry.enlarge chunkno).nchunks := by
  rw [enlarge]
  split_ifs with hge
  · exact (growChunks_spec (by omega) (by omega)).1
  · exact Nat.lt_of_not_le hge

theorem mem_blocks_enlarge : b ∈ (entry.enlarge chunkno).blocks ↔ b ∈ entry.blocks := by
  have hlt := lt_enlarge_nchunks entry chunkno
  rw [mem_blocks, mem_blocks]
  rw [enlarge] at hlt ⊢
  split_ifs at hlt ⊢ with hge
  · dsimp only at hlt ⊢
    split_ifs with hold
    · constructor
      · exact fun h => ⟨hold, h.2⟩
      · exact fun h => ⟨by omega, h.2⟩
    · rw [offsets_zero]
      simp [hold]
  · exact Iff.rfl

theorem WellSized.enlarge (h : entry.WellSized) (hchunk : chunkno < 65536) :
    (entry.enlarge chunkno).WellSized := by
  rw [BlockRefTableEntry.enlarge]
  split_ifs with hge
  · refine ⟨?_, fun c => ?_, fun c => ?_⟩
    · have hle : growChunks (chunkno + 1) (chunkno + 1) (max 16 entry.nchunks) ≤
          max (max 16 entry.nchunks) (2 * (chunkno + 1)) :=
        (growChunks_spec (by omega) (by omega)).2
      dsimp only
      omega
    · dsimp only
      split_ifs
      · exact h.usage_le c
      · exact le_rfl
    · dsimp only
      split_ifs
      · exact h.size_dvd c
      · exact .inl rfl
  · exact h

theorem toNat_ofNat_offset {n : ℕ} (h : n < blocksPerChunk) : (BitVec.ofNat 16 n).toNat = n := by
  exact Nat.mod_eq_of_lt h

/-- An array with one more offset. -/
theorem mem_offsets_update {n off : ℕ} (husage : usage + 1 < maxEntriesPerChunk)
    (hoff : off < blocksPerChunk) :
    n ∈ offsets (usage + 1) (update chunk usage (BitVec.ofNat 16 off)) ↔
      n = off ∨ n ∈ offsets usage chunk := by
  rw [mem_offsets_array husage.ne, mem_offsets_array (by omega), inUse_update]
  simp only [mem_append, mem_singleton, or_and_right, exists_or, exists_eq_left,
    toNat_ofNat_offset hoff]
  rw [or_comm, eq_comm]

theorem mem_blocks_addOffset {off : ℕ} (hw : entry.WellSized) (hchunk : chunkno < entry.nchunks)
    (hoff : off < blocksPerChunk) :
    b ∈ (entry.addOffset chunkno off).blocks ↔
      b / blocksPerChunk = chunkno ∧ b % blocksPerChunk = off ∨ b ∈ entry.blocks := by
  have hlt := offset_lt b
  have hmax := hw.usage_le_max chunkno
  -- it is enough to look at the offsets of the chunk
  have hsuffices : ∀ (usage : ℕ) (chunk : BlockRefTableChunk),
      (b % blocksPerChunk ∈ offsets usage chunk ↔ b % blocksPerChunk = off ∨
        b % blocksPerChunk ∈ offsets (entry.chunkUsage chunkno) (entry.chunkData chunkno)) →
      (b ∈ (entry.setChunk chunkno usage chunk).blocks ↔
        b / blocksPerChunk = chunkno ∧ b % blocksPerChunk = off ∨ b ∈ entry.blocks) := by
    intro _ _ h
    rw [mem_blocks_setChunk]
    split_ifs with heq
    · rw [h, mem_blocks, heq]
      tauto
    · simp [heq]
  rw [addOffset]
  split_ifs with hbitmap hfound hconvert hfull
  · apply hsuffices
    rw [hbitmap, mem_offsets_bitmap, mem_offsets_bitmap, bitIsSet_setBit (by decide),
      Bool.or_eq_true, decide_eq_true_eq]
    tauto
  · -- the offset is there already
    refine ⟨.inr, ?_⟩
    rintro (⟨hc, ho⟩ | hb)
    · rw [mem_blocks, hc, ho, mem_offsets_array hbitmap]
      exact ⟨hchunk, _, hfound, toNat_ofNat_offset hoff⟩
    · exact hb
  · apply hsuffices
    rw [mem_offsets_bitmap, bitIsSet_setBit (by decide), Bool.or_eq_true, decide_eq_true_eq,
      bitIsSet_foldl_setBit (by decide), bitIsSet_zero, offsets, if_neg hbitmap]
    simp only [Bool.false_eq_true, or_false, hlt, true_and]
  all_goals
    apply hsuffices
    exact mem_offsets_update (by omega) hoff

theorem blknum_eq_iff (b : ℕ) (blknum : UInt32) :
    b / blocksPerChunk = blknum.toNat / blocksPerChunk ∧
      b % blocksPerChunk = blknum.toNat % blocksPerChunk ↔ b = blknum.toNat := by
  unfold blocksPerChunk
  omega

theorem chunkno_lt (blknum : UInt32) : blknum.toNat / blocksPerChunk < 65536 := by
  have := blknum.toNat_lt
  unfold blocksPerChunk
  omega

theorem mem_blocks_markBlockModified (hw : entry.WellSized) (blknum : UInt32) :
    b ∈ (entry.markBlockModified blknum).blocks ↔ b = blknum.toNat ∨ b ∈ entry.blocks := by
  have hlt := lt_enlarge_nchunks entry (blknum.toNat / blocksPerChunk)
  have hw' := hw.enlarge (chunkno_lt blknum)
  have hoff := offset_lt blknum.toNat
  have henlarge : b ∈ (entry.enlarge (blknum.toNat / blocksPerChunk)).blocks ↔ b ∈ entry.blocks :=
    mem_blocks_enlarge
  rw [markBlockModified, ← henlarge, ← blknum_eq_iff]
  split_ifs with hsize
  · -- the chunk is created
    have hzero := Nat.le_zero.mp (hsize ▸ hw'.usage_le (blknum.toNat / blocksPerChunk))
    change b ∈ (setChunk _ _ _ _).blocks ↔ _
    rw [mem_blocks_setChunk]
    split_ifs with heq
    · have hnew : b % blocksPerChunk ∈ offsets (0 + 1) (update (fun _ => 0#16) 0
          (BitVec.ofNat 16 (blknum.toNat % blocksPerChunk))) ↔
            b % blocksPerChunk = blknum.toNat % blocksPerChunk ∨ b % blocksPerChunk ∈ [] :=
        mem_offsets_update (by decide) hoff
      have hold : b ∉ (entry.enlarge (blknum.toNat / blocksPerChunk)).blocks := by
        rw [mem_blocks, heq, hzero, offsets_zero]
        simp
      simp [heq, hlt, hold, hnew]
    · simp [heq]
  · exact mem_blocks_addOffset hw' hlt hoff

/-- A chunk may be replaced by one of another size. -/
theorem WellSized.resizeChunk {size : ℕ} (h : entry.WellSized) (husage : usage ≤ size)
    (hdvd : size ∣ maxEntriesPerChunk) :
    ((entry.setChunk chunkno usage chunk).setChunkSize chunkno size).WellSized := by
  refine ⟨h.nchunks_le, fun c => ?_, fun c => ?_⟩ <;>
    rw [BlockRefTableEntry.setChunkSize, BlockRefTableEntry.setChunk] <;> dsimp only <;>
    by_cases hc : c = chunkno
  · rw [hc, update_self, update_self]
    exact husage
  · rw [update_of_ne hc, update_of_ne hc]
    exact h.usage_le c
  · rw [hc, update_self]
    exact .inr hdvd
  · rw [update_of_ne hc]
    exact h.size_dvd c

/-- A size below the maximum can be doubled. -/
theorem double_dvd {size : ℕ} (h : size ∣ maxEntriesPerChunk) (hlt : size < maxEntriesPerChunk) :
    size * 2 ∣ maxEntriesPerChunk := by
  have hpow : maxEntriesPerChunk = 2 ^ 12 := rfl
  rw [hpow] at h hlt ⊢
  obtain ⟨k, -, rfl⟩ := (Nat.dvd_prime_pow Nat.prime_two).mp h
  have hk : k < 12 := (Nat.pow_lt_pow_iff_right (by decide)).mp hlt
  rw [← pow_succ]
  exact pow_dvd_pow 2 hk

theorem WellSized.addOffset (h : entry.WellSized) (hsize : entry.chunkSize chunkno ≠ 0) (off : ℕ) :
    (entry.addOffset chunkno off).WellSized := by
  have hdvd := (h.size_dvd chunkno).resolve_left hsize
  have husage := h.usage_le chunkno
  rw [BlockRefTableEntry.addOffset]
  split_ifs with hbitmap hfound hconvert hfull
  · exact h.setChunk (hbitmap ▸ husage)
  · exact h
  · exact h.resizeChunk le_rfl dvd_rfl
  · have hlt : entry.chunkSize chunkno < maxEntriesPerChunk :=
      hfull ▸ lt_of_le_of_ne (h.usage_le_max chunkno) hbitmap
    exact h.resizeChunk (by omega) (double_dvd hdvd hlt)
  · exact h.setChunk (by omega)

theorem WellSized.markBlockModified (h : entry.WellSized) (blknum : UInt32) :
    (entry.markBlockModified blknum).WellSized := by
  have h' := h.enlarge (chunkno_lt blknum)
  rw [BlockRefTableEntry.markBlockModified]
  split_ifs with hsize
  · exact h'.resizeChunk (by decide) (by decide)
  · exact h'.addOffset hsize _

theorem markBlockModified_frame (blknum : UInt32) :
    (entry.markBlockModified blknum).key = entry.key ∧
      (entry.markBlockModified blknum).limitBlock = entry.limitBlock := by
  have henlarge : ∀ c, (entry.enlarge c).key = entry.key ∧
      (entry.enlarge c).limitBlock = entry.limitBlock := by
    intro c
    rw [enlarge]
    split_ifs <;> exact ⟨rfl, rfl⟩
  have hadd : ∀ (e : BlockRefTableEntry) (c off : ℕ),
      (e.addOffset c off).key = e.key ∧ (e.addOffset c off).limitBlock = e.limitBlock := by
    intro e c _
    rw [addOffset]
    split_ifs <;> exact ⟨rfl, rfl⟩
  rw [markBlockModified]
  split_ifs
  · exact henlarge _
  · rw [(hadd _ _ _).1, (hadd _ _ _).2]
    exact henlarge _

end Operations

end BlockRefTableEntry

end PgCutover.BlkRefTable
