import Mathlib.Data.List.Induction
import Mathlib.Data.List.Nodup
import Mathlib.Data.List.Perm.Subperm
import Mathlib.Data.Set.Insert
import PgCutover.BlkRefTable.Entry

/-!
# Block reference tables

A block reference table has an entry for each relation fork that was touched. Abstractly it is a
partial function from keys to a limit block and a set of modified blocks (`Fork`), and the table
that results from a sequence of calls refines the one that the calls describe
(`BlockRefTable.refines_run`).
-/

namespace PgCutover.BlkRefTable

open Function List

/-- `BlockRefTable`: the entries in the hash table, in the order of its iterator. -/
structure BlockRefTable where
  hash : List BlockRefTableEntry

namespace BlockRefTable

/-- `CreateEmptyBlockRefTable`. -/
def empty : BlockRefTable := ⟨[]⟩

/-- `blockreftable_lookup`. -/
def lookup (brtab : BlockRefTable) (key : BlockRefTableKey) : Option BlockRefTableEntry :=
  brtab.hash.find? (·.key = key)

/-- `blockreftable_insert` and an update of the entry that it returns: an entry that is found is
changed, and else a new one is added. -/
def insert (brtab : BlockRefTable) (key : BlockRefTableKey)
    (change : BlockRefTableEntry → BlockRefTableEntry) (new : BlockRefTableEntry) :
    BlockRefTable :=
  if (brtab.lookup key).isSome then
    ⟨brtab.hash.map fun entry => if entry.key = key then change entry else entry⟩
  else ⟨brtab.hash ++ [new]⟩

/-- `BlockRefTableSetLimitBlock`. -/
def setLimitBlock (brtab : BlockRefTable) (key : BlockRefTableKey) (limitBlock : UInt32) :
    BlockRefTable :=
  brtab.insert key (·.setLimitBlock limitBlock) (newEntry key limitBlock)

/-- `BlockRefTableMarkBlockModified`. -/
def markBlockModified (brtab : BlockRefTable) (key : BlockRefTableKey) (blknum : UInt32) :
    BlockRefTable :=
  brtab.insert key (·.markBlockModified blknum)
    ((newEntry key invalidBlockNumber).markBlockModified blknum)

end BlockRefTable

/-- What is recorded about one fork. -/
inductive EntryOp
  | markBlockModified (blknum : UInt32)
  | setLimitBlock (limitBlock : UInt32)
  deriving DecidableEq, Repr

/-- The operation on an entry. -/
def EntryOp.apply (entry : BlockRefTableEntry) : EntryOp → BlockRefTableEntry
  | markBlockModified blknum => entry.markBlockModified blknum
  | setLimitBlock limitBlock => entry.setLimitBlock limitBlock

/-- The operation on a table. -/
def EntryOp.applyAt (brtab : BlockRefTable) (key : BlockRefTableKey) : EntryOp → BlockRefTable
  | markBlockModified blknum => brtab.markBlockModified key blknum
  | setLimitBlock limitBlock => brtab.setLimitBlock key limitBlock

/-- The table after a sequence of calls. -/
def BlockRefTable.run (ops : List (BlockRefTableKey × EntryOp)) : BlockRefTable :=
  ops.foldl (fun brtab op => op.2.applyAt brtab op.1) .empty

/-- The entry after a sequence of calls. -/
def BlockRefTableEntry.run (key : BlockRefTableKey) (ops : List EntryOp) : BlockRefTableEntry :=
  ops.foldl EntryOp.apply (createBlockRefTableEntry key)

/-! ### Contents -/

/-- What is known of a relation fork. -/
structure Fork where
  limitBlock : UInt32
  modified : Set ℕ

namespace Fork

/-- Nothing is known yet. -/
def new : Fork := ⟨invalidBlockNumber, ∅⟩

/-- A call adds a block, or forgets the blocks above a lower limit. -/
def step (fork : Fork) : EntryOp → Fork
  | .markBlockModified blknum => { fork with modified := Set.insert blknum.toNat fork.modified }
  | .setLimitBlock limitBlock =>
    open Classical in
    if limitBlock < fork.limitBlock then ⟨limitBlock, {b ∈ fork.modified | b < limitBlock.toNat}⟩
    else fork

/-- What is known after a sequence of calls. -/
def run (ops : List EntryOp) : Fork := ops.foldl step new

/-- No limit is higher than that of a new entry, so the first one is always recorded. -/
theorem new_step_setLimitBlock (limitBlock : UInt32) :
    new.step (.setLimitBlock limitBlock) = ⟨limitBlock, ∅⟩ := by
  rw [step]
  split_ifs with hlower
  · simp [new]
  · have hmax : invalidBlockNumber ≤ limitBlock := UInt32.not_lt.mp hlower
    have heq : limitBlock = invalidBlockNumber := by
      rw [UInt32.le_iff_toNat_le] at hmax
      have hlt := limitBlock.toNat_lt
      apply UInt32.toNat_inj.mp
      have hinvalid : invalidBlockNumber.toNat = 2 ^ 32 - 1 := rfl
      omega
    rw [heq]
    rfl

end Fork

/-- The calls for one relation fork. -/
def opsFor (key : BlockRefTableKey) (ops : List (BlockRefTableKey × EntryOp)) : List EntryOp :=
  (ops.filter (·.1 = key)).map Prod.snd

/-- The entry has the contents. -/
structure BlockRefTableEntry.Represents (entry : BlockRefTableEntry) (fork : Fork) : Prop where
  wellSized : entry.WellSized
  limitBlock : entry.limitBlock = fork.limitBlock
  blocks : ∀ b, b ∈ entry.blocks ↔ b ∈ fork.modified

namespace BlockRefTableEntry

variable {entry : BlockRefTableEntry} {fork : Fork}

variable (key : BlockRefTableKey)

theorem blocks_newEntry (limitBlock : UInt32) :
    (newEntry key limitBlock).blocks = [] := rfl

theorem represents_newEntry (limitBlock : UInt32) :
    (newEntry key limitBlock).Represents ⟨limitBlock, ∅⟩ :=
  ⟨wellSized_newEntry key limitBlock, rfl, fun b => by simp [blocks_newEntry]⟩

theorem Represents.apply (h : entry.Represents fork) (op : EntryOp) :
    (op.apply entry).Represents (fork.step op) ∧ (op.apply entry).key = entry.key := by
  cases op with
  | markBlockModified blknum =>
    obtain ⟨hkey, hlimit⟩ : (entry.markBlockModified blknum).key = entry.key ∧
        (entry.markBlockModified blknum).limitBlock = entry.limitBlock :=
      markBlockModified_frame blknum
    refine ⟨⟨h.wellSized.markBlockModified blknum, hlimit.trans h.limitBlock, fun b => ?_⟩, hkey⟩
    rw [EntryOp.apply, mem_blocks_markBlockModified h.wellSized, h.blocks]
    rfl
  | setLimitBlock limitBlock =>
    obtain ⟨hkey, hlimit⟩ := entry.setLimitBlock_frame limitBlock
    refine ⟨⟨h.wellSized.setLimitBlock limitBlock, ?_, fun b => ?_⟩, hkey⟩
    · rw [EntryOp.apply, hlimit, h.limitBlock, Fork.step]
      split_ifs <;> rfl
    · rw [EntryOp.apply, Fork.step, ← h.limitBlock]
      split_ifs with hlower
      · rw [mem_blocks_setLimitBlock h.wellSized hlower, h.blocks]
        exact and_comm
      · rw [setLimitBlock_of_ge (UInt32.not_lt.mp hlower), h.blocks]

theorem represents_run (ops : List EntryOp) :
    (run key ops).Represents (Fork.run ops) ∧ (run key ops).key = key := by
  have hrun : ∀ (entry : BlockRefTableEntry) (fork : Fork), entry.Represents fork →
      (ops.foldl EntryOp.apply entry).Represents (ops.foldl Fork.step fork) ∧
        (ops.foldl EntryOp.apply entry).key = entry.key := by
    induction ops with
    | nil => exact fun entry fork h => ⟨h, rfl⟩
    | cons op _ ih =>
      intro _ _ h
      obtain ⟨hstep, hkey⟩ := h.apply op
      obtain ⟨hrest, hkey'⟩ := ih _ _ hstep
      exact ⟨hrest, hkey'.trans hkey⟩
  exact hrun _ _ (represents_newEntry key invalidBlockNumber)

end BlockRefTableEntry

namespace BlockRefTable

/-- The table has an entry with the contents for each relation fork that was touched. -/
structure Refines (brtab : BlockRefTable) (forks : BlockRefTableKey → Option Fork) : Prop where
  nodup : (brtab.hash.map (·.key)).Nodup
  sound : ∀ entry ∈ brtab.hash, ∃ fork, forks entry.key = some fork ∧ entry.Represents fork
  complete : ∀ key, (forks key).isSome → key ∈ brtab.hash.map (·.key)

variable {brtab : BlockRefTable} {forks : BlockRefTableKey → Option Fork}

theorem lookup_isSome {key : BlockRefTableKey} :
    (brtab.lookup key).isSome ↔ key ∈ brtab.hash.map (·.key) := by
  rw [lookup]
  simp

/-- A call changes the contents of one relation fork. -/
theorem Refines.insert (h : brtab.Refines forks) (key : BlockRefTableKey) (fork : Fork)
    {change : BlockRefTableEntry → BlockRefTableEntry} {new : BlockRefTableEntry}
    (hchange : ∀ entry old, entry.key = key → forks key = some old → entry.Represents old →
      (change entry).Represents fork ∧ (change entry).key = key)
    (hnew : forks key = none → new.Represents fork ∧ new.key = key) :
    (brtab.insert key change new).Refines (update forks key (some fork)) := by
  rw [BlockRefTable.insert]
  split_ifs with hfound
  · -- the keys stay the same
    have hkeys : (brtab.hash.map fun entry => if entry.key = key then change entry else entry).map
        (·.key) = brtab.hash.map (·.key) := by
      rw [map_map]
      refine map_congr_left fun entry hmem => ?_
      dsimp only [comp]
      split_ifs with hkey
      · obtain ⟨old, hold, hrep⟩ := h.sound entry hmem
        rw [(hchange entry old hkey (hkey ▸ hold) hrep).2, hkey]
      · rfl
    refine ⟨by rw [hkeys]; exact h.nodup, fun entry' hmem' => ?_, fun k hk => ?_⟩
    · obtain ⟨entry, hmem, rfl⟩ := mem_map.mp hmem'
      obtain ⟨old, hold, hrep⟩ := h.sound entry hmem
      split_ifs with hkey
      · obtain ⟨hrep', hkey'⟩ := hchange entry old hkey (hkey ▸ hold) hrep
        exact ⟨fork, by rw [hkey', update_self], hrep'⟩
      · exact ⟨old, by rw [update_of_ne hkey, hold], hrep⟩
    · rw [hkeys]
      by_cases hkey : k = key
      · rw [hkey]
        exact lookup_isSome.mp hfound
      · rw [update_of_ne hkey] at hk
        exact h.complete k hk
  · have habsent : key ∉ brtab.hash.map (·.key) := fun hmem => hfound (lookup_isSome.mpr hmem)
    have hnone : forks key = none := by
      by_contra hne
      exact habsent (h.complete key (Option.isSome_iff_ne_none.mpr hne))
    obtain ⟨hrep, hkey⟩ := hnew hnone
    refine ⟨?_, fun entry hmem => ?_, fun k hk => ?_⟩
    · dsimp only
      rw [map_append, nodup_append]
      refine ⟨h.nodup, pairwise_singleton _ _, fun a ha b hb heq => ?_⟩
      rw [map_singleton, mem_singleton, hkey] at hb
      exact habsent (hb ▸ heq ▸ ha)
    · rcases mem_append.mp hmem with hold | hlast
      · obtain ⟨old, hforks, hrep'⟩ := h.sound entry hold
        have hne : entry.key ≠ key := fun heq =>
          habsent (heq ▸ mem_map_of_mem hold)
        exact ⟨old, by rw [update_of_ne hne, hforks], hrep'⟩
      · rw [mem_singleton.mp hlast, hkey]
        exact ⟨fork, update_self _ _ _, hrep⟩
    · dsimp only
      rw [map_append, mem_append, map_singleton, mem_singleton, hkey]
      by_cases hk' : k = key
      · exact .inr hk'
      · rw [update_of_ne hk'] at hk
        exact .inl (h.complete k hk)

theorem Refines.applyAt (h : brtab.Refines forks) (key : BlockRefTableKey) (op : EntryOp) :
    (op.applyAt brtab key).Refines
      (update forks key (some (((forks key).getD .new).step op))) := by
  have hchange (entry : BlockRefTableEntry) (old : Fork) (hkey : entry.key = key)
      (hold : forks key = some old) (hrep : entry.Represents old) :
      (op.apply entry).Represents (((forks key).getD .new).step op) ∧
        (op.apply entry).key = key := by
    obtain ⟨hrep', hkey'⟩ := hrep.apply op
    rw [hold]
    exact ⟨hrep', hkey'.trans hkey⟩
  cases op with
  | markBlockModified blknum =>
    refine h.insert key _ hchange fun hnone => ?_
    rw [hnone]
    exact (BlockRefTableEntry.represents_newEntry key _).apply (.markBlockModified blknum)
  | setLimitBlock limitBlock =>
    refine h.insert key _ hchange fun hnone => ⟨?_, rfl⟩
    rw [hnone, Option.getD_none, Fork.new_step_setLimitBlock]
    exact BlockRefTableEntry.represents_newEntry key limitBlock

theorem run_concat (ops : List (BlockRefTableKey × EntryOp)) (op : BlockRefTableKey × EntryOp) :
    run (ops ++ [op]) = op.2.applyAt (run ops) op.1 := by
  rw [run, foldl_append]
  rfl

/-- The table after a sequence of calls has what the calls for each relation fork describe. -/
theorem refines_run (ops : List (BlockRefTableKey × EntryOp)) :
    (run ops).Refines fun key =>
      if opsFor key ops = [] then none else some (Fork.run (opsFor key ops)) := by
  induction ops using List.reverseRecOn with
  | nil => exact ⟨nodup_nil, nofun, by simp [opsFor]⟩
  | append_singleton ops op ih =>
    have hstep := ih.applyAt op.1 op.2
    rw [run_concat]
    convert hstep using 1
    funext key
    by_cases hkey : key = op.1
    · have hops : opsFor key (ops ++ [op]) = opsFor key ops ++ [op.2] := by
        simp [opsFor, hkey]
      rw [hkey, update_self, ← hkey, hops, if_neg (by simp), Fork.run, foldl_append]
      split_ifs with hnil
      · rw [hnil]
        rfl
      · rfl
    · have hops : opsFor key (ops ++ [op]) = opsFor key ops := by
        simp [opsFor, Ne.symm hkey]
      rw [update_of_ne hkey, hops]

end BlockRefTable

/-!
## The modified blocks of a range

`BlockRefTableEntryGetBlocks` returns the modified blocks of a range, as far as there is room for
them.
-/

open Lib

namespace BlockRefTableEntry

/-- The offsets of a chunk within bounds. -/
def offsetsIn (usage : ℕ) (chunk : BlockRefTableChunk) (startOffset stopOffset : ℕ) : List ℕ :=
  if usage = maxEntriesPerChunk then
    (List.range' startOffset (stopOffset - startOffset)).filter (bitIsSet chunk)
  else
    ((inUse chunk usage).map BitVec.toNat).filter fun offset =>
      startOffset ≤ offset ∧ offset < stopOffset

/-- The first chunk that cannot contain blocks of a range. -/
def stopChunkno (entry : BlockRefTableEntry) (stopBlkno : ℕ) : ℕ :=
  let stopChunkno := stopBlkno / blocksPerChunk
  let stopChunkno := if stopBlkno % blocksPerChunk ≠ 0 then stopChunkno + 1 else stopChunkno
  if stopChunkno > entry.nchunks then entry.nchunks else stopChunkno

/-- The blocks of a range that are in a chunk, as far as the chunk goes. -/
def chunkFound (entry : BlockRefTableEntry) (startBlkno stopBlkno chunkno : ℕ) : List ℕ :=
  let startOffset :=
    if chunkno = startBlkno / blocksPerChunk then startBlkno % blocksPerChunk else 0
  let stopOffset :=
    if chunkno = entry.stopChunkno stopBlkno - 1 then stopBlkno - chunkno * blocksPerChunk
    else blocksPerChunk
  (offsetsIn (entry.chunkUsage chunkno) (entry.chunkData chunkno) startOffset
    (min stopOffset blocksPerChunk)).map (chunkno * blocksPerChunk + ·)

/-- The blocks of a range that are in the chunks. -/
def found (entry : BlockRefTableEntry) (startBlkno stopBlkno : ℕ) : List ℕ :=
  let startChunkno := startBlkno / blocksPerChunk
  (List.range' startChunkno (entry.stopChunkno stopBlkno - startChunkno)).flatMap
    (entry.chunkFound startBlkno stopBlkno)

/-- What the loop over a chunk comes across: the blocks of the range and then, where the loop over
the bits of a bitmap goes on, a word outside of it. -/
def chunkReads (entry : BlockRefTableEntry) (startBlkno stopBlkno chunkno : ℕ) : List (Option ℕ) :=
  let stopOffset :=
    if chunkno = entry.stopChunkno stopBlkno - 1 then stopBlkno - chunkno * blocksPerChunk
    else blocksPerChunk
  (entry.chunkFound startBlkno stopBlkno chunkno).map some ++
    if entry.chunkUsage chunkno = maxEntriesPerChunk ∧ blocksPerChunk < stopOffset then [none]
      else []

/-- `blocks[nresults++] = blkno`, and the return when there is no more room. -/
def store (nblocks : ℕ) : List ℕ → List (Option ℕ) → Option (List ℕ)
  | blocks, [] => some blocks
  | _, none :: _ => none
  | blocks, some blkno :: reads =>
    if (blocks ++ [blkno]).length = nblocks then some (blocks ++ [blkno])
    else store nblocks (blocks ++ [blkno]) reads

/-- `BlockRefTableEntryGetBlocks`. There is no result if it reads outside of a chunk. -/
def entryGetBlocks (entry : BlockRefTableEntry) (startBlkno stopBlkno nblocks : ℕ) :
    Option (List ℕ) :=
  let startChunkno := startBlkno / blocksPerChunk
  store nblocks [] ((List.range' startChunkno (entry.stopChunkno stopBlkno - startChunkno)).flatMap
    (entry.chunkReads startBlkno stopBlkno))

/-- The last chunk is a bitmap, and the range goes on beyond it. -/
def Overruns (entry : BlockRefTableEntry) (startBlkno stopBlkno : ℕ) : Prop :=
  startBlkno / blocksPerChunk < entry.nchunks ∧ entry.nchunks * blocksPerChunk < stopBlkno ∧
    entry.chunkUsage (entry.nchunks - 1) = maxEntriesPerChunk

instance (entry : BlockRefTableEntry) (startBlkno stopBlkno : ℕ) :
    Decidable (entry.Overruns startBlkno stopBlkno) :=
  inferInstanceAs (Decidable (_ ∧ _ ∧ _))

/-! ### Offsets occur once -/

/-- No chunk has an offset twice, and the number of chunks is even. -/
structure Tidy (entry : BlockRefTableEntry) : Prop where
  even : 2 ∣ entry.nchunks
  nodup : ∀ c, (offsets (entry.chunkUsage c) (entry.chunkData c)).Nodup

variable {entry : BlockRefTableEntry} {usage chunkno : ℕ} {chunk : BlockRefTableChunk}

theorem nodup_offsets_bitmap : (offsets maxEntriesPerChunk chunk).Nodup := by
  exact nodup_range.filter _

theorem nodup_offsets_of_inUse (h : (inUse chunk usage).Nodup) : (offsets usage chunk).Nodup := by
  by_cases husage : usage = maxEntriesPerChunk
  · rw [husage]
    exact nodup_offsets_bitmap
  · rw [offsets, if_neg husage]
    exact h.map fun _ _ => BitVec.eq_of_toNat_eq

theorem nodup_inUse (husage : usage ≠ maxEntriesPerChunk) (h : (offsets usage chunk).Nodup) :
    (inUse chunk usage).Nodup := by
  rw [offsets, if_neg husage] at h
  exact h.of_map _

theorem tidy_newEntry (key : BlockRefTableKey) (limitBlock : UInt32) :
    (newEntry key limitBlock).Tidy :=
  ⟨⟨0, rfl⟩, fun _ => nodup_nil⟩

section

variable (h : entry.Tidy)
include h

theorem Tidy.setChunk (hchunk : (offsets usage chunk).Nodup) :
    (entry.setChunk chunkno usage chunk).Tidy := by
  refine ⟨h.even, fun c => ?_⟩
  rw [BlockRefTableEntry.setChunk]
  dsimp only
  by_cases hc : c = chunkno
  · rw [hc, update_self, update_self]
    exact hchunk
  · rw [update_of_ne hc, update_of_ne hc]
    exact h.nodup c

theorem Tidy.discardHigher (limitChunkno : ℕ) :
    (entry.discardHigher limitChunkno).Tidy := by
  refine ⟨h.even, fun c => ?_⟩
  rw [BlockRefTableEntry.discardHigher]
  dsimp only
  split_ifs
  · exact nodup_nil
  · exact h.nodup c

theorem Tidy.discardOffsets (limitChunkno limitChunkoffset : ℕ) :
    (entry.discardOffsets limitChunkno limitChunkoffset).Tidy := by
  rw [BlockRefTableEntry.discardOffsets]
  split_ifs with hbitmap
  · exact h.setChunk nodup_offsets_bitmap
  · refine h.setChunk (nodup_offsets_of_inUse ?_)
    rw [(filterInPlace_spec _ _ _).2.1]
    exact (nodup_inUse hbitmap (h.nodup _)).filter _

theorem Tidy.setLimitBlock (limitBlock : UInt32) :
    (entry.setLimitBlock limitBlock).Tidy := by
  rw [BlockRefTableEntry.setLimitBlock]
  dsimp only
  split_ifs
  · exact h
  · exact ⟨h.even, h.nodup⟩
  · apply Tidy.discardOffsets
    apply Tidy.discardHigher
    exact ⟨h.even, h.nodup⟩

omit h in
theorem even_growChunks {needed fuel maxChunks : ℕ} (h : 2 ∣ maxChunks) :
    2 ∣ growChunks needed fuel maxChunks := by
  induction fuel generalizing maxChunks with
  | zero => exact h
  | succ _ ih =>
    rw [growChunks]
    split_ifs
    · exact ih (Nat.dvd_mul_left 2 maxChunks)
    · exact h

theorem Tidy.enlarge : (entry.enlarge chunkno).Tidy := by
  rw [BlockRefTableEntry.enlarge]
  split_ifs
  · refine ⟨even_growChunks ?_, fun c => ?_⟩
    · have := h.even
      omega
    · dsimp only
      split_ifs
      · exact h.nodup c
      · exact nodup_nil
  · exact h

theorem Tidy.setChunkSize (size : ℕ) : (entry.setChunkSize chunkno size).Tidy :=
  ⟨h.even, h.nodup⟩

/-- An offset is only added to an array that does not have it. -/
theorem Tidy.addOffset (off : ℕ) : (entry.addOffset chunkno off).Tidy := by
  rw [BlockRefTableEntry.addOffset]
  split_ifs with hbitmap hfound
  · exact h.setChunk nodup_offsets_bitmap
  · exact h
  · exact (h.setChunk nodup_offsets_bitmap).setChunkSize _
  all_goals
    have hnew := List.Nodup.concat hfound (nodup_inUse hbitmap (h.nodup _))
    rw [concat_eq_append, ← inUse_update] at hnew
  · exact (h.setChunkSize _).setChunk (nodup_offsets_of_inUse hnew)
  · exact h.setChunk (nodup_offsets_of_inUse hnew)

theorem Tidy.markBlockModified (blknum : UInt32) :
    (entry.markBlockModified blknum).Tidy := by
  rw [BlockRefTableEntry.markBlockModified]
  split_ifs
  · refine (h.enlarge.setChunk (nodup_offsets_of_inUse ?_)).setChunkSize _
    exact nodup_singleton _
  · exact h.enlarge.addOffset _

end

/-! ### Ranges -/

theorem mem_offsetsIn {o startOffset stopOffset : ℕ} (hstop : stopOffset ≤ blocksPerChunk) :
    o ∈ offsetsIn usage chunk startOffset stopOffset ↔
      o ∈ offsets usage chunk ∧ startOffset ≤ o ∧ o < stopOffset := by
  rw [offsetsIn, offsets]
  split_ifs
  · rw [mem_filter, mem_filter, mem_range'_1, mem_range]
    constructor
    · rintro ⟨hrange, hbit⟩
      exact ⟨⟨by omega, hbit⟩, by omega⟩
    · rintro ⟨⟨-, hbit⟩, hrange⟩
      exact ⟨by omega, hbit⟩
  · rw [mem_filter, decide_eq_true_eq]

theorem nodup_offsetsIn (h : (offsets usage chunk).Nodup) (startOffset stopOffset : ℕ) :
    (offsetsIn usage chunk startOffset stopOffset).Nodup := by
  rw [offsetsIn]
  split_ifs with husage
  · exact List.Nodup.filter _ (nodup_range' _)
  · rw [offsets, if_neg husage] at h
    exact h.filter _

variable {startBlkno stopBlkno b : ℕ}

/-- The offsets of a chunk that are looked at are those of blocks in the range. -/
theorem window_iff {chunkno o : ℕ} (hstart : startBlkno / blocksPerChunk ≤ chunkno)
    (hstop : chunkno < entry.stopChunkno stopBlkno) (ho : o < blocksPerChunk) :
    ((if chunkno = startBlkno / blocksPerChunk then startBlkno % blocksPerChunk else 0) ≤ o ∧
      o < if chunkno = entry.stopChunkno stopBlkno - 1 then stopBlkno - chunkno * blocksPerChunk
        else blocksPerChunk) ↔
      startBlkno ≤ chunkno * blocksPerChunk + o ∧ chunkno * blocksPerChunk + o < stopBlkno := by
  have hceil : entry.stopChunkno stopBlkno ≤
      (stopBlkno + (blocksPerChunk - 1)) / blocksPerChunk := by
    rw [stopChunkno, blocksPerChunk]
    split_ifs <;> omega
  rw [blocksPerChunk] at *
  split_ifs <;> omega

theorem mem_chunkFound {chunkno : ℕ} (hstart : startBlkno / blocksPerChunk ≤ chunkno)
    (hstop : chunkno < entry.stopChunkno stopBlkno) :
    b ∈ entry.chunkFound startBlkno stopBlkno chunkno ↔
      b ∈ entry.chunkBlocks chunkno ∧ startBlkno ≤ b ∧ b < stopBlkno := by
  rw [chunkFound, chunkBlocks, mem_map, mem_map]
  have hin {o : ℕ} (ho : o < blocksPerChunk) := window_iff hstart hstop ho
  constructor
  · rintro ⟨o, ho, rfl⟩
    obtain ⟨hmem, hge, hlt⟩ := (mem_offsetsIn (min_le_right _ _)).mp ho
    exact ⟨⟨o, hmem, rfl⟩, (hin (lt_of_mem_offsets hmem)).mp ⟨hge, (Nat.lt_min.mp hlt).1⟩⟩
  · rintro ⟨⟨o, hmem, rfl⟩, hrange⟩
    have hlt := lt_of_mem_offsets hmem
    obtain ⟨hge, hwindow⟩ := (hin hlt).mpr hrange
    exact ⟨o, (mem_offsetsIn (min_le_right _ _)).mpr ⟨hmem, hge, lt_min hwindow hlt⟩, rfl⟩

theorem chunk_of_mem_chunkBlocks {c : ℕ} (hb : b ∈ entry.chunkBlocks c) :
    b / blocksPerChunk = c := by
  obtain ⟨n, hn, rfl⟩ := mem_map.mp hb
  exact (chunk_of_offset c (lt_of_mem_offsets hn)).1

/-- Without the limit of the room, exactly the modified blocks of the range are found. -/
theorem mem_found :
    b ∈ entry.found startBlkno stopBlkno ↔ b ∈ entry.blocks ∧ startBlkno ≤ b ∧ b < stopBlkno := by
  rw [found, mem_flatMap, blocks, mem_flatMap]
  constructor
  · rintro ⟨c, hc, hb⟩
    rw [mem_range'_1] at hc
    have hlt : c < entry.stopChunkno stopBlkno := by omega
    obtain ⟨hmem, hin⟩ := (mem_chunkFound hc.1 hlt).mp hb
    refine ⟨⟨c, mem_range.mpr (hlt.trans_le ?_), hmem⟩, hin⟩
    rw [stopChunkno]
    split_ifs <;> omega
  · rintro ⟨⟨c, hc, hmem⟩, hin⟩
    have hchunk := chunk_of_mem_chunkBlocks hmem
    have hstart : startBlkno / blocksPerChunk ≤ c := by
      rw [← hchunk]
      exact Nat.div_le_div_right hin.1
    have hlt : c < entry.stopChunkno stopBlkno := by
      have hnchunks := mem_range.mp hc
      rw [stopChunkno] at *
      rw [blocksPerChunk] at *
      split_ifs <;> omega
    refine ⟨c, mem_range'_1.mpr ⟨hstart, by omega⟩, ?_⟩
    exact (mem_chunkFound hstart hlt).mpr ⟨hmem, hin⟩

theorem nodup_found (h : entry.Tidy) : (entry.found startBlkno stopBlkno).Nodup := by
  rw [found, nodup_flatMap]
  refine ⟨fun c _ => ?_, ?_⟩
  · exact (nodup_offsetsIn (h.nodup c) _ _).map fun _ _ heq => Nat.add_left_cancel heq
  · -- a block is in one chunk only
    refine (nodup_range' _).imp_of_mem fun {c d} hc hd hne => ?_
    rw [mem_range'_1] at hc hd
    intro b hbc hbd
    have hbc' := ((mem_chunkFound hc.1 (by omega)).mp hbc).1
    have hbd' := ((mem_chunkFound hd.1 (by omega)).mp hbd).1
    exact hne ((chunk_of_mem_chunkBlocks hbc').symm.trans (chunk_of_mem_chunkBlocks hbd'))

/-- Only the last chunk of the entry can be read beyond its end. -/
theorem chunkReads_eq {chunkno : ℕ} (hstop : chunkno < entry.stopChunkno stopBlkno) :
    entry.chunkReads startBlkno stopBlkno chunkno =
      (entry.chunkFound startBlkno stopBlkno chunkno).map some ++
        if chunkno + 1 = entry.nchunks ∧ entry.nchunks * blocksPerChunk < stopBlkno ∧
          entry.chunkUsage chunkno = maxEntriesPerChunk then [none] else [] := by
  rw [chunkReads]
  congr 1
  refine if_congr ?_ rfl rfl
  rw [and_comm, ← and_assoc]
  refine and_congr ?_ Iff.rfl
  rw [stopChunkno, blocksPerChunk] at *
  split_ifs at hstop ⊢ <;> omega

/-- All that the function comes across. -/
theorem flatMap_chunkReads :
    (List.range' (startBlkno / blocksPerChunk)
      (entry.stopChunkno stopBlkno - startBlkno / blocksPerChunk)).flatMap
        (entry.chunkReads startBlkno stopBlkno) =
      (entry.found startBlkno stopBlkno).map some ++
        if entry.Overruns startBlkno stopBlkno then [none] else [] := by
  have hceil : entry.nchunks * blocksPerChunk < stopBlkno →
      entry.stopChunkno stopBlkno = entry.nchunks := by
    rw [stopChunkno, blocksPerChunk] at *
    split_ifs <;> omega
  rw [found]
  generalize hk : entry.stopChunkno stopBlkno - startBlkno / blocksPerChunk = k
  cases k with
  | zero =>
    have hnot : ¬ entry.Overruns startBlkno stopBlkno := by
      rintro ⟨hlt, hover, -⟩
      omega
    simp [hnot]
  | succ k =>
    -- the chunks before the last one of the range end where they should
    have hfirst : (List.range' (startBlkno / blocksPerChunk) k).flatMap
        (entry.chunkReads startBlkno stopBlkno) =
          ((List.range' (startBlkno / blocksPerChunk) k).flatMap
            (entry.chunkFound startBlkno stopBlkno)).map some := by
      rw [map_flatMap]
      refine flatMap_congr fun c hc => ?_
      rw [mem_range'_1] at hc
      rw [chunkReads_eq (by omega), if_neg (by omega), append_nil]
    have hlast : (startBlkno / blocksPerChunk + k + 1 = entry.nchunks ∧
        entry.nchunks * blocksPerChunk < stopBlkno ∧
          entry.chunkUsage (startBlkno / blocksPerChunk + k) = maxEntriesPerChunk) ↔
            entry.Overruns startBlkno stopBlkno := by
      constructor
      · rintro ⟨heq, hover, husage⟩
        refine ⟨by omega, hover, ?_⟩
        rwa [← heq, Nat.add_sub_cancel]
      · rintro ⟨hlt, hover, husage⟩
        have heq : startBlkno / blocksPerChunk + k + 1 = entry.nchunks := by
          omega
        refine ⟨heq, hover, ?_⟩
        rwa [← heq, Nat.add_sub_cancel] at husage
    rw [range'_1_concat, flatMap_append, flatMap_append, hfirst,
      flatMap_singleton, flatMap_singleton, chunkReads_eq (by omega), map_append,
      append_assoc]
    simp only [hlast]

/-- Blocks are stored until there is no more room. -/
theorem store_map {nblocks : ℕ} (found : List ℕ) {blocks : List ℕ} (reads : List (Option ℕ))
    (hroom : nblocks = 0 ∨ blocks.length < nblocks) :
    store nblocks blocks (found.map some ++ reads) =
      if nblocks ≠ 0 ∧ nblocks ≤ blocks.length + found.length then
        some (blocks ++ found.take (nblocks - blocks.length))
      else store nblocks (blocks ++ found) reads := by
  induction found generalizing blocks with
  | nil =>
    rw [if_neg (by rw [length_nil]; omega)]
    simp
  | cons _ _ ih =>
    rw [map_cons, cons_append, store]
    simp only [length_append, length_cons, length_nil]
    split_ifs with hfull hmore hmore
    · rw [show nblocks - blocks.length = 1 by omega]
      rfl
    · exact absurd (by omega) hmore
    · rw [ih (by simp; omega), if_pos (by simp; omega)]
      simp only [length_append]
      rw [show nblocks - blocks.length = nblocks - (blocks.length + 1) + 1 by omega,
        take_succ_cons, append_assoc]
      rfl
    · rw [ih (by simp; omega), if_neg (by simp; omega), append_assoc]
      rfl

theorem entryGetBlocks_eq (nblocks : ℕ) :
    entry.entryGetBlocks startBlkno stopBlkno nblocks =
      if nblocks ≠ 0 ∧ nblocks ≤ (entry.found startBlkno stopBlkno).length then
        some ((entry.found startBlkno stopBlkno).take nblocks)
      else if entry.Overruns startBlkno stopBlkno then none
      else some (entry.found startBlkno stopBlkno) := by
  rw [entryGetBlocks, flatMap_chunkReads, store_map _ _ (by simp; omega)]
  simp only [length_nil, Nat.zero_add]
  split_ifs <;> rfl

/-! ### Segments -/

/-- A range with the alignment and the size of a segment: two chunks. -/
structure SegmentRange (startBlkno stopBlkno : ℕ) : Prop where
  aligned : startBlkno % (2 * blocksPerChunk) = 0
  le : startBlkno ≤ stopBlkno
  size : stopBlkno ≤ startBlkno + 2 * blocksPerChunk

/-- A segment is within the chunks of an entry, or beyond them. -/
theorem Tidy.not_overruns (h : entry.Tidy) (hrange : SegmentRange startBlkno stopBlkno) :
    ¬entry.Overruns startBlkno stopBlkno := by
  rintro ⟨hlt, hover, -⟩
  obtain ⟨haligned, -, hsize⟩ := hrange
  have heven := h.even
  rw [blocksPerChunk] at *
  omega

/-- With room for a segment, all modified blocks of a segment are returned. -/
theorem entryGetBlocks_segment (h : entry.Tidy) (hrange : SegmentRange startBlkno stopBlkno) :
    entry.entryGetBlocks startBlkno stopBlkno (2 * blocksPerChunk) =
      some (entry.found startBlkno stopBlkno) := by
  have hsub : entry.found startBlkno stopBlkno ⊆ List.range' startBlkno (2 * blocksPerChunk) := by
    intro b hb
    obtain ⟨-, hge, hlt⟩ := mem_found.mp hb
    have := hrange.size
    exact mem_range'_1.mpr ⟨hge, by omega⟩
  have hle := ((nodup_found h).subperm hsub).length_le
  rw [length_range'] at hle
  rw [entryGetBlocks_eq, if_neg (h.not_overruns hrange), take_of_length_le hle, ite_self]

end BlockRefTableEntry

namespace BlockRefTable

/-- What a call keeps true of each entry of a table. -/
theorem forall_mem_insert {brtab : BlockRefTable} {P : BlockRefTableEntry → Prop}
    (h : ∀ entry ∈ brtab.hash, P entry) (key : BlockRefTableKey)
    {change : BlockRefTableEntry → BlockRefTableEntry} {new : BlockRefTableEntry}
    (hchange : ∀ entry, P entry → P (change entry)) (hnew : P new) :
    ∀ entry ∈ (brtab.insert key change new).hash, P entry := by
  intro entry hmem
  rw [BlockRefTable.insert] at hmem
  split_ifs at hmem
  · obtain ⟨old, hold, rfl⟩ := mem_map.mp hmem
    split_ifs
    · exact hchange old (h old hold)
    · exact h old hold
  · rcases mem_append.mp hmem with hold | hlast
    · exact h entry hold
    · rw [mem_singleton.mp hlast]
      exact hnew

theorem tidy_run (ops : List (BlockRefTableKey × EntryOp)) :
    ∀ entry ∈ (run ops).hash, entry.Tidy := by
  induction ops using List.reverseRecOn with
  | nil => exact nofun
  | append_singleton _ op ih =>
    rw [run_concat]
    obtain ⟨key, op⟩ := op
    have hnew := BlockRefTableEntry.tidy_newEntry key
    cases op with
    | markBlockModified blknum =>
      exact forall_mem_insert ih key (fun _ h => h.markBlockModified blknum)
        ((hnew invalidBlockNumber).markBlockModified blknum)
    | setLimitBlock limitBlock =>
      exact forall_mem_insert ih key (fun _ h => h.setLimitBlock limitBlock) (hnew limitBlock)

/-- What is found under a key after a sequence of calls. -/
theorem lookup_run (ops : List (BlockRefTableKey × EntryOp)) (key : BlockRefTableKey) :
    opsFor key ops = [] ∧ (run ops).lookup key = none ∨
      opsFor key ops ≠ [] ∧ ∃ entry, (run ops).lookup key = some entry ∧
        entry.Represents (Fork.run (opsFor key ops)) ∧ entry.Tidy := by
  have hrefines := refines_run ops
  cases hlookup : (run ops).lookup key with
  | none =>
    left
    refine ⟨?_, rfl⟩
    by_contra hne
    have hmem := hrefines.complete key (by rw [if_neg hne]; rfl)
    have hsome := lookup_isSome.mpr hmem
    rw [hlookup] at hsome
    exact Bool.false_ne_true hsome
  | some entry =>
    right
    have hkey : entry.key = key := by simpa using List.find?_some hlookup
    have hmem := mem_of_find?_eq_some hlookup
    obtain ⟨_, hfork, hrep⟩ := hrefines.sound entry hmem
    rw [hkey] at hfork
    split_ifs at hfork with hne
    exact ⟨hne, entry, rfl, Option.some.inj hfork ▸ hrep, tidy_run ops entry hmem⟩

end BlockRefTable

end PgCutover.BlkRefTable
