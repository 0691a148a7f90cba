import Mathlib.Data.Prod.Lex
import PgCutover.BlkRefTable.Table
import PgCutover.Lib.LittleEndian

/-!
# Writing block reference tables

The file starts with a magic number, has the entries in the order of their keys, and ends with a
sentinel and a checksum. The bytes are collected in a buffer; whatever the pieces in which they
reach the file, the file of some entries is `fileBytes` (`writeBlockRefTable_eq`,
`writeEntries_eq`).
-/

namespace PgCutover.BlkRefTable

open Lib List

/-! ### Checksums -/

/-- One step of the division by the Castagnoli polynomial, in the reflected form. -/
def crc32cShift (crc : UInt32) : UInt32 :=
  if crc &&& 1 = 1 then (crc >>> 1) ^^^ 0x82F63B78 else crc >>> 1

/-- The checksum after one more byte: `CRC8`. -/
def crc32cByte (crc : UInt32) (byte : UInt8) : UInt32 :=
  (List.range 8).foldl (fun crc _ => crc32cShift crc) (crc ^^^ byte.toUInt32)

/-- `INIT_CRC32C`. -/
def initCrc32c : UInt32 := 0xFFFFFFFF

/-- `COMP_CRC32C`, byte by byte. -/
def compCrc32c (crc : UInt32) (data : List UInt8) : UInt32 := data.foldl crc32cByte crc

/-- `FIN_CRC32C`. -/
def finCrc32c (crc : UInt32) : UInt32 := crc ^^^ 0xFFFFFFFF

theorem compCrc32c_append (crc : UInt32) (data more : List UInt8) :
    compCrc32c crc (data ++ more) = compCrc32c (compCrc32c crc data) more :=
  foldl_append

/-! ### The output buffer -/

/-- The size of the buffers of the writer and of the reader. -/
def bufsize : ℕ := 65536

/-- The number at the start of every file. -/
def blockRefTableMagic : UInt32 := 0x652b137b

/-- `BlockRefTableBuffer`, for writing. The first `used` bytes of the buffer are `data`, and `file`
is what the callback has been given so far. -/
structure WriteBuffer where
  file : List UInt8
  data : List UInt8
  crc : UInt32

namespace WriteBuffer

/-- The buffer before anything is written. -/
def init : WriteBuffer := ⟨[], [], initCrc32c⟩

/-- `BlockRefTableFlush`. -/
def flush (buffer : WriteBuffer) : WriteBuffer :=
  { buffer with file := buffer.file ++ buffer.data, data := [] }

/-- `BlockRefTableWrite`. -/
def write (buffer : WriteBuffer) (data : List UInt8) : WriteBuffer :=
  let buffer := { buffer with crc := compCrc32c buffer.crc data }
  -- if the new data can't fit into the buffer, flush the buffer
  let buffer := if buffer.data.length + data.length > bufsize then buffer.flush else buffer
  -- if the new data would fill the buffer, or more, write it directly
  if data.length ≥ bufsize then { buffer with file := buffer.file ++ data }
  else { buffer with data := buffer.data ++ data }

/-- Everything that was written. -/
def contents (buffer : WriteBuffer) : List UInt8 := buffer.file ++ buffer.data

@[simp] theorem contents_flush (buffer : WriteBuffer) : buffer.flush.contents = buffer.contents :=
  append_nil _

/-- Writes reach the file in their order. -/
@[simp] theorem contents_write (buffer : WriteBuffer) (data : List UInt8) :
    (buffer.write data).contents = buffer.contents ++ data := by
  rw [write]
  by_cases hlarge : data.length ≥ bufsize
  · rw [if_pos hlarge]
    by_cases hflush : buffer.data.length + data.length > bufsize
    · rw [if_pos hflush]
      simp [contents, flush]
    · -- the data fills the buffer exactly, so nothing was in it
      have hempty : buffer.data = [] := length_eq_zero_iff.mp (by omega)
      rw [if_neg hflush]
      simp [contents, hempty]
  · rw [if_neg hlarge]
    split_ifs <;> simp [contents, flush]

@[simp] theorem crc_write (buffer : WriteBuffer) (data : List UInt8) :
    (buffer.write data).crc = compCrc32c buffer.crc data := by
  rw [write]
  split_ifs <;> rfl

/-- The checksum is that of everything that was written. -/
def Summed (buffer : WriteBuffer) : Prop := buffer.crc = compCrc32c initCrc32c buffer.contents

theorem Summed.write {buffer : WriteBuffer} (h : buffer.Summed) (data : List UInt8) :
    (buffer.write data).Summed := by
  rw [Summed, crc_write, contents_write, compCrc32c_append, ← h]

end WriteBuffer

/-! ### Entries -/

/-- The fixed part of an entry as it is in the file. -/
structure SerializedEntry where
  key : BlockRefTableKey
  limitBlock : UInt32
  nchunks : ℕ

namespace SerializedEntry

/-- The members, in their order in the structure. -/
def field (sentry : SerializedEntry) : ℕ → ℕ
  | 0 => sentry.key.spcOid.toNat
  | 1 => sentry.key.dbOid.toNat
  | 2 => sentry.key.relNumber.toNat
  | 3 => sentry.key.forknum.toNat
  | 4 => sentry.limitBlock.toNat
  | _ => sentry.nchunks

def bytes (sentry : SerializedEntry) : List UInt8 := leArray 4 sentry.field 6

theorem length_bytes (sentry : SerializedEntry) : sentry.bytes.length = 24 :=
  length_leArray 4 sentry.field 6

end SerializedEntry

/-- Keys are ordered by tablespace, then database, then relation, then fork. -/
def BlockRefTableKey.rank (key : BlockRefTableKey) : ℕ ×ₗ ℕ ×ₗ ℕ ×ₗ ℤ :=
  toLex (key.spcOid.toNat, toLex (key.dbOid.toNat,
    toLex (key.relNumber.toNat, key.forknum.toInt32.toInt)))

theorem BlockRefTableKey.rank_injective : Function.Injective BlockRefTableKey.rank := by
  intro a b h
  rw [rank, rank] at h
  simp only [EmbeddingLike.apply_eq_iff_eq, Prod.mk.injEq, UInt32.toNat_inj, Int32.toInt_inj] at h
  obtain ⟨hspc, hdb, hrel, hfork⟩ := h
  have hfork' : a.forknum = b.forknum := by
    rw [← UInt32.toUInt32_toInt32 a.forknum, hfork, UInt32.toUInt32_toInt32]
  cases a
  simp_all

namespace SerializedEntry

/-- `BlockRefTableComparator`. Fork numbers are compared as signed numbers. -/
def comparator (a b : SerializedEntry) : ℤ :=
  if a.key.spcOid > b.key.spcOid then 1
  else if a.key.spcOid < b.key.spcOid then -1
  else if a.key.dbOid > b.key.dbOid then 1
  else if a.key.dbOid < b.key.dbOid then -1
  else if a.key.relNumber > b.key.relNumber then 1
  else if a.key.relNumber < b.key.relNumber then -1
  else if a.key.forknum.toInt32 > b.key.forknum.toInt32 then 1
  else if a.key.forknum.toInt32 < b.key.forknum.toInt32 then -1
  else 0

theorem comparator_le_zero {a b : SerializedEntry} :
    a.comparator b ≤ 0 ↔ a.key.rank ≤ b.key.rank := by
  rw [comparator, BlockRefTableKey.rank, BlockRefTableKey.rank]
  simp only [Prod.Lex.toLex_le_toLex, UInt32.lt_iff_toNat_lt, Int32.lt_iff_toInt_lt]
  split_ifs <;> omega

end SerializedEntry

/-- The sentinel: all members are zero. -/
def zentry : SerializedEntry := ⟨⟨0, 0, 0, 0⟩, 0, 0⟩

namespace BlockRefTableEntry

/-- Trim trailing zero entries. -/
def trimChunks (chunkUsage : ℕ → ℕ) : ℕ → ℕ
  | 0 => 0
  | n + 1 => if chunkUsage n = 0 then trimChunks chunkUsage n else n + 1

/-- The fixed part of an entry, with the trailing empty chunks left out. -/
def serialize (entry : BlockRefTableEntry) : SerializedEntry :=
  ⟨entry.key, entry.limitBlock, trimChunks entry.chunkUsage entry.nchunks⟩

/-- The used words of a chunk as they are in the file. -/
def chunkBytes (entry : BlockRefTableEntry) (chunkno : ℕ) : List UInt8 :=
  leArray 2 (fun i => (entry.chunkData chunkno i).toNat) (entry.chunkUsage chunkno)

/-- Write the chunks of an entry: the untruncated portion of the chunk length array, then the
contents of each chunk. -/
def writeChunks (entry : BlockRefTableEntry) (nchunks : ℕ) (buffer : WriteBuffer) : WriteBuffer :=
  let buffer := if nchunks ≠ 0 then buffer.write (leArray 2 entry.chunkUsage nchunks) else buffer
  (List.range entry.nchunks).foldl (fun buffer j =>
    if entry.chunkUsage j = 0 then buffer else buffer.write (entry.chunkBytes j)) buffer

def bytes (entry : BlockRefTableEntry) : List UInt8 :=
  entry.serialize.bytes ++ leArray 2 entry.chunkUsage entry.serialize.nchunks ++
    (List.range entry.serialize.nchunks).flatMap entry.chunkBytes

end BlockRefTableEntry

/-- `BlockRefTableFileTerminate`. -/
def WriteBuffer.terminate (buffer : WriteBuffer) : WriteBuffer :=
  let buffer := buffer.write zentry.bytes
  let crc := finCrc32c buffer.crc
  (buffer.write (leBytes 4 crc.toNat)).flush

/-- `WriteBlockRefTable`: the bytes of the file. -/
def writeBlockRefTable (brtab : BlockRefTable) : List UInt8 :=
  let buffer := WriteBuffer.init.write (leBytes 4 blockRefTableMagic.toNat)
  let sdata := (brtab.hash.map (·.serialize)).mergeSort (fun a b => a.comparator b ≤ 0)
  let buffer := sdata.foldl (fun buffer sentry =>
    let buffer := buffer.write sentry.bytes
    -- look up the original entry so we can access the chunks
    match brtab.lookup sentry.key with
    | some entry => entry.writeChunks sentry.nchunks buffer
    | none => buffer) buffer
  buffer.terminate.file

/-- `CreateBlockRefTableWriter`. -/
def createBlockRefTableWriter : WriteBuffer :=
  WriteBuffer.init.write (leBytes 4 blockRefTableMagic.toNat)

/-- `BlockRefTableWriteEntry`. -/
def blockRefTableWriteEntry (writer : WriteBuffer) (entry : BlockRefTableEntry) : WriteBuffer :=
  entry.writeChunks entry.serialize.nchunks (writer.write entry.serialize.bytes)

/-- `DestroyBlockRefTableWriter`: the bytes of the file. -/
def destroyBlockRefTableWriter (writer : WriteBuffer) : List UInt8 := writer.terminate.file

/-- The file that the writer leaves for the entries. -/
def writeEntries (entries : List BlockRefTableEntry) : List UInt8 :=
  destroyBlockRefTableWriter (entries.foldl blockRefTableWriteEntry createBlockRefTableWriter)

/-! ### The bytes of the file -/

/-- What the checksum covers. -/
def summedBytes (entries : List BlockRefTableEntry) : List UInt8 :=
  leBytes 4 blockRefTableMagic.toNat ++ entries.flatMap (·.bytes) ++ zentry.bytes

/-- The checksum at the end of the file. -/
def checksumBytes (summed : List UInt8) : List UInt8 :=
  leBytes 4 (finCrc32c (compCrc32c initCrc32c summed)).toNat

/-- The bytes of a file: what is summed, and the sum. -/
def fileBytes (entries : List BlockRefTableEntry) : List UInt8 :=
  summedBytes entries ++ checksumBytes (summedBytes entries)

namespace WriteBuffer

variable {buffer : WriteBuffer} {content : List UInt8}

/-- The buffer holds some bytes, and their checksum. -/
def Has (buffer : WriteBuffer) (content : List UInt8) : Prop :=
  buffer.contents = content ∧ buffer.Summed

theorem has_init : init.Has [] := ⟨rfl, rfl⟩

theorem Has.write (h : buffer.Has content) (data : List UInt8) :
    (buffer.write data).Has (content ++ data) :=
  ⟨by rw [contents_write, h.1], h.2.write data⟩

theorem Has.file_terminate (h : buffer.Has content) :
    buffer.terminate.file = content ++ zentry.bytes ++ checksumBytes (content ++ zentry.bytes) := by
  obtain ⟨hcontent, hsum⟩ := h.write zentry.bytes
  -- the final flush leaves nothing in the buffer
  have hfile : buffer.terminate.file = buffer.terminate.contents := (append_nil _).symm
  rw [hfile, terminate, contents_flush, contents_write, hsum, hcontent, checksumBytes]

end WriteBuffer

namespace BlockRefTableEntry

variable {buffer : WriteBuffer} {content : List UInt8}

theorem trimChunks_le (chunkUsage : ℕ → ℕ) (n : ℕ) : trimChunks chunkUsage n ≤ n := by
  induction n with
  | zero => exact Nat.le_refl 0
  | succ n ih =>
    rw [trimChunks]
    split_ifs
    · exact Nat.le_succ_of_le ih
    · exact Nat.le_refl _

/-- The chunks that are not counted are empty, so they add nothing to what is written for each
chunk. -/
theorem flatMap_range_trimChunks {α : Type} (chunkUsage : ℕ → ℕ) (n : ℕ) (f : ℕ → List α)
    (hf : ∀ c, chunkUsage c = 0 → f c = []) :
    (List.range (trimChunks chunkUsage n)).flatMap f = (List.range n).flatMap f := by
  induction n with
  | zero => rfl
  | succ n ih =>
    rw [trimChunks]
    split_ifs with hzero
    · rw [ih, range_succ, flatMap_append, flatMap_singleton, hf n hzero,
        append_nil]
    · rfl

theorem chunkBytes_of_usage_eq_zero {entry : BlockRefTableEntry} {c : ℕ}
    (h : entry.chunkUsage c = 0) : entry.chunkBytes c = [] := by
  rw [chunkBytes, h]
  rfl

theorem has_writeChunks (entry : BlockRefTableEntry)
    (h : buffer.Has (content ++ entry.serialize.bytes)) :
    (entry.writeChunks entry.serialize.nchunks buffer).Has (content ++ entry.bytes) := by
  -- the loop over the chunks appends the bytes of each
  have hloop : ∀ (n : ℕ) (b : WriteBuffer) (c : List UInt8), b.Has c →
      ((List.range n).foldl (fun buffer j =>
        if entry.chunkUsage j = 0 then buffer else buffer.write (entry.chunkBytes j)) b).Has
        (c ++ (List.range n).flatMap entry.chunkBytes) := by
    intro n b c hb
    induction n with
    | zero =>
      rw [range_zero, flatMap_nil, append_nil]
      exact hb
    | succ n ih =>
      rw [range_succ, foldl_append, foldl_cons, foldl_nil,
        flatMap_append, flatMap_singleton, ← append_assoc]
      split_ifs with hzero
      · rw [chunkBytes_of_usage_eq_zero hzero, append_nil]
        exact ih
      · exact ih.write _
  have hsizes : (if entry.serialize.nchunks ≠ 0 then
      buffer.write (leArray 2 entry.chunkUsage entry.serialize.nchunks) else buffer).Has
      (content ++ entry.serialize.bytes ++ leArray 2 entry.chunkUsage entry.serialize.nchunks) := by
    split_ifs with hnone
    · exact h.write _
    · rw [not_not.mp hnone]
      simpa [leArray] using h
  have hall := hloop entry.nchunks _ _ hsizes
  rw [← flatMap_range_trimChunks entry.chunkUsage entry.nchunks _
    fun c => chunkBytes_of_usage_eq_zero] at hall
  rw [bytes, ← append_assoc, ← append_assoc]
  exact hall

end BlockRefTableEntry

theorem has_foldl_entries {α : Type} (step : WriteBuffer → α → WriteBuffer)
    (entryOf : α → BlockRefTableEntry) (xs : List α)
    (hstep : ∀ x ∈ xs, ∀ buffer content, buffer.Has content →
      (step buffer x).Has (content ++ (entryOf x).bytes))
    {buffer : WriteBuffer} {content : List UInt8} (h : buffer.Has content) :
    (xs.foldl step buffer).Has (content ++ (xs.map entryOf).flatMap (·.bytes)) := by
  induction xs generalizing buffer content with
  | nil =>
    rw [map_nil, flatMap_nil, append_nil]
    exact h
  | cons x _ ih =>
    rw [map_cons, flatMap_cons, ← append_assoc]
    exact ih (fun y hy => hstep y (mem_cons_of_mem x hy))
      (hstep x mem_cons_self _ _ h)

theorem fileBytes_eq {entries : List BlockRefTableEntry} {buffer : WriteBuffer}
    (h : buffer.Has (leBytes 4 blockRefTableMagic.toNat ++ entries.flatMap (·.bytes))) :
    buffer.terminate.file = fileBytes entries :=
  h.file_terminate

theorem writeEntries_eq (entries : List BlockRefTableEntry) :
    writeEntries entries = fileBytes entries := by
  refine fileBytes_eq ?_
  have hall := has_foldl_entries blockRefTableWriteEntry id entries
    (fun entry _ _ _ h => entry.has_writeChunks (h.write _))
    (WriteBuffer.has_init.write (leBytes 4 blockRefTableMagic.toNat))
  rw [map_id] at hall
  exact hall

theorem BlockRefTable.lookup_key {brtab : BlockRefTable} (h : (brtab.hash.map (·.key)).Nodup)
    {entry : BlockRefTableEntry} (hmem : entry ∈ brtab.hash) :
    brtab.lookup entry.key = some entry := by
  obtain ⟨found, hfound⟩ : ∃ found, brtab.lookup entry.key = some found :=
    Option.isSome_iff_exists.mp (lookup_isSome.mpr (mem_map_of_mem hmem))
  have hkey : found.key = entry.key := by simpa using List.find?_some hfound
  rw [hfound, inj_on_of_nodup_map h (mem_of_find?_eq_some hfound) hmem hkey]

theorem writeBlockRefTable_eq (brtab : BlockRefTable) (h : (brtab.hash.map (·.key)).Nodup) :
    ∃ entries, entries.Perm brtab.hash ∧
      entries.Pairwise (fun a b => a.key.rank < b.key.rank) ∧
      writeBlockRefTable brtab = fileBytes entries := by
  let sdata := (brtab.hash.map (·.serialize)).mergeSort (fun a b => a.comparator b ≤ 0)
  let entryOf (sentry : SerializedEntry) : BlockRefTableEntry :=
    (brtab.lookup sentry.key).getD (createBlockRefTableEntry sentry.key)
  have hentryOf : ∀ entry ∈ brtab.hash, entryOf entry.serialize = entry := by
    intro entry hmem
    have hlookup : brtab.lookup entry.serialize.key = some entry := BlockRefTable.lookup_key h hmem
    dsimp only [entryOf]
    rw [hlookup, Option.getD_some]
  have hsorted : sdata.Perm (brtab.hash.map (·.serialize)) := mergeSort_perm _ _
  have hperm : (sdata.map entryOf).Perm brtab.hash := by
    have hmap := hsorted.map entryOf
    have hid : brtab.hash.map (entryOf ∘ (·.serialize)) = brtab.hash.map id :=
      map_congr_left hentryOf
    rw [map_map, hid, map_id] at hmap
    exact hmap
  have hserialized : ∀ sentry ∈ sdata, ∃ entry ∈ brtab.hash, sentry = entry.serialize := by
    intro _ hmem
    obtain ⟨entry, hentry, rfl⟩ := mem_map.mp (hsorted.mem_iff.mp hmem)
    exact ⟨entry, hentry, rfl⟩
  refine ⟨sdata.map entryOf, hperm, ?_, ?_⟩
  · have hle : sdata.Pairwise fun a b => a.key.rank ≤ b.key.rank := by
      have hpair : sdata.Pairwise fun a b => decide (a.comparator b ≤ 0) = true := by
        refine pairwise_mergeSort (fun a b c hab hbc => ?_) (fun a b => ?_) _
        · simp only [decide_eq_true_eq, SerializedEntry.comparator_le_zero] at hab hbc ⊢
          exact hab.trans hbc
        · simp only [Bool.or_eq_true, decide_eq_true_eq, SerializedEntry.comparator_le_zero]
          exact le_total _ _
      exact hpair.imp fun hab => SerializedEntry.comparator_le_zero.mp (of_decide_eq_true hab)
    have hkeys : sdata.Pairwise fun a b => a.key ≠ b.key := by
      have hnodup : (sdata.map (·.key)).Nodup := by
        refine (hsorted.map (·.key)).nodup_iff.mpr ?_
        rw [map_map]
        exact h
      exact pairwise_map.mp hnodup
    refine pairwise_map.mpr ((hle.and hkeys).imp_of_mem fun ha hb hab => ?_)
    obtain ⟨ea, hea, rfl⟩ := hserialized _ ha
    obtain ⟨eb, heb, rfl⟩ := hserialized _ hb
    rw [hentryOf ea hea, hentryOf eb heb]
    exact lt_of_le_of_ne hab.1 fun heq => hab.2 (BlockRefTableKey.rank_injective heq)
  · refine fileBytes_eq (has_foldl_entries _ entryOf sdata ?_ (WriteBuffer.has_init.write _))
    intro sentry hmem _ _ hbuffer
    obtain ⟨entry, hentry, rfl⟩ := hserialized sentry hmem
    have hlookup : brtab.lookup entry.serialize.key = some entry :=
      BlockRefTable.lookup_key h hentry
    rw [hentryOf entry hentry, hlookup]
    exact entry.has_writeChunks (hbuffer.write _)

/-!
## Reading block reference tables

A reader gets the bytes of a file from a callback that returns as many of them as it likes, and
hands out the modified blocks of one relation fork after another, as many at a time as the caller
has room for.
-/

/-- The calls of the error callback, which does not return. -/
inductive ReaderError
  /-- `file "%s" ends unexpectedly` -/
  | endsUnexpectedly
  /-- `file "%s" has wrong magic number: expected %u, found %u` -/
  | wrongMagicNumber (expected found : ℕ)
  /-- `file "%s" has wrong checksum: expected %08X, found %08X` -/
  | wrongChecksum (expected found : ℕ)
  deriving DecidableEq, Repr

/-! ### The input buffer -/

/-- The file behind a read callback. A call returns at most `pieces calls + 1` bytes. -/
structure Source where
  remaining : List UInt8
  pieces : ℕ → ℕ
  calls : ℕ

/-- One read call, which may return fewer bytes than were asked for. -/
def Source.read (source : Source) (length : ℕ) : List UInt8 × Source :=
  let n := min length (source.pieces source.calls + 1)
  (source.remaining.take n,
    { source with remaining := source.remaining.drop n, calls := source.calls + 1 })

namespace Source

variable (source : Source) (length : ℕ)

theorem read_append : (source.read length).1 ++ (source.read length).2.remaining =
    source.remaining :=
  take_append_drop _ _

theorem length_read_le : (source.read length).1.length ≤ length :=
  (length_take_le _ _).trans (min_le_left _ _)

/-- The callback returns something unless it is at the end of the file. -/
theorem read_ne_nil {length : ℕ} (hlength : 0 < length) (h : source.remaining ≠ []) :
    (source.read length).1 ≠ [] := by
  intro hnil
  rw [read, take_eq_nil_iff] at hnil
  rcases hnil with hzero | hnil
  · omega
  · exact h hnil

end Source

/-- `BlockRefTableBuffer`, for reading. The first `used` bytes of the buffer are `data`. -/
structure ReadBuffer where
  source : Source
  data : List UInt8
  cursor : ℕ
  crc : UInt32

namespace ReadBuffer

/-- `BlockRefTableRead`. -/
def read (buffer : ReadBuffer) (length : ℕ) : Except ReaderError (List UInt8 × ReadBuffer) :=
  if length = 0 then .ok ([], buffer)
  else if buffer.cursor < buffer.data.length then
    -- use buffered data to satisfy as much of the request as possible
    let bytesToCopy := min length (buffer.data.length - buffer.cursor)
    let bytes := (buffer.data.drop buffer.cursor).take bytesToCopy
    let rest := read { buffer with
      crc := compCrc32c buffer.crc bytes
      cursor := buffer.cursor + bytesToCopy } (length - bytesToCopy)
    rest.map fun (more, buffer) => (bytes ++ more, buffer)
  else if length ≥ bufsize then
    -- the request length is long, so read directly into the caller's buffer
    let bytes := (buffer.source.read length).1
    if bytes = [] then .error .endsUnexpectedly
    else
      let rest := read { buffer with
        source := (buffer.source.read length).2
        crc := compCrc32c buffer.crc bytes } (length - bytes.length)
      rest.map fun (more, buffer) => (bytes ++ more, buffer)
  else
    -- refill the buffer
    let data := (buffer.source.read bufsize).1
    if data = [] then .error .endsUnexpectedly
    else read { buffer with
      source := (buffer.source.read bufsize).2
      data := data
      cursor := 0 } length
termination_by (length, if buffer.cursor < buffer.data.length then 0 else 1)
decreasing_by
  · exact Prod.Lex.left _ _ (by omega)
  · have hpos : 0 < (buffer.source.read length).1.length :=
      length_pos_iff.mpr (by assumption)
    exact Prod.Lex.left _ _ (by omega)
  · have hpos : 0 < (buffer.source.read bufsize).1.length :=
      length_pos_iff.mpr (by assumption)
    refine Prod.Lex.right _ ?_
    rw [if_pos hpos, if_neg (by assumption)]
    exact Nat.one_pos

/-- The bytes that have not been handed out. -/
def pending (buffer : ReadBuffer) : List UInt8 :=
  buffer.data.drop buffer.cursor ++ buffer.source.remaining

/-- The checksum is that of the bytes of the file that have been handed out. -/
def Summed (buffer : ReadBuffer) (file : List UInt8) : Prop :=
  ∃ done, file = done ++ buffer.pending ∧ buffer.crc = compCrc32c initCrc32c done

/-- Some bytes have been handed out. -/
structure Reads (buffer : ReadBuffer) (bytes : List UInt8) (buffer' : ReadBuffer) : Prop where
  pending : buffer.pending = bytes ++ buffer'.pending
  crc : buffer'.crc = compCrc32c buffer.crc bytes

theorem Reads.trans {buffer buffer' buffer'' : ReadBuffer} {bytes more : List UInt8}
    (h : buffer.Reads bytes buffer') (h' : buffer'.Reads more buffer'') :
    buffer.Reads (bytes ++ more) buffer'' :=
  ⟨by rw [h.pending, h'.pending, append_assoc], by rw [h'.crc, h.crc, compCrc32c_append]⟩

theorem Reads.summed {buffer buffer' : ReadBuffer} {bytes file : List UInt8}
    (h : buffer.Reads bytes buffer') (hsum : buffer.Summed file) : buffer'.Summed file := by
  obtain ⟨done, hfile, hcrc⟩ := hsum
  refine ⟨done ++ bytes, ?_, ?_⟩
  · rw [hfile, h.pending, append_assoc]
  · rw [h.crc, hcrc, compCrc32c_append]

/-- A request was satisfied with the result. -/
def Satisfied (buffer : ReadBuffer) (length : ℕ)
    (result : Except ReaderError (List UInt8 × ReadBuffer)) : Prop :=
  ∃ bytes buffer', result = .ok (bytes, buffer') ∧ bytes.length = length ∧
    buffer.Reads bytes buffer'

/-- A request is satisfied with some bytes and what satisfies the rest of it. -/
theorem Reads.satisfied_map {buffer next : ReadBuffer} {bytes : List UInt8} {length : ℕ}
    {result : Except ReaderError (List UInt8 × ReadBuffer)} (h : buffer.Reads bytes next)
    (hbytes : bytes.length ≤ length) (hlength : length ≤ buffer.pending.length)
    (hrest : length - bytes.length ≤ next.pending.length →
      next.Satisfied (length - bytes.length) result) :
    buffer.Satisfied length (result.map fun (more, buffer) => (bytes ++ more, buffer)) := by
  rw [h.pending, length_append] at hlength
  obtain ⟨more, buffer', rfl, hmore, hreads⟩ := hrest (by omega)
  refine ⟨bytes ++ more, buffer', rfl, ?_, h.trans hreads⟩
  rw [length_append]
  omega

/-- A request that the file can satisfy succeeds. -/
theorem satisfied_read (buffer : ReadBuffer) (length : ℕ) (h : length ≤ buffer.pending.length) :
    buffer.Satisfied length (buffer.read length) := by
  -- when the buffer is used up, the callback has all that is pending
  have hsource : ∀ {buffer : ReadBuffer}, ¬buffer.cursor < buffer.data.length →
      buffer.pending = buffer.source.remaining := by
    intro _ hcursor
    rw [pending, drop_eq_nil_iff.mpr (Nat.not_lt.mp hcursor), nil_append]
  have hne : ∀ {buffer : ReadBuffer} {length request : ℕ}, ¬buffer.cursor < buffer.data.length →
      length ≠ 0 → length ≤ buffer.pending.length → 0 < request →
      (buffer.source.read request).1 ≠ [] := by
    intro buffer _ _ hcursor hlength hle hrequest
    refine buffer.source.read_ne_nil hrequest fun hnil => hlength ?_
    rw [hsource hcursor, hnil] at hle
    exact Nat.le_zero.mp hle
  fun_induction read buffer length with
  | case1 buffer => exact ⟨[], buffer, rfl, rfl, rfl, rfl⟩
  | case2 buffer _ _ _ bytesToCopy bytes _ ih =>
    have hbytes : bytes.length = bytesToCopy := by
      rw [length_take, length_drop]
      exact min_eq_left (min_le_right _ _)
    have hreads : buffer.Reads bytes { buffer with
        crc := compCrc32c buffer.crc bytes, cursor := buffer.cursor + bytesToCopy } := by
      refine ⟨?_, rfl⟩
      rw [pending, pending, ← append_assoc, ← drop_drop, take_append_drop]
    refine hreads.satisfied_map (hbytes.trans_le (min_le_left _ _)) h fun hleft => ?_
    rw [hbytes] at hleft ⊢
    exact ih hleft
  | case3 _ _ hlength hcursor _ _ hnil =>
    exact absurd hnil (hne hcursor hlength h (Nat.pos_of_ne_zero hlength))
  | case4 buffer length _ hcursor _ bytes _ _ ih =>
    have hreads : buffer.Reads bytes { buffer with
        source := (buffer.source.read length).2, crc := compCrc32c buffer.crc bytes } := by
      refine ⟨?_, rfl⟩
      rw [pending, pending, drop_eq_nil_iff.mpr (Nat.not_lt.mp hcursor), nil_append,
        nil_append]
      exact (buffer.source.read_append length).symm
    exact hreads.satisfied_map (buffer.source.length_read_le length) h ih
  | case5 _ _ hlength hcursor _ _ hnil =>
    exact absurd hnil (hne hcursor hlength h (by decide))
  | case6 buffer _ _ hcursor _ data _ ih =>
    -- refilling the buffer hands out nothing
    have hpending : buffer.pending = pending { buffer with
        source := (buffer.source.read bufsize).2, data := data, cursor := 0 } := by
      rw [hsource hcursor]
      exact (buffer.source.read_append bufsize).symm
    obtain ⟨bytes, buffer', hread, hbytes, hreads⟩ := ih (hpending ▸ h)
    exact ⟨bytes, buffer', hread, hbytes, hpending.trans hreads.pending, hreads.crc⟩

/-- Reading what comes next in the file. -/
theorem read_eq {buffer : ReadBuffer} {bytes rest : List UInt8}
    (h : buffer.pending = bytes ++ rest) :
    ∃ buffer', buffer.read bytes.length = .ok (bytes, buffer') ∧ buffer'.pending = rest ∧
      buffer.Reads bytes buffer' := by
  obtain ⟨_, buffer', hread, hlength, hreads⟩ := buffer.satisfied_read bytes.length (by
    rw [h, length_append]
    exact Nat.le_add_right _ _)
  obtain ⟨rfl, hrest⟩ := append_inj (h.symm.trans hreads.pending) hlength.symm
  exact ⟨buffer', hread, hrest.symm, hreads⟩

end ReadBuffer

/-! ### The reader -/

/-- A reader with its buffer and the chunk that it is at. -/
structure BlockRefTableReader where
  buffer : ReadBuffer
  totalChunks : ℕ
  consumedChunks : ℕ
  chunkSize : ℕ → ℕ
  chunkData : BlockRefTableChunk
  chunkPosition : ℕ
  consumed_le : consumedChunks ≤ totalChunks

/-- `CreateBlockRefTableReader`. -/
def createBlockRefTableReader (source : Source) : Except ReaderError BlockRefTableReader := do
  let (bytes, buffer) ← ReadBuffer.read ⟨source, [], 0, initCrc32c⟩ 4
  let magic := ofLeBytes bytes
  if magic ≠ blockRefTableMagic.toNat then
    throw (.wrongMagicNumber blockRefTableMagic.toNat magic)
  else
    return ⟨buffer, 0, 0, fun _ => 0, fun _ => 0#16, 0, Nat.le_refl 0⟩

/-- The position in a chunk at which the reader is done with it. -/
def chunkStop (chunkSize : ℕ) : ℕ :=
  if chunkSize = maxEntriesPerChunk then blocksPerChunk else chunkSize

/-- The block at a position of a chunk: a bit that is set in a bitmap, and else an element of an
array of offsets. -/
def blockAt (chunkno chunkSize : ℕ) (chunkData : BlockRefTableChunk) (position : ℕ) :
    Option UInt32 :=
  if chunkSize = maxEntriesPerChunk then
    if bitIsSet chunkData position then some (UInt32.ofNat (chunkno * blocksPerChunk + position))
    else none
  else some (UInt32.ofNat (chunkno * blocksPerChunk + (chunkData position).toNat))

/-- The scan of a chunk, which ends early when there is no more room: the blocks that it found and
the position that it reached. -/
def scanChunk (block : ℕ → Option UInt32) (stop position room : ℕ) : List UInt32 × ℕ :=
  if position < stop ∧ 0 < room then
    match block position with
    | some blkno =>
      let rest := scanChunk block stop (position + 1) (room - 1)
      (blkno :: rest.1, rest.2)
    | none => scanChunk block stop (position + 1) room
  else ([], position)
termination_by stop - position

namespace BlockRefTableReader

/-- `BlockRefTableReaderNextRelation`. -/
def nextRelation (reader : BlockRefTableReader) :
    Except ReaderError (Option (BlockRefTableKey × UInt32) × BlockRefTableReader) := do
  let (sentry, buffer) ← reader.buffer.read 24
  if sentry = zentry.bytes then
    -- the checksum of the file excludes the checksum itself
    let expectedCrc := finCrc32c buffer.crc
    let (actualCrc, buffer) ← buffer.read 4
    if expectedCrc.toNat ≠ ofLeBytes actualCrc then
      throw (.wrongChecksum expectedCrc.toNat (ofLeBytes actualCrc))
    else
      return (none, { reader with buffer })
  else
    let member := fun i => UInt32.ofNat (leArrayGet 4 sentry i)
    let nchunks := leArrayGet 4 sentry 5
    let (sizes, buffer) ← buffer.read (2 * nchunks)
    return (some (⟨member 0, member 1, member 2, member 3⟩, member 4),
      { reader with
        buffer
        chunkSize := leArrayGet 2 sizes
        totalChunks := nchunks
        consumedChunks := 0
        consumed_le := Nat.zero_le _ })

/-- Look for blocks in the current chunk, if there is one. -/
def scanCurrent (reader : BlockRefTableReader) (room : ℕ) : List UInt32 × BlockRefTableReader :=
  if reader.consumedChunks > 0 then
    let chunkno := reader.consumedChunks - 1
    let chunkSize := reader.chunkSize chunkno
    let scan := scanChunk (blockAt chunkno chunkSize reader.chunkData) (chunkStop chunkSize)
      reader.chunkPosition room
    (scan.1, { reader with chunkPosition := scan.2 })
  else ([], reader)

/-- The bytes of the next chunk. An empty chunk has none in the file. -/
def nextChunkBytes (reader : BlockRefTableReader) : Except ReaderError (List UInt8 × ReadBuffer) :=
  let nextChunkSize := reader.chunkSize reader.consumedChunks
  if nextChunkSize > 0 then reader.buffer.read (2 * nextChunkSize) else .ok ([], reader.buffer)

/-- Read the data for the next chunk. What it does not overwrite of the last chunk stays. -/
def nextChunk (reader : BlockRefTableReader) (h : reader.consumedChunks ≠ reader.totalChunks) :
    Except ReaderError BlockRefTableReader := do
  let (bytes, buffer) ← reader.nextChunkBytes
  return { reader with
    buffer
    chunkData := fun i =>
      if i < reader.chunkSize reader.consumedChunks then BitVec.ofNat 16 (leArrayGet 2 bytes i)
      else reader.chunkData i
    consumedChunks := reader.consumedChunks + 1
    chunkPosition := 0
    consumed_le := Nat.succ_le_of_lt (Nat.lt_of_le_of_ne reader.consumed_le h) }

@[simp] theorem scanCurrent_totalChunks (reader : BlockRefTableReader) (room : ℕ) :
    (reader.scanCurrent room).2.totalChunks = reader.totalChunks := by
  rw [scanCurrent]
  split_ifs <;> rfl

@[simp] theorem scanCurrent_consumedChunks (reader : BlockRefTableReader) (room : ℕ) :
    (reader.scanCurrent room).2.consumedChunks = reader.consumedChunks := by
  rw [scanCurrent]
  split_ifs <;> rfl

theorem nextChunk_chunks {reader next : BlockRefTableReader}
    {h : reader.consumedChunks ≠ reader.totalChunks} (hnext : reader.nextChunk h = .ok next) :
    next.totalChunks = reader.totalChunks ∧
      next.consumedChunks = reader.consumedChunks + 1 := by
  rw [nextChunk] at hnext
  cases hbytes : reader.nextChunkBytes with rw [hbytes] at hnext
  | error =>
    cases hnext
  | ok =>
    cases hnext
    exact ⟨rfl, rfl⟩

/-- `BlockRefTableReaderGetBlocks`. -/
def getBlocks (reader : BlockRefTableReader) (nblocks : ℕ) :
    Except ReaderError (List UInt32 × BlockRefTableReader) :=
  let scanned := reader.scanCurrent nblocks
  -- we found enough blocks, so we're done
  if scanned.1.length ≥ nblocks then .ok scanned
  else if h : scanned.2.consumedChunks = scanned.2.totalChunks then .ok scanned
  else
    match _hnext : scanned.2.nextChunk h with
    | .error e => .error e
    | .ok next =>
      (getBlocks next (nblocks - scanned.1.length)).map fun (more, reader) =>
        (scanned.1 ++ more, reader)
termination_by reader.totalChunks - reader.consumedChunks
decreasing_by
  obtain ⟨htotal, hconsumed⟩ := nextChunk_chunks _hnext
  have hle := reader.consumed_le
  simp only [scanned, scanCurrent_totalChunks, scanCurrent_consumedChunks] at h htotal hconsumed
  omega

end BlockRefTableReader

/-!
## A reader in the middle of an entry

`Reading` relates a reader to the entry whose blocks it is handing out, and `remaining` are the
blocks that are left.
-/

/-! ### Scans -/

/-- The blocks that the reader finds in a chunk from a position on. -/
def blocksFrom (block : ℕ → Option UInt32) (stop position : ℕ) : List UInt32 :=
  (List.range' position (stop - position)).filterMap block

theorem blocksFrom_of_lt {block : ℕ → Option UInt32} {stop position : ℕ} (h : position < stop) :
    blocksFrom block stop position =
      (block position).toList ++ blocksFrom block stop (position + 1) := by
  obtain ⟨n, hn⟩ : ∃ n, stop - position = n + 1 := ⟨stop - position - 1, by omega⟩
  have hn' : stop - (position + 1) = n := by omega
  rw [blocksFrom, hn, range'_succ, filterMap_cons, blocksFrom, hn']
  cases block position <;> rfl

/-- A scan finds the next blocks, as many as there is room for, and stops after them. -/
theorem scanChunk_spec (block : ℕ → Option UInt32) (stop position room : ℕ) :
    (scanChunk block stop position room).1 = (blocksFrom block stop position).take room ∧
      blocksFrom block stop (scanChunk block stop position room).2 =
        (blocksFrom block stop position).drop room := by
  fun_induction scanChunk block stop position room with
  | case1 _ room h blkno hblock _ ih =>
    obtain ⟨room, rfl⟩ : ∃ n, room = n + 1 := ⟨room - 1, by omega⟩
    rw [blocksFrom_of_lt h.1, hblock]
    exact ⟨congrArg (blkno :: ·) ih.1, ih.2⟩
  | case2 _ _ h hblock ih =>
    rw [blocksFrom_of_lt h.1, hblock]
    exact ih
  | case3 position room h =>
    rcases Nat.eq_zero_or_pos room with rfl | hroom
    · exact ⟨rfl, rfl⟩
    · -- the scan is at the end of the chunk
      have hstop : stop - position = 0 := by omega
      rw [blocksFrom, hstop]
      simp

/-- The blocks at the positions of a chunk are those of its offsets. Only the words in use are
looked at. -/
theorem blocksFrom_blockAt (chunkno usage : ℕ) {chunk chunk' : BlockRefTableChunk}
    (hchunk : ∀ i < usage, chunk' i = chunk i) :
    blocksFrom (blockAt chunkno usage chunk') (chunkStop usage) 0 =
      ((BlockRefTableEntry.offsets usage chunk).map
        (chunkno * blocksPerChunk + ·)).map UInt32.ofNat := by
  rw [blocksFrom, Nat.sub_zero, ← range_eq_range', BlockRefTableEntry.offsets, chunkStop]
  split_ifs with husage
  · have hbit : ∀ position ∈ List.range blocksPerChunk, blockAt chunkno usage chunk' position =
        (Option.guard (bitIsSet chunk) position).map
          (fun offset => UInt32.ofNat (chunkno * blocksPerChunk + offset)) := by
      intro position hposition
      have hword : position / 16 < usage := by
        have hlt := mem_range.mp hposition
        rw [blocksPerChunk] at hlt
        rw [husage, maxEntriesPerChunk]
        omega
      rw [blockAt, if_pos husage, bitIsSet, hchunk _ hword, ← bitIsSet, Option.guard]
      split_ifs <;> rfl
    rw [filterMap_congr hbit, map_map, ← filterMap_eq_filter, map_filterMap]
    rfl
  · have hoffset : ∀ position ∈ List.range usage, blockAt chunkno usage chunk' position =
        some (UInt32.ofNat (chunkno * blocksPerChunk + (chunk position).toNat)) := by
      intro _ hposition
      rw [blockAt, if_neg husage, hchunk _ (mem_range.mp hposition)]
    rw [filterMap_congr hoffset, inUse, map_map, map_map, map_map]
    exact congrFun filterMap_eq_map' _

/-! ### Requests -/

/-- The blocks of a chunk, as they are handed out. -/
def BlockRefTableEntry.chunkBlockNumbers (entry : BlockRefTableEntry) (chunkno : ℕ) :
    List UInt32 :=
  (entry.chunkBlocks chunkno).map UInt32.ofNat

namespace BlockRefTableReader

/-- The blocks of the current chunk that have not been handed out. -/
def current (reader : BlockRefTableReader) : List UInt32 :=
  if reader.consumedChunks > 0 then
    blocksFrom
      (blockAt (reader.consumedChunks - 1) (reader.chunkSize (reader.consumedChunks - 1))
        reader.chunkData)
      (chunkStop (reader.chunkSize (reader.consumedChunks - 1))) reader.chunkPosition
  else []

/-- The chunks that have not been read. -/
def unread (reader : BlockRefTableReader) : List ℕ :=
  List.range' reader.consumedChunks (reader.totalChunks - reader.consumedChunks)

/-- The blocks of the entry that the reader has not returned yet. -/
def remaining (reader : BlockRefTableReader) (entry : BlockRefTableEntry) : List UInt32 :=
  reader.current ++ reader.unread.flatMap entry.chunkBlockNumbers

/-- The reader is in the middle of an entry, which some bytes follow. -/
structure Reading (reader : BlockRefTableReader) (entry : BlockRefTableEntry)
    (file rest : List UInt8) : Prop where
  summed : reader.buffer.Summed file
  chunkSize : ∀ c < reader.totalChunks, reader.chunkSize c = entry.chunkUsage c
  pending : reader.buffer.pending = reader.unread.flatMap entry.chunkBytes ++ rest

variable {reader : BlockRefTableReader} {entry : BlockRefTableEntry} {file rest : List UInt8}

theorem scanCurrent_spec (reader : BlockRefTableReader) (room : ℕ) :
    (reader.scanCurrent room).1 = reader.current.take room ∧
      (reader.scanCurrent room).2.current = reader.current.drop room := by
  rw [scanCurrent, current]
  split_ifs with hconsumed
  · obtain ⟨hfound, hleft⟩ := scanChunk_spec
      (blockAt (reader.consumedChunks - 1) (reader.chunkSize (reader.consumedChunks - 1))
        reader.chunkData)
      (chunkStop (reader.chunkSize (reader.consumedChunks - 1))) reader.chunkPosition room
    refine ⟨hfound, ?_⟩
    rw [current, if_pos hconsumed]
    exact hleft
  · rw [current, if_neg hconsumed]
    simp

/-- A scan changes nothing but the position. -/
theorem Reading.scanCurrent (h : reader.Reading entry file rest) (room : ℕ) :
    (reader.scanCurrent room).2.Reading entry file rest ∧
      (reader.scanCurrent room).2.unread = reader.unread := by
  rw [BlockRefTableReader.scanCurrent]
  split_ifs
  · exact ⟨⟨h.summed, h.chunkSize, h.pending⟩, rfl⟩
  · exact ⟨h, rfl⟩

theorem unread_of_ne (h : reader.consumedChunks ≠ reader.totalChunks) :
    reader.unread = reader.consumedChunks :: List.range' (reader.consumedChunks + 1)
      (reader.totalChunks - (reader.consumedChunks + 1)) := by
  have hle := reader.consumed_le
  obtain ⟨n, hn⟩ : ∃ n, reader.totalChunks - reader.consumedChunks = n + 1 :=
    ⟨reader.totalChunks - reader.consumedChunks - 1, by omega⟩
  have hn' : reader.totalChunks - (reader.consumedChunks + 1) = n := by omega
  rw [unread, hn, range'_succ, hn']

theorem nextChunkBytes_eq
    (hsize : reader.chunkSize reader.consumedChunks = entry.chunkUsage reader.consumedChunks)
    (hpending : reader.buffer.pending = entry.chunkBytes reader.consumedChunks ++ rest) :
    ∃ buffer, reader.nextChunkBytes = .ok (entry.chunkBytes reader.consumedChunks, buffer) ∧
      buffer.pending = rest ∧
      reader.buffer.Reads (entry.chunkBytes reader.consumedChunks) buffer := by
  rw [nextChunkBytes]
  split_ifs with husage
  · have hlength : (entry.chunkBytes reader.consumedChunks).length =
        2 * entry.chunkUsage reader.consumedChunks := length_leArray _ _ _
    rw [hsize, ← hlength]
    exact ReadBuffer.read_eq hpending
  · have hempty : entry.chunkBytes reader.consumedChunks = [] :=
      BlockRefTableEntry.chunkBytes_of_usage_eq_zero (by omega)
    rw [hempty] at hpending ⊢
    exact ⟨reader.buffer, rfl, hpending, rfl, rfl⟩

theorem Reading.nextChunk (h : reader.Reading entry file rest)
    (hmore : reader.consumedChunks ≠ reader.totalChunks) :
    ∃ next, reader.nextChunk hmore = .ok next ∧ next.Reading entry file rest ∧
      next.remaining entry = reader.unread.flatMap entry.chunkBlockNumbers := by
  have hsize : reader.chunkSize reader.consumedChunks = entry.chunkUsage reader.consumedChunks :=
    h.chunkSize _ (Nat.lt_of_le_of_ne reader.consumed_le hmore)
  have hpending := h.pending
  rw [unread_of_ne hmore, flatMap_cons, append_assoc] at hpending
  obtain ⟨_, hread, hrest, hreads⟩ := nextChunkBytes_eq hsize hpending
  rw [BlockRefTableReader.nextChunk, hread]
  refine ⟨_, rfl, ⟨hreads.summed h.summed, h.chunkSize, hrest⟩, ?_⟩
  rw [remaining, current, unread_of_ne hmore]
  refine congrArg (· ++ _) ?_
  dsimp only
  rw [Nat.add_sub_cancel, hsize]
  refine blocksFrom_blockAt _ _ fun i hi => ?_
  rw [if_pos hi, BlockRefTableEntry.chunkBytes, leArrayGet_leArray hi (BitVec.isLt _),
    BitVec.ofNat_toNat, BitVec.setWidth_eq]

/-- A request returns the next blocks of the entry. When there are too few of them, all chunks have
been read. -/
theorem Reading.getBlocks (h : reader.Reading entry file rest) (nblocks : ℕ) :
    ∃ next, reader.getBlocks nblocks = .ok ((reader.remaining entry).take nblocks, next) ∧
      next.Reading entry file rest ∧
      next.remaining entry = (reader.remaining entry).drop nblocks ∧
      ((reader.remaining entry).length < nblocks → next.unread = []) := by
  fun_induction BlockRefTableReader.getBlocks reader nblocks with
  | case1 reader nblocks scanned henough =>
    -- the current chunk has enough blocks
    obtain ⟨hfound, hleft⟩ := reader.scanCurrent_spec nblocks
    obtain ⟨hreading, hunread⟩ := h.scanCurrent nblocks
    have hlong : nblocks ≤ reader.current.length := by
      rw [hfound, length_take] at henough
      omega
    refine ⟨scanned.2, ?_, hreading, ?_, fun hfew => ?_⟩
    · rw [remaining, take_append_of_le_length hlong, ← hfound]
    · rw [remaining, remaining, hleft, hunread, drop_append_of_le_length hlong]
    · rw [remaining, length_append] at hfew
      omega
  | case2 reader nblocks scanned _ hlast =>
    -- there are no more chunks
    obtain ⟨hfound, hleft⟩ := reader.scanCurrent_spec nblocks
    obtain ⟨hreading, hunread⟩ := h.scanCurrent nblocks
    have hnone : reader.unread = [] := by
      rw [← hunread, unread, hlast, Nat.sub_self]
      rfl
    have hremaining : reader.remaining entry = reader.current := by
      rw [remaining, hnone]
      exact append_nil _
    refine ⟨scanned.2, ?_, hreading, ?_, fun _ => hunread.trans hnone⟩
    · rw [hremaining, ← hfound]
    · rw [remaining, hremaining, hunread, hnone, hleft]
      exact append_nil _
  | case3 _ nblocks _ _ hmore _ hnext =>
    obtain ⟨hreading, -⟩ := h.scanCurrent nblocks
    obtain ⟨_, hok, -⟩ := hreading.nextChunk hmore
    rw [hok] at hnext
    cases hnext
  | case4 reader nblocks scanned hfew hmore next hnext ih =>
    -- all of the current chunk is handed out, and the rest comes from the next chunks
    obtain ⟨hfound, -⟩ := reader.scanCurrent_spec nblocks
    obtain ⟨hreading, hunread⟩ := h.scanCurrent nblocks
    obtain ⟨next', hok, hreading', hremaining⟩ := hreading.nextChunk hmore
    obtain rfl : next' = next := by
      rw [hok] at hnext
      exact Except.ok.inj hnext
    have hshort : reader.current.length < nblocks := by
      rw [hfound, length_take] at hfew
      omega
    have hall : scanned.1 = reader.current := hfound.trans (take_of_length_le hshort.le)
    obtain ⟨last, hlast, hreading'', hremaining', hdone⟩ := ih hreading'
    refine ⟨last, ?_, hreading'', ?_, fun hfew => hdone ?_⟩
    · rw [hall] at hlast ⊢
      rw [hlast, hremaining, hunread, remaining, take_append,
        take_of_length_le (i := nblocks) hshort.le]
      rfl
    · rw [hremaining', hremaining, hunread, hall, remaining, drop_append,
        drop_of_length_le (i := nblocks) hshort.le]
      rfl
    · rw [remaining, length_append] at hfew
      rw [hremaining, hunread, hall]
      omega

end BlockRefTableReader

end PgCutover.BlkRefTable
