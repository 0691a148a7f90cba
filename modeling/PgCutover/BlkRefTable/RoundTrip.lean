import Mathlib.Data.Set.Card
import PgCutover.BlkRefTable.File
import PgCutover.Lib.Runs

/-!
# The round trip of block reference tables

A caller that reads a file from its beginning gets back the relation forks that were written, in
the order of their keys, each with its limit block and its modified blocks.
-/

namespace PgCutover.BlkRefTable

open Lib List

/-! ### Reading a whole file -/

/-- What a caller learns of one relation fork. -/
structure Relation where
  key : BlockRefTableKey
  limitBlock : UInt32
  blocks : List UInt32

/-- Ask for blocks until there are none. The request of each call has room for `nblocks call + 1`
blocks; also returned are the number of the next call and the reader after the last one. -/
def readBlocks (nblocks : ℕ → ℕ) :
    ℕ → ℕ → BlockRefTableReader →
      Option (Except ReaderError (List UInt32 × ℕ × BlockRefTableReader))
  | 0, _, _ => none
  | fuel + 1, call, reader =>
    match reader.getBlocks (nblocks call + 1) with
    | .error e => some (.error e)
    | .ok ([], reader) => some (.ok ([], call + 1, reader))
    | .ok (found, reader) =>
      (readBlocks nblocks fuel (call + 1) reader).map fun result =>
        result.map fun (more, call, reader) => (found ++ more, call, reader)

/-- Ask for relation forks, and for all blocks of each, until there are none. -/
def readRelations (nblocks : ℕ → ℕ) :
    ℕ → ℕ → BlockRefTableReader → Option (Except ReaderError (List Relation))
  | 0, _, _ => none
  | fuel + 1, call, reader =>
    match reader.nextRelation with
    | .error e => some (.error e)
    | .ok (none, _) => some (.ok [])
    | .ok (some (key, limitBlock), reader) =>
      match readBlocks nblocks fuel call reader with
      | none => none
      | some (.error e) => some (.error e)
      | some (.ok (blocks, call, reader)) =>
        (readRelations nblocks fuel call reader).map fun result =>
          result.map fun relations => ⟨key, limitBlock, blocks⟩ :: relations

/-- Read a whole file. -/
def readBlockRefTable (nblocks : ℕ → ℕ) (source : Source) (fuel : ℕ) :
    Option (Except ReaderError (List Relation)) :=
  match createBlockRefTableReader source with
  | .error e => some (.error e)
  | .ok reader => readRelations nblocks fuel 0 reader

/-! ### Entries -/

/-- The key is not that of the sentinel entry. -/
def BlockRefTableKey.NonZero (key : BlockRefTableKey) : Prop :=
  key.spcOid ≠ 0 ∨ key.dbOid ≠ 0 ∨ key.relNumber ≠ 0

instance : DecidablePred BlockRefTableKey.NonZero := fun _ => inferInstanceAs (Decidable (_ ∨ _))

/-- The blocks of an entry, as they are handed out. -/
def BlockRefTableEntry.blockNumbers (entry : BlockRefTableEntry) : List UInt32 :=
  entry.blocks.map UInt32.ofNat

/-- What a caller learns of an entry. -/
def BlockRefTableEntry.relation (entry : BlockRefTableEntry) : Relation :=
  ⟨entry.key, entry.limitBlock, entry.blockNumbers⟩

namespace SerializedEntry

variable {sentry : SerializedEntry}

/-- The members fit into four bytes. -/
theorem field_lt (h : sentry.nchunks < 2 ^ 32) (i : ℕ) : sentry.field i < 256 ^ 4 := by
  rw [field.eq_def]
  split
  case h_6 => exact h
  all_goals exact UInt32.toNat_lt _

theorem get_bytes (h : sentry.nchunks < 2 ^ 32) {i : ℕ} (hi : i < 6) :
    leArrayGet 4 sentry.bytes i = sentry.field i :=
  leArrayGet_leArray hi (field_lt h i)

/-- An entry with a relation locator is not taken for the sentinel. -/
theorem bytes_ne_zentry (h : sentry.nchunks < 2 ^ 32) (hkey : sentry.key.NonZero) :
    sentry.bytes ≠ zentry.bytes := by
  intro heq
  have hfield : ∀ i < 6, sentry.field i = zentry.field i := fun i hi => by
    rw [← get_bytes h hi, heq, get_bytes (by decide) hi]
  rcases hkey with hne | hne | hne
  · exact hne (UInt32.toNat_inj.mp (hfield 0 (by decide)))
  · exact hne (UInt32.toNat_inj.mp (hfield 1 (by decide)))
  · exact hne (UInt32.toNat_inj.mp (hfield 2 (by decide)))

end SerializedEntry

namespace BlockRefTableReader

variable {reader : BlockRefTableReader} {entry : BlockRefTableEntry} {file rest : List UInt8}

theorem nextRelation_eq (hsum : reader.buffer.Summed file)
    (hpending : reader.buffer.pending = entry.bytes ++ rest) (hsized : entry.WellSized)
    (hkey : entry.key.NonZero) :
    ∃ next, reader.nextRelation = .ok (some (entry.key, entry.limitBlock), next) ∧
      next.Reading entry file rest ∧ next.remaining entry = entry.blockNumbers := by
  have hnchunks : entry.serialize.nchunks < 2 ^ 32 := by
    have hle := BlockRefTableEntry.trimChunks_le entry.chunkUsage entry.nchunks
    have hmax := hsized.nchunks_le
    change BlockRefTableEntry.trimChunks entry.chunkUsage entry.nchunks < 2 ^ 32
    omega
  rw [BlockRefTableEntry.bytes, append_assoc, append_assoc] at hpending
  obtain ⟨_, hread, hrest, hreads⟩ := ReadBuffer.read_eq hpending
  obtain ⟨_, hread', hrest', hreads'⟩ := ReadBuffer.read_eq hrest
  rw [SerializedEntry.length_bytes] at hread
  rw [length_leArray] at hread'
  have hmember : ∀ i < 6, UInt32.ofNat (leArrayGet 4 entry.serialize.bytes i) =
      UInt32.ofNat (entry.serialize.field i) := fun i hi => by
    rw [SerializedEntry.get_bytes hnchunks hi]
  have hsizes : leArrayGet 4 entry.serialize.bytes 5 = entry.serialize.nchunks :=
    SerializedEntry.get_bytes hnchunks (by decide)
  rw [nextRelation, hread]
  change ∃ next, (if entry.serialize.bytes = zentry.bytes then _ else _) = _ ∧ _
  rw [if_neg (SerializedEntry.bytes_ne_zentry hnchunks hkey), hsizes, hread']
  dsimp only
  rw [hmember 0 (by decide), hmember 1 (by decide), hmember 2 (by decide), hmember 3 (by decide),
    hmember 4 (by decide)]
  simp only [SerializedEntry.field, UInt32.ofNat_toNat]
  refine ⟨_, rfl, ⟨(hreads.trans hreads').summed hsum, fun c hc => ?_, ?_⟩, ?_⟩
  · have husage : entry.chunkUsage c < 256 ^ 2 :=
      lt_of_le_of_lt (hsized.usage_le_max c) (by decide)
    exact leArrayGet_leArray hc husage
  · rw [range_eq_range'] at hrest'
    exact hrest'
  · -- the trimmed chunks have no blocks
    have htrim := BlockRefTableEntry.flatMap_range_trimChunks entry.chunkUsage entry.nchunks
      entry.chunkBlocks fun c hc => by
        rw [BlockRefTableEntry.chunkBlocks, hc]
        rfl
    rw [BlockRefTableEntry.blockNumbers, BlockRefTableEntry.blocks, ← htrim, map_flatMap,
      range_eq_range']
    rfl

/-- After the last entry, the checksum is accepted. -/
theorem nextRelation_eq_none {summed : List UInt8}
    (hsum : reader.buffer.Summed (summed ++ checksumBytes summed))
    (hpending : reader.buffer.pending = zentry.bytes ++ checksumBytes summed) :
    ∃ next, reader.nextRelation = .ok (none, next) := by
  obtain ⟨buffer, hread, hrest, hreads⟩ := ReadBuffer.read_eq hpending
  -- what has been read is everything before the checksum
  have hcrc : buffer.crc = compCrc32c initCrc32c summed := by
    obtain ⟨_, hfile, hcrc⟩ := hreads.summed hsum
    rw [hrest] at hfile
    rw [hcrc, append_cancel_right hfile]
  rw [← append_nil (checksumBytes summed)] at hrest
  obtain ⟨buffer', hread', -⟩ := ReadBuffer.read_eq hrest
  rw [SerializedEntry.length_bytes] at hread
  rw [checksumBytes, length_leBytes] at hread'
  have hfits : (finCrc32c (compCrc32c initCrc32c summed)).toNat < 256 ^ 4 := UInt32.toNat_lt _
  refine ⟨{ reader with buffer := buffer' }, ?_⟩
  rw [nextRelation, hread]
  simp only [bind, Except.bind]
  rw [hread']
  dsimp only
  rw [hcrc, ofLeBytes_leBytes hfits, if_neg (not_not.mpr rfl)]
  rfl

/-- All requests together return the blocks that are left. -/
theorem Reading.readBlocks (nblocks : ℕ → ℕ) {fuel : ℕ} (call : ℕ)
    (h : reader.Reading entry file rest) (hfuel : (reader.remaining entry).length < fuel) :
    ∃ call' next, readBlocks nblocks fuel call reader =
        some (.ok (reader.remaining entry, call', next)) ∧
      next.buffer.Summed file ∧ next.buffer.pending = rest := by
  induction fuel generalizing call reader with
  | zero => exact absurd hfuel (Nat.not_lt_zero _)
  | succ fuel ih =>
    obtain ⟨next, hget, hreading, hleft, hdone⟩ := h.getBlocks (nblocks call + 1)
    rw [BlkRefTable.readBlocks, hget]
    cases hremaining : reader.remaining entry with
    | nil =>
      have hunread : next.unread = [] := hdone (by rw [hremaining]; exact Nat.succ_pos _)
      refine ⟨call + 1, next, rfl, hreading.summed, ?_⟩
      rw [hreading.pending, hunread]
      rfl
    | cons b more =>
      rw [hremaining] at hleft hfuel
      have hlength : (next.remaining entry).length < fuel := by
        rw [hleft, length_drop]
        rw [length_cons] at hfuel ⊢
        omega
      obtain ⟨call', last, hrest, hsum, hpending⟩ := ih (call + 1) hreading hlength
      refine ⟨call', last, ?_, hsum, hpending⟩
      rw [take_succ_cons]
      dsimp only
      rw [hrest, hleft]
      change some (Except.ok (b :: (more.take (nblocks call) ++ more.drop (nblocks call)), _)) = _
      rw [take_append_drop]

/-- Enough calls to read some entries. -/
def enoughCalls : List BlockRefTableEntry → ℕ
  | [] => 1
  | entry :: entries => entry.blockNumbers.length + 1 + enoughCalls entries

theorem enoughCalls_pos (entries : List BlockRefTableEntry) : 0 < enoughCalls entries := by
  cases entries with
  | nil => exact Nat.one_pos
  | cons => exact Nat.add_pos_left (Nat.succ_pos _) _

/-- The entries that are left in a file are read one after another. -/
theorem readRelations_eq (nblocks : ℕ → ℕ) {summed : List UInt8}
    (entries : List BlockRefTableEntry) {fuel : ℕ} (call : ℕ)
    (hsum : reader.buffer.Summed (summed ++ checksumBytes summed))
    (hpending : reader.buffer.pending =
      entries.flatMap (·.bytes) ++ (zentry.bytes ++ checksumBytes summed))
    (hentries : ∀ entry ∈ entries, entry.WellSized ∧ entry.key.NonZero)
    (hfuel : enoughCalls entries ≤ fuel) :
    readRelations nblocks fuel call reader = some (.ok (entries.map (·.relation))) := by
  induction entries generalizing reader fuel call with
  | nil =>
    obtain ⟨_, rfl⟩ := Nat.exists_eq_add_of_le' hfuel
    obtain ⟨_, hnext⟩ := nextRelation_eq_none hsum hpending
    rw [enoughCalls, readRelations, hnext]
    rfl
  | cons entry entries ih =>
    obtain ⟨fuel, rfl⟩ : ∃ n, fuel = n + 1 :=
      Nat.exists_eq_add_of_le' ((enoughCalls_pos _).trans_le hfuel)
    rw [enoughCalls] at hfuel
    rw [flatMap_cons, append_assoc] at hpending
    obtain ⟨hsized, hkey⟩ := hentries entry mem_cons_self
    obtain ⟨next, hnext, hreading, hremaining⟩ := nextRelation_eq hsum hpending hsized hkey
    have hpos := enoughCalls_pos entries
    obtain ⟨call', _, hblocks, hsum', hpending'⟩ := hreading.readBlocks nblocks call
      (show (next.remaining entry).length < fuel by rw [hremaining]; omega)
    have hrest := ih call' hsum' hpending'
      (fun e he => hentries e (mem_cons_of_mem entry he))
      (show enoughCalls entries ≤ fuel by omega)
    rw [readRelations, hnext]
    dsimp only
    rw [hblocks, hremaining]
    dsimp only
    rw [hrest]
    rfl

end BlockRefTableReader

/-- The magic number of a file is accepted. -/
theorem createBlockRefTableReader_eq {source : Source} {rest : List UInt8}
    (h : source.remaining = leBytes 4 blockRefTableMagic.toNat ++ rest) :
    ∃ reader, createBlockRefTableReader source = .ok reader ∧
      reader.buffer.Summed source.remaining ∧ reader.buffer.pending = rest := by
  have hsum : ReadBuffer.Summed ⟨source, [], 0, initCrc32c⟩ source.remaining := ⟨[], rfl, rfl⟩
  have hpending : ReadBuffer.pending ⟨source, [], 0, initCrc32c⟩ =
      leBytes 4 blockRefTableMagic.toNat ++ rest := h
  obtain ⟨buffer, hread, hrest, hreads⟩ := ReadBuffer.read_eq hpending
  refine ⟨⟨buffer, 0, 0, fun _ => 0, fun _ => 0#16, 0, Nat.le_refl 0⟩, ?_, hreads.summed hsum,
    hrest⟩
  rw [length_leBytes] at hread
  rw [createBlockRefTableReader, hread]
  rfl

theorem readBlockRefTable_eq (entries : List BlockRefTableEntry) (pieces nblocks : ℕ → ℕ)
    (hentries : ∀ entry ∈ entries, entry.WellSized ∧ entry.key.NonZero) {fuel : ℕ}
    (hfuel : BlockRefTableReader.enoughCalls entries ≤ fuel) :
    readBlockRefTable nblocks ⟨fileBytes entries, pieces, 0⟩ fuel =
      some (.ok (entries.map (·.relation))) := by
  have hfile : fileBytes entries = leBytes 4 blockRefTableMagic.toNat ++
      (entries.flatMap (·.bytes) ++ (zentry.bytes ++ checksumBytes (summedBytes entries))) := by
    rw [fileBytes]
    nth_rewrite 1 [summedBytes]
    rw [append_assoc, append_assoc]
  have hsource : (Source.mk (fileBytes entries) pieces 0).remaining = _ := hfile
  obtain ⟨_, hreader, hsum, hpending⟩ := createBlockRefTableReader_eq hsource
  rw [readBlockRefTable, hreader]
  exact BlockRefTableReader.readRelations_eq nblocks entries 0 hsum hpending hentries hfuel

/-! ### Contents -/

/-- All modified blocks are block numbers. -/
theorem Fork.lt_of_mem_run (ops : List EntryOp) {b : ℕ} (hb : b ∈ (Fork.run ops).modified) :
    b < 2 ^ 32 := by
  induction ops using List.reverseRecOn with
  | nil => exact absurd hb (Set.notMem_empty b)
  | append_singleton ops op ih =>
    have hrun : Fork.run (ops ++ [op]) = (Fork.run ops).step op := by
      rw [Fork.run, foldl_append]
      rfl
    rw [hrun] at hb
    cases op with
    | markBlockModified blknum =>
      rcases hb with rfl | hb
      · exact blknum.toNat_lt
      · exact ih hb
    | setLimitBlock =>
      rw [Fork.step] at hb
      split_ifs at hb
      · exact ih hb.1
      · exact ih hb

namespace BlockRefTableEntry

variable {entry : BlockRefTableEntry}

theorem mem_blockNumbers (h : ∀ b ∈ entry.blocks, b < 2 ^ 32) (b : UInt32) :
    b ∈ entry.blockNumbers ↔ b.toNat ∈ entry.blocks := by
  rw [blockNumbers, mem_map]
  constructor
  · rintro ⟨n, hn, rfl⟩
    rw [UInt32.toNat_ofNat_of_lt' (h n hn)]
    exact hn
  · intro hb
    exact ⟨b.toNat, hb, UInt32.ofNat_toNat⟩

theorem pairwise_blocks (entry : BlockRefTableEntry) :
    entry.blocks.Pairwise fun a b => a / blocksPerChunk ≤ b / blocksPerChunk := by
  have hchunk : ∀ c, ∀ b ∈ entry.chunkBlocks c, b / blocksPerChunk = c := by
    intro c b hb
    obtain ⟨n, hn, rfl⟩ := mem_map.mp hb
    have hlt := lt_of_mem_offsets hn
    rw [Nat.mul_comm, Nat.mul_add_div (by decide), Nat.div_eq_of_lt hlt, Nat.add_zero]
  rw [blocks, pairwise_flatMap]
  refine ⟨fun c _ => ?_, ?_⟩
  · refine List.Pairwise.imp_of_mem (fun ha hb _ => ?_) (pairwise_of_forall fun _ _ => trivial)
    rw [hchunk c _ ha, hchunk c _ hb]
  · refine pairwise_lt_range.imp fun hlt a ha b hb => ?_
    rw [hchunk _ a ha, hchunk _ b hb]
    exact hlt.le

theorem pairwise_blockNumbers (h : ∀ b ∈ entry.blocks, b < 2 ^ 32) :
    entry.blockNumbers.Pairwise fun a b =>
      a.toNat / blocksPerChunk ≤ b.toNat / blocksPerChunk := by
  refine pairwise_map.mpr (entry.pairwise_blocks.imp_of_mem fun {a b} ha hb hab => ?_)
  rw [UInt32.toNat_ofNat_of_lt' (h a ha), UInt32.toNat_ofNat_of_lt' (h b hb)]
  exact hab

end BlockRefTableEntry

/-- A caller that reads the file learns the contents, whatever the pieces in which the callback
returns the file and whatever the numbers of blocks that it asks for: the relation forks in the
order of their keys, and for each the limit block and the modified blocks, chunk by chunk. The
reader reports no error, so it accepts the checksum. -/
def ReadsBack (file : List UInt8) (contents : BlockRefTableKey → Option Fork) : Prop :=
  ∀ pieces nblocks : ℕ → ℕ, ∃ relations : List Relation,
    (∃ enough, ∀ fuel ≥ enough,
      readBlockRefTable nblocks ⟨file, pieces, 0⟩ fuel = some (.ok relations)) ∧
    relations.Pairwise (fun a b => a.key.rank < b.key.rank) ∧
    (∀ key, (contents key).isSome ↔ ∃ relation ∈ relations, relation.key = key) ∧
    ∀ relation ∈ relations, ∃ fork, contents relation.key = some fork ∧
      relation.limitBlock = fork.limitBlock ∧
      (∀ b : UInt32, b ∈ relation.blocks ↔ b.toNat ∈ fork.modified) ∧
      relation.blocks.Pairwise fun a b => a.toNat / blocksPerChunk ≤ b.toNat / blocksPerChunk

theorem readsBack_fileBytes {entries : List BlockRefTableEntry}
    {contents : BlockRefTableKey → Option Fork}
    (hsorted : entries.Pairwise fun a b => a.key.rank < b.key.rank)
    (hkeys : ∀ key, (contents key).isSome ↔ ∃ entry ∈ entries, entry.key = key)
    (hnonzero : ∀ entry ∈ entries, entry.key.NonZero)
    (hentries : ∀ entry ∈ entries, ∃ ops, contents entry.key = some (Fork.run ops) ∧
      entry.Represents (Fork.run ops)) :
    ReadsBack (fileBytes entries) contents := by
  intro pieces nblocks
  refine ⟨entries.map (·.relation), ⟨_, fun fuel hfuel => readBlockRefTable_eq entries pieces
    nblocks (fun entry hmem => ?_) hfuel⟩, pairwise_map.mpr hsorted, fun key => ?_,
    fun relation hmem => ?_⟩
  · obtain ⟨ops, -, hrep⟩ := hentries entry hmem
    exact ⟨hrep.wellSized, hnonzero entry hmem⟩
  · rw [hkeys key]
    simp [BlockRefTableEntry.relation]
  · obtain ⟨entry, hentry, rfl⟩ := mem_map.mp hmem
    obtain ⟨ops, hcontents, hrep⟩ := hentries entry hentry
    have hbound : ∀ b ∈ entry.blocks, b < 2 ^ 32 := fun b hb =>
      Fork.lt_of_mem_run ops ((hrep.blocks b).mp hb)
    exact ⟨_, hcontents, hrep.limitBlock,
      fun b => (BlockRefTableEntry.mem_blockNumbers hbound b).trans (hrep.blocks b.toNat),
      BlockRefTableEntry.pairwise_blockNumbers hbound⟩

/-- What a sequence of calls on a table describes. -/
def contentsOf (ops : List (BlockRefTableKey × EntryOp)) (key : BlockRefTableKey) : Option Fork :=
  if opsFor key ops = [] then none else some (Fork.run (opsFor key ops))

/-- What the calls on each of some entries describe. -/
def contentsOfEntries (entries : List (BlockRefTableKey × List EntryOp))
    (key : BlockRefTableKey) : Option Fork :=
  (entries.find? (·.1 = key)).map fun entry => Fork.run entry.2

theorem contentsOfEntries_eq {entries : List (BlockRefTableKey × List EntryOp)}
    (hsorted : entries.Pairwise fun a b => a.1.rank < b.1.rank)
    {entry : BlockRefTableKey × List EntryOp} (hmem : entry ∈ entries) :
    contentsOfEntries entries entry.1 = some (Fork.run entry.2) := by
  induction entries with
  | nil => exact absurd hmem not_mem_nil
  | cons first _ ih =>
    obtain ⟨hfirst, hsorted⟩ := pairwise_cons.mp hsorted
    rw [contentsOfEntries, List.find?_cons]
    rcases mem_cons.mp hmem with rfl | hmem
    · rw [decide_eq_true rfl]
      rfl
    · have hne : first.1 ≠ entry.1 := fun heq => (hfirst entry hmem).ne (by rw [heq])
      rw [decide_eq_false hne]
      exact ih hsorted hmem

/-- A table that results from any calls is read back from the file that is written for it, and so
are entries that are written one by one in the order of their keys. -/
theorem blockRefTable_roundTrip :
    (∀ ops : List (BlockRefTableKey × EntryOp), (∀ op ∈ ops, op.1.NonZero) →
      ReadsBack (writeBlockRefTable (.run ops)) (contentsOf ops)) ∧
    (∀ entries : List (BlockRefTableKey × List EntryOp), (∀ entry ∈ entries, entry.1.NonZero) →
      entries.Pairwise (fun a b => a.1.rank < b.1.rank) →
      ReadsBack (writeEntries (entries.map fun entry => .run entry.1 entry.2))
        (contentsOfEntries entries)) := by
  constructor
  · intro ops hops
    have hrefines := BlockRefTable.refines_run ops
    obtain ⟨entries, hperm, hsorted, hfile⟩ :=
      writeBlockRefTable_eq (.run ops) hrefines.nodup
    rw [hfile]
    have hsound : ∀ entry ∈ entries, opsFor entry.key ops ≠ [] ∧
        entry.Represents (Fork.run (opsFor entry.key ops)) := by
      intro entry hmem
      obtain ⟨_, hfork, hrep⟩ := hrefines.sound entry (hperm.mem_iff.mp hmem)
      split_ifs at hfork with hne
      exact ⟨hne, Option.some.inj hfork ▸ hrep⟩
    refine readsBack_fileBytes hsorted (fun key => ?_) (fun entry hmem => ?_) fun entry hmem => ?_
    · constructor
      · intro hsome
        obtain ⟨entry, hentry, hkey⟩ := mem_map.mp (hrefines.complete key hsome)
        exact ⟨entry, hperm.mem_iff.mpr hentry, hkey⟩
      · rintro ⟨entry, hmem, rfl⟩
        rw [contentsOf, if_neg (hsound entry hmem).1]
        rfl
    · -- the key is that of some call
      obtain ⟨_, hop⟩ := exists_mem_of_ne_nil _ (hsound entry hmem).1
      obtain ⟨call, hcall, -⟩ := mem_map.mp hop
      obtain ⟨hmem', hkey⟩ := mem_filter.mp hcall
      rw [← of_decide_eq_true hkey]
      exact hops call hmem'
    · obtain ⟨hne, hrep⟩ := hsound entry hmem
      exact ⟨_, by rw [contentsOf, if_neg hne], hrep⟩
  · intro _ hnonzero hsorted
    rw [writeEntries_eq]
    have hrun := fun entry : BlockRefTableKey × List EntryOp =>
      BlockRefTableEntry.represents_run entry.1 entry.2
    refine readsBack_fileBytes ?_ (fun key => ?_) (fun entry hmem => ?_) fun entry hmem => ?_
    · refine pairwise_map.mpr (hsorted.imp fun {a b} hab => ?_)
      rw [(hrun a).2, (hrun b).2]
      exact hab
    · constructor
      · intro hsome
        rw [contentsOfEntries, Option.isSome_map, List.find?_isSome] at hsome
        obtain ⟨entry, hmem, hkey⟩ := hsome
        exact ⟨_, mem_map_of_mem hmem, (hrun entry).2.trans (of_decide_eq_true hkey)⟩
      · rintro ⟨_, hmem, rfl⟩
        obtain ⟨entry, hentry, rfl⟩ := mem_map.mp hmem
        rw [(hrun entry).2, contentsOfEntries_eq hsorted hentry]
        rfl
    · obtain ⟨entry, hentry, rfl⟩ := mem_map.mp hmem
      rw [(hrun entry).2]
      exact hnonzero entry hentry
    · obtain ⟨entry, hentry, rfl⟩ := mem_map.mp hmem
      exact ⟨entry.2, by rw [(hrun entry).2, contentsOfEntries_eq hsorted hentry], (hrun entry).1⟩

/-- A table in which one fork is truncated after its blocks were modified, and the same fork written
as a single entry. -/
theorem blockRefTable_roundTrip_truncated :
    ReadsBack
      (writeBlockRefTable (.run
        [(⟨1663, 5, 16384, 0⟩, .markBlockModified 7),
        (⟨1663, 5, 16384, 0⟩, .markBlockModified 70000),
          (⟨1663, 5, 16384, 0⟩, .setLimitBlock 100)]))
      (contentsOf
        [(⟨1663, 5, 16384, 0⟩, .markBlockModified 7),
        (⟨1663, 5, 16384, 0⟩, .markBlockModified 70000),
          (⟨1663, 5, 16384, 0⟩, .setLimitBlock 100)]) ∧
    ReadsBack
      (writeEntries [.run ⟨1663, 5, 16384, 0⟩ [.markBlockModified 7, .setLimitBlock 100]])
      (contentsOfEntries [(⟨1663, 5, 16384, 0⟩, [.markBlockModified 7, .setLimitBlock 100])]) :=
  ⟨blockRefTable_roundTrip.1 _ (by decide),
    blockRefTable_roundTrip.2 [(⟨1663, 5, 16384, 0⟩, [.markBlockModified 7, .setLimitBlock 100])]
      (by decide) (pairwise_singleton _ _)⟩

/-!
## Queries for any range

`BlockRefTableEntryGetBlocks` for every range and every room, not only for the segments of a
relation.
-/

namespace BlockRefTableEntry

/-- The blocks of a set in a range, up to a number of them. -/
def ReturnsExactly (result : Option (List ℕ)) (modified : Set ℕ)
    (startBlkno stopBlkno nblocks : ℕ) :
    Prop :=
  ∃ blocks, result = some blocks ∧ blocks.Nodup ∧ blocks.length ≤ nblocks ∧
    (∀ b ∈ blocks, b ∈ modified ∧ startBlkno ≤ b ∧ b < stopBlkno) ∧
    (blocks.length < nblocks → ∀ b ∈ modified, startBlkno ≤ b → b < stopBlkno → b ∈ blocks)

variable {entry : BlockRefTableEntry} {startBlkno stopBlkno : ℕ}

/-- The blocks of the range are returned exactly when there is room for one, if there is one, and
when there is no more room than blocks, if the function would go on beyond the end of a bitmap. -/
theorem returnsExactly_iff {modified : Set ℕ} (h : entry.Tidy)
    (hblocks : ∀ b, b ∈ entry.blocks ↔ b ∈ modified) (nblocks : ℕ) :
    ReturnsExactly (entry.entryGetBlocks startBlkno stopBlkno nblocks) modified startBlkno stopBlkno
        nblocks ↔
      (nblocks = 0 → ∀ b ∈ modified, ¬(startBlkno ≤ b ∧ b < stopBlkno)) ∧
      (entry.Overruns startBlkno stopBlkno → nblocks ≠ 0 ∧
        nblocks ≤ {b ∈ modified | startBlkno ≤ b ∧ b < stopBlkno}.ncard) := by
  have hmem (b : ℕ) : b ∈ entry.found startBlkno stopBlkno ↔
      b ∈ modified ∧ startBlkno ≤ b ∧ b < stopBlkno := by rw [mem_found, hblocks]
  have hnodup : (entry.found startBlkno stopBlkno).Nodup := nodup_found h
  have hcard : {b ∈ modified | startBlkno ≤ b ∧ b < stopBlkno}.ncard =
      (entry.found startBlkno stopBlkno).length := by
    have hset : {b ∈ modified | startBlkno ≤ b ∧ b < stopBlkno} =
        ((entry.found startBlkno stopBlkno).toFinset : Set ℕ) := by
      ext b
      rw [coe_toFinset]
      exact (hmem b).symm
    rw [hset, Set.ncard_coe_finset, toFinset_card_of_nodup hnodup]
  rw [entryGetBlocks_eq, hcard]
  split_ifs with hfull hover
  · refine iff_of_true ⟨_, rfl, hnodup.sublist (take_sublist _ _), ?_, ?_, ?_⟩
      ⟨fun hzero => absurd hzero hfull.1, fun _ => hfull⟩
    · exact length_take_le _ _
    · exact fun b hb => (hmem b).mp (mem_of_mem_take hb)
    · intro hlt
      rw [length_take] at hlt
      omega
  · refine iff_of_false ?_ fun hcond => hfull (hcond.2 hover)
    rintro ⟨_, hnone, -⟩
    cases hnone
  · constructor
    · rintro ⟨_, hsome, -, hle, -⟩
      cases hsome
      refine ⟨fun hzero b hb hrange => ?_, fun hcontra => absurd hcontra hover⟩
      have hpos := length_pos_of_mem ((hmem b).mpr ⟨hb, hrange⟩)
      omega
    · rintro ⟨hempty, -⟩
      refine ⟨_, rfl, hnodup, ?_, fun b hb => (hmem b).mp hb,
        fun _ b hb hge hlt => (hmem b).mpr ⟨hb, hge, hlt⟩⟩
      by_cases hzero : nblocks = 0
      · have hnil : entry.found startBlkno stopBlkno = [] :=
          eq_nil_iff_forall_not_mem.mpr fun b hb =>
            hempty hzero b ((hmem b).mp hb).1 ((hmem b).mp hb).2
        rw [hnil]
        exact Nat.zero_le _
      · omega

theorem tidy_entry_run (key : BlockRefTableKey) (ops : List EntryOp) : (run key ops).Tidy := by
  induction ops using List.reverseRecOn with
  | nil => exact tidy_newEntry key invalidBlockNumber
  | append_singleton _ op ih =>
    rw [run, foldl_append]
    cases op with
    | markBlockModified blknum => exact ih.markBlockModified blknum
    | setLimitBlock limitBlock => exact ih.setLimitBlock limitBlock

end BlockRefTableEntry

/-! ### Limits -/

namespace Fork

/-- A call adds a block, or forgets the blocks from a limit on, be it lower or not. -/
def stepEach (fork : Fork) : EntryOp → Fork
  | .markBlockModified blknum => { fork with modified := Set.insert blknum.toNat fork.modified }
  | .setLimitBlock limitBlock =>
    ⟨if limitBlock < fork.limitBlock then limitBlock else fork.limitBlock,
      {b ∈ fork.modified | b < limitBlock.toNat}⟩

/-- The lowest limit, and the marked blocks without those that each limit has removed. -/
def runEach (ops : List EntryOp) : Fork := ops.foldl stepEach new

/-- The call sets a limit that is not lower, although there are blocks from there on. -/
def Ignores (fork : Fork) : EntryOp → Prop
  | .markBlockModified _ => False
  | .setLimitBlock limitBlock =>
    fork.limitBlock ≤ limitBlock ∧ ∃ b ∈ fork.modified, limitBlock.toNat ≤ b

theorem step_eq_stepEach_iff (fork : Fork) (op : EntryOp) :
    fork.step op = fork.stepEach op ↔ ¬ fork.Ignores op := by
  cases op with
  | markBlockModified => exact iff_of_true rfl id
  | setLimitBlock limitBlock =>
    rw [step, stepEach, Ignores]
    split_ifs with hlower
    · exact iff_of_true rfl fun h => absurd hlower (UInt32.not_lt.mpr h.1)
    · have hle := UInt32.not_lt.mp hlower
      rw [and_iff_right hle]
      constructor
      · rintro heq ⟨b, hb, hge⟩
        have hmodified : fork.modified = {b ∈ fork.modified | b < limitBlock.toNat} :=
          congrArg Fork.modified heq
        rw [hmodified] at hb
        exact absurd hb.2 (by omega)
      · intro hnone
        have hmodified : {b ∈ fork.modified | b < limitBlock.toNat} = fork.modified := by
          ext b
          refine and_iff_left_of_imp fun hb => ?_
          by_contra hge
          exact hnone ⟨b, hb, by omega⟩
        rw [hmodified]

/-- The calls describe the same up to each of them exactly when none is ignored wrongly. -/
theorem foldl_step_eq_iff (fork : Fork) (ops : List EntryOp) :
    (∀ calls, calls <+: ops → calls.foldl step fork = calls.foldl stepEach fork) ↔
      EveryStep step (fun fork op => ¬ fork.Ignores op) fork ops := by
  induction ops generalizing fork with
  | nil => simp [EveryStep]
  | cons op ops ih =>
    rw [EveryStep, ← ih, ← step_eq_stepEach_iff]
    constructor
    · intro h
      have hop : fork.step op = fork.stepEach op := h [op] (prefix_append [op] ops)
      refine ⟨hop, fun calls hcalls => ?_⟩
      have hcons := h (op :: calls) ((prefix_cons_inj op).mpr hcalls)
      rwa [foldl_cons, foldl_cons, ← hop] at hcons
    · rintro ⟨hop, h⟩ calls hcalls
      cases calls with
      | nil => rfl
      | cons _ calls =>
        obtain ⟨rfl, htail⟩ := cons_prefix_cons.mp hcalls
        rw [foldl_cons, foldl_cons, ← hop]
        exact h calls htail

end Fork

theorem BlockRefTableEntry.Represents.unique {entry : BlockRefTableEntry} {fork fork' : Fork}
    (h : entry.Represents fork) (h' : entry.Represents fork') : fork = fork' := by
  obtain ⟨limitBlock, modified⟩ := fork
  obtain ⟨limitBlock', modified'⟩ := fork'
  have hlimit : limitBlock = limitBlock' := h.limitBlock.symm.trans h'.limitBlock
  have hmodified : modified = modified' := Set.ext fun b => (h.blocks b).symm.trans (h'.blocks b)
  rw [hlimit, hmodified]

/-- **Entries.** Up to each of a sequence of calls the entry represents the lowest limit and the
marked blocks that no limit has removed, exactly when no call ignores a limit with blocks above it;
and then a query returns exactly the blocks of its range, up to the room there is, exactly when it
has room for one if there is one, and no more room than blocks if the range goes on beyond a last
chunk that is a bitmap. -/
theorem entry_refines_set_iff (key : BlockRefTableKey) (ops : List EntryOp) :
    ((∀ calls, calls <+: ops →
        (BlockRefTableEntry.run key calls).Represents (Fork.runEach calls)) ↔
      EveryStep Fork.step (fun fork op => ¬ fork.Ignores op) .new ops) ∧
    ∀ startBlkno stopBlkno nblocks : ℕ,
      EveryStep Fork.step (fun fork op => ¬ fork.Ignores op) .new ops →
      (BlockRefTableEntry.ReturnsExactly
          ((BlockRefTableEntry.run key ops).entryGetBlocks startBlkno stopBlkno nblocks)
          (Fork.runEach ops).modified startBlkno stopBlkno nblocks ↔
        (nblocks = 0 →
          ∀ b ∈ (Fork.runEach ops).modified, ¬(startBlkno ≤ b ∧ b < stopBlkno)) ∧
        ((BlockRefTableEntry.run key ops).Overruns startBlkno stopBlkno → nblocks ≠ 0 ∧
          nblocks ≤
            {b ∈ (Fork.runEach ops).modified | startBlkno ≤ b ∧ b < stopBlkno}.ncard)) := by
  have hrep (calls : List EntryOp) := (BlockRefTableEntry.represents_run key calls).1
  have hiff : (∀ calls, calls <+: ops →
      (BlockRefTableEntry.run key calls).Represents (Fork.runEach calls)) ↔
        EveryStep Fork.step (fun fork op => ¬ fork.Ignores op) .new ops := by
    rw [← Fork.foldl_step_eq_iff]
    refine forall₂_congr fun calls _ => ⟨fun h => (hrep calls).unique h, fun heq => ?_⟩
    have := hrep calls
    rwa [Fork.run, heq] at this
  refine ⟨hiff, fun startBlkno stopBlkno nblocks hops => ?_⟩
  have hblocks := (hiff.mpr hops ops (prefix_refl ops)).blocks
  exact BlockRefTableEntry.returnsExactly_iff (BlockRefTableEntry.tidy_entry_run key ops) hblocks
    nblocks

/-! ### A range beyond a bitmap -/

/-- Marks of consecutive blocks. -/
def markRange (startBlkno n : ℕ) : List EntryOp :=
  (List.range' startBlkno n).map fun b => .markBlockModified (UInt32.ofNat b)

theorem markRange_succ (startBlkno n : ℕ) :
    markRange startBlkno (n + 1) =
      markRange startBlkno n ++ [.markBlockModified (UInt32.ofNat (startBlkno + n))] := by
  rw [markRange, range'_1_concat, map_append]
  rfl

theorem modified_markRange {startBlkno n : ℕ} (h : startBlkno + n ≤ 2 ^ 32) (b : ℕ) :
    b ∈ (Fork.run (markRange startBlkno n)).modified ↔ startBlkno ≤ b ∧ b < startBlkno + n := by
  induction n with
  | zero => exact iff_of_false id (by omega)
  | succ n ih =>
    have hlast : (UInt32.ofNat (startBlkno + n)).toNat = startBlkno + n :=
      UInt32.toNat_ofNat_of_lt' (by rw [UInt32.size]; omega)
    rw [Fork.run, markRange_succ, foldl_append]
    change b = _ ∨ b ∈ (Fork.run (markRange startBlkno n)).modified ↔ _
    rw [ih (by omega)]
    omega

namespace BlockRefTableEntry

theorem mem_blocks_markRange (key : BlockRefTableKey) {startBlkno n : ℕ}
    (h : startBlkno + n ≤ 2 ^ 32) (b : ℕ) :
    b ∈ (run key (markRange startBlkno n)).blocks ↔ startBlkno ≤ b ∧ b < startBlkno + n := by
  rw [(represents_run key _).1.blocks, modified_markRange h]

theorem markBlockModified_nchunks {entry : BlockRefTableEntry} {blknum : UInt32}
    (h : blknum.toNat / blocksPerChunk < entry.nchunks) :
    (entry.markBlockModified blknum).nchunks = entry.nchunks := by
  have henlarge : entry.enlarge (blknum.toNat / blocksPerChunk) = entry :=
    if_neg (Nat.not_le.mpr h)
  rw [markBlockModified, henlarge]
  split_ifs
  · rfl
  · rw [addOffset]
    split_ifs <;> rfl

/-- The first block of the last of the initial chunks makes room for them, and the others of that
chunk need no more. -/
theorem nchunks_markRange (key : BlockRefTableKey) {n : ℕ} (h : n < blocksPerChunk) :
    (run key (markRange (15 * blocksPerChunk) (n + 1))).nchunks = 16 := by
  induction n with
  | zero => rfl
  | succ n ih =>
    rw [blocksPerChunk] at *
    have ih := ih (by omega)
    have hchunk : (UInt32.ofNat (15 * 65536 + (n + 1))).toNat / blocksPerChunk < 16 := by
      rw [UInt32.toNat_ofNat_of_lt' (by rw [UInt32.size]; omega), blocksPerChunk]
      omega
    rw [run, markRange_succ, foldl_append]
    exact (markBlockModified_nchunks (ih ▸ hchunk)).trans ih

/-- A chunk with that many offsets is a bitmap. -/
theorem WellSized.chunkUsage_eq {entry : BlockRefTableEntry} (h : entry.WellSized) {c : ℕ}
    (hall : ∀ o < maxEntriesPerChunk, c * blocksPerChunk + o ∈ entry.blocks) :
    entry.chunkUsage c = maxEntriesPerChunk := by
  by_contra hne
  have hsub : List.range maxEntriesPerChunk ⊆ offsets (entry.chunkUsage c) (entry.chunkData c) := by
    intro o ho
    have ho := mem_range.mp ho
    obtain ⟨hdiv, hmod⟩ := chunk_of_offset c (ho.trans (by decide))
    have hmem := (mem_blocks.mp (hall o ho)).2
    rwa [hdiv, hmod] at hmem
  have hle := (nodup_range.subperm hsub).length_le
  rw [offsets, if_neg hne, length_map, inUse, length_map, length_range,
    length_range] at hle
  exact hne (le_antisymm (h.usage_le_max c) hle)

/-- The sixteenth chunk is the last one and full enough to be a bitmap. A query for all blocks from
there on has room for more than there are, so it reads on behind the bitmap. -/
theorem not_returnsExactly_markRange :
    (run ⟨0, 0, 0, 0⟩ (markRange (15 * blocksPerChunk) maxEntriesPerChunk)).entryGetBlocks
        (15 * blocksPerChunk) invalidBlockNumber.toNat 5000 = none ∧
    ¬ ReturnsExactly
      ((run ⟨0, 0, 0, 0⟩ (markRange (15 * blocksPerChunk) maxEntriesPerChunk)).entryGetBlocks
        (15 * blocksPerChunk) invalidBlockNumber.toNat 5000)
      (Fork.runEach (markRange (15 * blocksPerChunk) maxEntriesPerChunk)).modified
      (15 * blocksPerChunk) invalidBlockNumber.toNat 5000 := by
  let key : BlockRefTableKey := ⟨0, 0, 0, 0⟩
  let ops := markRange (15 * blocksPerChunk) maxEntriesPerChunk
  have hblocks (b : ℕ) : b ∈ (run key ops).blocks ↔
      15 * blocksPerChunk ≤ b ∧ b < 15 * blocksPerChunk + maxEntriesPerChunk :=
    mem_blocks_markRange key (by decide) b
  have hover : (run key ops).Overruns (15 * blocksPerChunk) invalidBlockNumber.toNat := by
    have hnchunks : (run key ops).nchunks = 16 := nchunks_markRange key (n := 4095) (by decide)
    rw [Overruns, hnchunks]
    refine ⟨by decide, by decide, (represents_run key ops).1.wellSized.chunkUsage_eq ?_⟩
    exact fun o ho => (hblocks _).mpr ⟨by omega, by omega⟩
  have hfew :
      ((run key ops).found (15 * blocksPerChunk) invalidBlockNumber.toNat).length ≤ 4096 := by
    have hsub : (run key ops).found (15 * blocksPerChunk) invalidBlockNumber.toNat ⊆
        List.range' (15 * blocksPerChunk) maxEntriesPerChunk := fun b hb =>
      mem_range'_1.mpr ((hblocks b).mp (mem_found.mp hb).1)
    have hle := ((nodup_found (tidy_entry_run key ops)).subperm hsub).length_le
    rwa [length_range'] at hle
  have hnone : (run key ops).entryGetBlocks (15 * blocksPerChunk) invalidBlockNumber.toNat 5000 =
      none := by
    rw [entryGetBlocks_eq, if_neg (by omega), if_pos hover]
  refine ⟨hnone, ?_⟩
  rintro ⟨_, hsome, -⟩
  exact absurd (hnone.symm.trans hsome) (by simp)

end BlockRefTableEntry

end PgCutover.BlkRefTable
