import Mathlib.Data.List.GetD
import PgCutover.IncrBackup.Method

/-!
# Reconstructing a file from a chain of backups

`reconstruct_from_incremental_file` of `pg_combinebackup` looks for each block of a file in the
newest incremental file, then in the older backups, up to the first one that has the whole file.
`chainCopy` is the copy of a block that it finds this way (`reconstructFromIncrementalFile_eq`).
-/

namespace PgCutover.IncrBackup

open Function List

variable {β : Type}

/-- A file in a backup: the blocks of the file, or an incremental file with the numbers of some
blocks, the truncation length and the blocks. -/
inductive BackupFile (β : Type)
  | full (blocks : List β)
  | incremental (relativeBlockNumbers : List ℕ) (truncationBlockLength : ℕ) (blocks : List β)
  deriving DecidableEq, Repr

/-- The errors that end `pg_combinebackup`. -/
inductive CombineError
  /-- `could not open file "%s"` -/
  | couldNotOpen
  /-- `file "%s" has block count %u in excess of segment size %u` -/
  | blockCount (numBlocks : ℕ)
  /-- `file "%s" has truncation block length %u in excess of segment size %u` -/
  | truncationLength (truncationBlockLength : ℕ)
  /-- `could not read from file "%s", offset %llu: read %d of %d` -/
  | couldNotRead (offset : ℕ)
  /-- `full backup contains unexpected incremental file "%s"` -/
  | unexpectedIncrementalFile
  deriving DecidableEq, Repr

/-- For each block of the output file, the file to take it from and the place in that file:
`sourcemap` and `offsetmap`. -/
abbrev SourceMap (β : Type) := ℕ → Option (List β × ℕ)

/-- The checks of `make_incremental_rfile`. -/
def makeIncrementalRfile (relativeBlockNumbers : List ℕ) (truncationBlockLength : ℕ) :
    Except CombineError Unit :=
  if relativeBlockNumbers.length > relsegSize then .error (.blockCount relativeBlockNumbers.length)
  else if truncationBlockLength > relsegSize then .error (.truncationLength truncationBlockLength)
  else .ok ()

/-- `find_reconstructed_block_length`. -/
def findReconstructedBlockLength (relativeBlockNumbers : List ℕ) (truncationBlockLength : ℕ) : ℕ :=
  relativeBlockNumbers.foldl (fun blockLength b => if b ≥ blockLength then b + 1 else blockLength)
    truncationBlockLength

/-- Every block that is present in the newest incremental file is taken from there. -/
def sourceLatest (relativeBlockNumbers : List ℕ) (blocks : List β) : SourceMap β :=
  relativeBlockNumbers.zipIdx.foldl (fun map (b, i) => update map b (some (blocks, i)))
    fun _ => none

/-- Take a block of an older incremental file, if it is needed but not found yet. A full copy is no
longer possible then. -/
def sourceBlock (truncationBlockLength : ℕ) (blocks : List β) (sources : SourceMap β × Bool)
    (block : ℕ × ℕ) : SourceMap β × Bool :=
  if block.1 < truncationBlockLength ∧ (sources.1 block.1).isNone then
    (update sources.1 block.1 (some (blocks, block.2)), false)
  else sources

/-- Take the blocks of an older incremental file that are needed but not found yet. -/
def sourcePrior (truncationBlockLength : ℕ) (relativeBlockNumbers : List ℕ) (blocks : List β)
    (sources : SourceMap β × Bool) : SourceMap β × Bool :=
  relativeBlockNumbers.zipIdx.foldl (sourceBlock truncationBlockLength blocks) sources

/-- Take all blocks from a full file that exist in it and are not found yet. -/
def sourceFull (truncationBlockLength : ℕ) (blocks : List β) (map : SourceMap β) : SourceMap β :=
  fun b =>
    if b < truncationBlockLength ∧ (map b).isNone ∧ b < blocks.length then some (blocks, b)
    else map b

/-- The loop over the prior backups, the newest first: the sources of all blocks, and the full file
that can be copied in its entirety, if there is one. -/
def findSources (truncationBlockLength : ℕ) :
    List (Option (BackupFile β)) → SourceMap β × Bool →
      Except CombineError (SourceMap β × Option (List β))
  | [], _ => .error .unexpectedIncrementalFile
  | none :: _, _ => .error .couldNotOpen
  | some (.full blocks) :: _, (map, fullCopyPossible) =>
    .ok (sourceFull truncationBlockLength blocks map,
      if fullCopyPossible && truncationBlockLength = blocks.length then some blocks else none)
  | some (.incremental relativeBlockNumbers truncation blocks) :: prior, sources =>
    match makeIncrementalRfile relativeBlockNumbers truncation with
    | .error e => .error e
    | .ok () => findSources truncationBlockLength prior
        (sourcePrior truncationBlockLength relativeBlockNumbers blocks sources)

/-- Read a block, or fill it with zeroes when it has no source. -/
def readBlock [Zero β] (map : SourceMap β) (b : ℕ) : Except CombineError β :=
  match map b with
  | none => .ok 0
  | some (blocks, i) =>
    match blocks[i]? with
    | some block => .ok block
    | none => .error (.couldNotRead i)

/-- `write_reconstructed_file`: the blocks one by one, from where the map says. -/
def writeReconstructedFile [Zero β] (blockLength : ℕ) (map : SourceMap β) :
    Except CombineError (List β) :=
  (List.range blockLength).mapM (readBlock map)

/-- `reconstruct_from_incremental_file`, for an incremental file and the prior backups, the newest
first. -/
def reconstructFromIncrementalFile [Zero β] (relativeBlockNumbers : List ℕ)
    (truncationBlockLength : ℕ)
    (blocks : List β) (prior : List (Option (BackupFile β))) : Except CombineError (List β) :=
  match makeIncrementalRfile relativeBlockNumbers truncationBlockLength with
  | .error e => .error e
  | .ok () =>
    let blockLength := findReconstructedBlockLength relativeBlockNumbers truncationBlockLength
    match findSources truncationBlockLength prior
        (sourceLatest relativeBlockNumbers blocks, relativeBlockNumbers.isEmpty) with
    | .error e => .error e
    | .ok (_, some copySource) => .ok copySource
    | .ok (map, none) => writeReconstructedFile blockLength map

/-! ### The sources of blocks -/

section Sources

variable {truncation : ℕ} {numbers : List ℕ} {blocks : List β} {map : SourceMap β}

theorem idxOf?_cons_ne {a b : ℕ} (h : b ≠ a) (numbers : List ℕ) :
    (a :: numbers).idxOf? b = (numbers.idxOf? b).map (· + 1) := by
  simp [List.idxOf?_cons, Ne.symm h]

/-- The sources of blocks in the newest incremental file. -/
theorem sourceLatest_eq (hnodup : numbers.Nodup) (b : ℕ) :
    sourceLatest numbers blocks b = (numbers.idxOf? b).map fun i => (blocks, i) := by
  have hfold : ∀ (k : ℕ) (map : SourceMap β),
      (numbers.zipIdx k).foldl (fun map (b, i) => update map b (some (blocks, i))) map b =
        (numbers.idxOf? b).elim (map b) fun i => some (blocks, k + i) := by
    induction numbers with
    | nil => exact fun _ _ => rfl
    | cons a numbers ih =>
      intro k _
      obtain ⟨ha, hnodup⟩ := nodup_cons.mp hnodup
      rw [zipIdx_cons, foldl_cons, ih hnodup]
      by_cases hab : b = a
      · have hnone : numbers.idxOf? a = none := List.idxOf?_eq_none_iff.mpr ha
        simp [hab, hnone, List.idxOf?_cons]
      · rw [idxOf?_cons_ne hab]
        cases numbers.idxOf? b with
        | none => exact update_of_ne hab _ _
        | some =>
          dsimp only [Option.map_some, Option.elim_some]
          rw [Nat.add_right_comm, Nat.add_assoc]
  rw [sourceLatest, hfold]
  cases numbers.idxOf? b with
  | none => rfl
  | some =>
    dsimp only [Option.map_some, Option.elim_some]
    rw [Nat.zero_add]

/-- The loop over the blocks of an incremental file, from a place in the file on. -/
theorem foldl_sourceBlock (numbers : List ℕ) (k : ℕ) (sources : SourceMap β × Bool) (b : ℕ) :
    ((numbers.zipIdx k).foldl (sourceBlock truncation blocks) sources).1 b =
      if b < truncation ∧ (sources.1 b).isNone then
        (numbers.idxOf? b).map fun i => (blocks, k + i)
      else sources.1 b := by
  induction numbers generalizing k sources with
  | nil =>
    split_ifs with hnone
    · simpa using hnone.2
    · rfl
  | cons a _ ih =>
    rw [zipIdx_cons, foldl_cons, ih, sourceBlock]
    by_cases hab : b = a
    · -- the block is taken from here, unless it is not needed
      rw [hab]
      by_cases hneeded : a < truncation ∧ (sources.1 a).isNone
      · simp [hneeded, List.idxOf?_cons]
      · simp only [hneeded, if_false]
    · have hother : (if a < truncation ∧ (sources.1 a).isNone then
          (update sources.1 a (some (blocks, k)), false) else sources).1 b =
            sources.1 b := by
        split_ifs
        · exact update_of_ne hab _ _
        · rfl
      rw [hother, idxOf?_cons_ne hab, Option.map_map]
      refine if_congr Iff.rfl (congrArg (Option.map · _) ?_) rfl
      funext i
      rw [comp, Nat.add_right_comm, Nat.add_assoc]

/-- The sources of blocks after an older incremental file. -/
theorem sourcePrior_fst (truncation : ℕ) (numbers : List ℕ) (blocks : List β)
    (sources : SourceMap β × Bool) (b : ℕ) :
    (sourcePrior truncation numbers blocks sources).1 b =
      if b < truncation ∧ (sources.1 b).isNone then (numbers.idxOf? b).map fun i => (blocks, i)
      else sources.1 b := by
  rw [sourcePrior, foldl_sourceBlock]
  simp only [Nat.zero_add]

/-- A full copy is possible only when nothing was taken. -/
theorem foldl_sourceBlock_snd (numbers : List ℕ) (k : ℕ) (sources : SourceMap β × Bool)
    (h : ((numbers.zipIdx k).foldl (sourceBlock truncation blocks) sources).2 = true) :
    (numbers.zipIdx k).foldl (sourceBlock truncation blocks) sources = sources := by
  induction numbers generalizing k sources with
  | nil => rfl
  | cons a _ ih =>
    rw [zipIdx_cons, foldl_cons] at h ⊢
    have hsame := ih (k + 1) _ h
    rw [hsame] at h ⊢
    rw [sourceBlock] at h ⊢
    by_cases hneeded : a < truncation ∧ (sources.1 a).isNone
    · rw [if_pos hneeded] at h
      exact absurd h Bool.false_ne_true
    · rw [if_neg hneeded]

end Sources

/-! ### The copies of blocks -/

variable [Zero β]

/-- The newest copy of a block in a chain of backups. -/
def chainCopy : List (Option (BackupFile β)) → ℕ → β
  | some (.full blocks) :: _, b => blocks.getD b 0
  | some (.incremental relativeBlockNumbers _ blocks) :: prior, b =>
    match relativeBlockNumbers.idxOf? b with
    | some i => blocks.getD i 0
    | none => chainCopy prior b
  | _, _ => 0

/-- All files that are needed can be read. -/
def Readable : List (Option (BackupFile β)) → Prop
  | some (.full _) :: _ => True
  | some (.incremental relativeBlockNumbers truncation _) :: prior =>
    relativeBlockNumbers.length ≤ relsegSize ∧ truncation ≤ relsegSize ∧ Readable prior
  | _ => False

/-- The incremental files that are needed have the blocks that they list, each once. -/
def WellFormed : List (Option (BackupFile β)) → Prop
  | some (.incremental relativeBlockNumbers _ blocks) :: prior =>
    relativeBlockNumbers.Nodup ∧ blocks.length = relativeBlockNumbers.length ∧ WellFormed prior
  | _ => True

section Chains

variable {truncation : ℕ} {numbers : List ℕ} {blocks : List β} {map : SourceMap β}
  {prior : List (Option (BackupFile β))}

/-- The contents that a block gets. -/
def sourceValue (map : SourceMap β) (b : ℕ) : β :=
  match map b with
  | none => 0
  | some (blocks, i) => blocks.getD i 0

/-- All sources exist. -/
def Valid (map : SourceMap β) : Prop := ∀ b blocks i, map b = some (blocks, i) → i < blocks.length

theorem readBlock_eq (hvalid : Valid map) (b : ℕ) : readBlock map b = .ok (sourceValue map b) := by
  rw [readBlock, sourceValue]
  cases hmap : map b with
  | none => rfl
  | some source =>
    have hlt := hvalid b source.1 source.2 hmap
    dsimp only
    rw [getD_eq_getElem?_getD, List.getElem?_eq_getElem hlt]
    rfl

theorem writeReconstructedFile_eq (hvalid : Valid map) (blockLength : ℕ) :
    writeReconstructedFile blockLength map =
      .ok ((List.range blockLength).map (sourceValue map)) := by
  have hread : ∀ bs : List ℕ, bs.mapM (readBlock map) = .ok (bs.map (sourceValue map)) := by
    intro bs
    induction bs with
    | nil => rfl
    | cons _ _ ih =>
      rw [mapM_cons, readBlock_eq hvalid, ih]
      rfl
  exact hread _

theorem sourceValue_sourceFull {b : ℕ} (hb : b < truncation) :
    sourceValue (sourceFull truncation blocks map) b =
      if (map b).isNone then blocks.getD b 0 else sourceValue map b := by
  rw [sourceValue, sourceFull, sourceValue]
  cases hmap : map b with
  | none =>
    by_cases hlt : b < blocks.length
    · simp [hb, hlt]
    · rw [getD_eq_default _ _ (Nat.not_lt.mp hlt)]
      simp [hlt]
  | some => simp

/-- The loop over the prior backups finds the newest copy of each block that is not in the newest
incremental file. A full file that is copied in its entirety has the same blocks. -/
theorem findSources_eq (truncation : ℕ) (hwf : WellFormed prior) (hreadable : Readable prior)
    (sources : SourceMap β × Bool) (hvalid : Valid sources.1)
    (hcopy : sources.2 = true → ∀ b, sources.1 b = none) :
    ∃ map copySource, findSources truncation prior sources = .ok (map, copySource) ∧ Valid map ∧
      (∀ b < truncation, sourceValue map b =
        if (sources.1 b).isNone then chainCopy prior b else sourceValue sources.1 b) ∧
      ∀ blocks, copySource = some blocks →
        blocks.length = truncation ∧ ∀ b < truncation, sourceValue map b = blocks.getD b 0 := by
  induction prior generalizing sources with
  | nil => exact hreadable.elim
  | cons file _ ih =>
    match file, hwf, hreadable with
    | some (.full blocks), _, _ =>
      refine ⟨_, _, rfl, fun b source i hsource => ?_, fun b hb => ?_, fun copied hcopied => ?_⟩
      · rw [sourceFull] at hsource
        split_ifs at hsource with hneeded
        · cases hsource
          exact hneeded.2.2
        · exact hvalid b source i hsource
      · rw [sourceValue_sourceFull hb]
        rfl
      · split_ifs at hcopied with hpossible
        · cases hcopied
          simp only [Bool.and_eq_true, decide_eq_true_eq] at hpossible
          refine ⟨hpossible.2.symm, fun b hb => ?_⟩
          rw [sourceValue_sourceFull hb, hcopy hpossible.1 b]
          rfl
    | some (.incremental numbers length blocks), hwf, hreadable =>
      obtain ⟨-, hlength, hwf⟩ := hwf
      obtain ⟨hcount, htruncation, hreadable⟩ := hreadable
      have hrfile : makeIncrementalRfile numbers length = .ok () := by
        rw [makeIncrementalRfile, if_neg (Nat.not_lt.mpr hcount),
          if_neg (Nat.not_lt.mpr htruncation)]
      have hvalid' : Valid (sourcePrior truncation numbers blocks sources).1 := by
        intro b source i hsource
        rw [sourcePrior_fst] at hsource
        split_ifs at hsource
        · obtain ⟨j, hj, heq⟩ := Option.map_eq_some_iff.mp hsource
          cases heq
          rw [hlength]
          exact (List.idxOf?_eq_some_iff.mp hj).1
        · exact hvalid b source i hsource
      have hcopy' : (sourcePrior truncation numbers blocks sources).2 = true →
          ∀ b, (sourcePrior truncation numbers blocks sources).1 b = none := by
        intro hpossible
        have hsame := foldl_sourceBlock_snd numbers 0 sources hpossible
        rw [sourcePrior, hsame] at hpossible ⊢
        exact hcopy hpossible
      obtain ⟨map, copySource, hfind, hmap, hvalue, hcopied⟩ := ih hwf hreadable _ hvalid' hcopy'
      rw [findSources, hrfile]
      refine ⟨map, copySource, hfind, hmap, fun b hb => ?_, hcopied⟩
      have hsource := sourcePrior_fst truncation numbers blocks sources b
      rw [hvalue b hb, chainCopy, sourceValue]
      by_cases hnone : (sources.1 b).isNone
      · rw [if_pos ⟨hb, hnone⟩] at hsource
        rw [hsource, if_pos hnone]
        cases numbers.idxOf? b <;> rfl
      · rw [if_neg fun h => hnone h.2] at hsource
        rw [hsource, if_neg hnone, if_neg hnone]
        rfl

omit [Zero β] in
theorem findSources_of_not_readable (truncation : ℕ) (hreadable : ¬Readable prior)
    (sources : SourceMap β × Bool) :
    ∃ e, findSources truncation prior sources = .error e := by
  induction prior generalizing sources with
  | nil => exact ⟨_, rfl⟩
  | cons file _ ih =>
    match file, hreadable with
    | none, _ => exact ⟨_, rfl⟩
    | some (.full blocks), hreadable => exact absurd trivial hreadable
    | some (.incremental numbers length blocks), hreadable =>
      rw [findSources, makeIncrementalRfile]
      by_cases hcount : numbers.length > relsegSize
      · rw [if_pos hcount]
        exact ⟨_, rfl⟩
      by_cases hlength : length > relsegSize
      · rw [if_neg hcount, if_pos hlength]
        exact ⟨_, rfl⟩
      rw [if_neg hcount, if_neg hlength]
      exact ih (fun hprior => hreadable ⟨Nat.not_lt.mp hcount, Nat.not_lt.mp hlength, hprior⟩) _

theorem le_findReconstructedBlockLength (numbers : List ℕ) (truncation : ℕ) :
    truncation ≤ findReconstructedBlockLength numbers truncation := by
  rw [findReconstructedBlockLength]
  induction numbers generalizing truncation with
  | nil => exact Nat.le_refl _
  | cons _ _ ih =>
    rw [foldl_cons]
    refine Nat.le_trans ?_ (ih _)
    split_ifs <;> omega

theorem reconstructFromIncrementalFile_eq
    (hwf : WellFormed (some (.incremental numbers truncation blocks) :: prior))
    (hreadable : Readable (some (.incremental numbers truncation blocks) :: prior)) :
    ∃ output, reconstructFromIncrementalFile numbers truncation blocks prior = .ok output ∧
      truncation ≤ output.length ∧ ∀ b < truncation, output[b]? =
        some (chainCopy (some (.incremental numbers truncation blocks) :: prior) b) := by
  obtain ⟨hnodup, hlength, hwf⟩ := hwf
  obtain ⟨hcount, htruncation, hreadable⟩ := hreadable
  have hrfile : makeIncrementalRfile numbers truncation = .ok () := by
    rw [makeIncrementalRfile, if_neg (Nat.not_lt.mpr hcount), if_neg (Nat.not_lt.mpr htruncation)]
  obtain ⟨map, copySource, hfind, hvalid, hvalue, hcopied⟩ := findSources_eq truncation hwf
    hreadable (sourceLatest numbers blocks, numbers.isEmpty)
    (fun b source i hsource => by
      dsimp only at hsource
      rw [sourceLatest_eq hnodup] at hsource
      obtain ⟨j, hj, heq⟩ := Option.map_eq_some_iff.mp hsource
      cases heq
      rw [hlength]
      exact (List.idxOf?_eq_some_iff.mp hj).1)
    (fun hempty b => by rw [isEmpty_iff.mp hempty]; rfl)
  have hchain : ∀ b < truncation, sourceValue map b =
      chainCopy (some (.incremental numbers truncation blocks) :: prior) b := by
    intro b hb
    rw [hvalue b hb, chainCopy, sourceValue]
    simp only [sourceLatest_eq hnodup]
    cases numbers.idxOf? b <;> rfl
  rw [reconstructFromIncrementalFile, hrfile]
  rw [hfind]
  cases copySource with
  | some copied =>
    obtain ⟨hlen, hsame⟩ := hcopied copied rfl
    refine ⟨copied, rfl, hlen.ge, fun b hb => ?_⟩
    rw [← hchain b hb, hsame b hb, getD_eq_getElem?_getD,
      List.getElem?_eq_getElem (hlen ▸ hb)]
    rfl
  | none =>
    dsimp only
    rw [writeReconstructedFile_eq hvalid]
    have hle := le_findReconstructedBlockLength numbers truncation
    refine ⟨_, rfl, ?_, fun b hb => ?_⟩
    · rw [length_map, length_range]
      exact hle
    · rw [List.getElem?_map, List.getElem?_range (hb.trans_le hle), Option.map_some, hchain b hb]

theorem reconstructFromIncrementalFile_of_not_readable
    (hreadable : ¬Readable (some (.incremental numbers truncation blocks) :: prior)) :
    ∃ e, reconstructFromIncrementalFile numbers truncation blocks prior = .error e := by
  rw [reconstructFromIncrementalFile, makeIncrementalRfile]
  by_cases hcount : numbers.length > relsegSize
  · rw [if_pos hcount]
    exact ⟨_, rfl⟩
  by_cases hlength : truncation > relsegSize
  · rw [if_neg hcount, if_pos hlength]
    exact ⟨_, rfl⟩
  rw [if_neg hcount, if_neg hlength]
  obtain ⟨e, he⟩ := findSources_of_not_readable truncation
    (fun hprior => hreadable ⟨Nat.not_lt.mp hcount, Nat.not_lt.mp hlength, hprior⟩)
    (sourceLatest numbers blocks, numbers.isEmpty)
  rw [he]
  exact ⟨e, rfl⟩

end Chains

/-!
## The header of an incremental file

The server computes the header of an incremental file, and `pg_combinebackup` reads it.
-/

open BlkRefTable

/-- `GetIncrementalHeaderSize`. -/
def getIncrementalHeaderSize (numBlocksRequired : ℕ) : ℕ :=
  let result := 3 * 4 + 4 * numBlocksRequired
  if numBlocksRequired > 0 ∧ result % blcksz ≠ 0 then result + (blcksz - result % blcksz)
    else result

/-- `header_length` in `make_incremental_rfile`. -/
def headerLength (numBlocks : ℕ) : ℕ :=
  let headerLength := 4 + 4 + 4 + 4 * numBlocks
  if numBlocks > 0 ∧ headerLength % blcksz ≠ 0 then
    headerLength + (blcksz - headerLength % blcksz)
  else headerLength

theorem headerLength_eq (numBlocks : ℕ) :
    headerLength numBlocks = getIncrementalHeaderSize numBlocks :=
  rfl

variable {numbers : List ℕ} {segno size : ℕ}

theorem makeIncrementalRfile_eq_ok_iff {truncation : ℕ} :
    makeIncrementalRfile numbers truncation = .ok () ↔
      numbers.length ≤ relsegSize ∧ truncation ≤ relsegSize := by
  rw [makeIncrementalRfile]
  split_ifs with hcount htruncation
  · exact iff_of_false (by simp) (by omega)
  · exact iff_of_false (by simp) (by omega)
  · exact iff_of_true rfl (by omega)

/-- The fork was truncated, to a length behind the end of the segment. -/
def LimitBehind (limitBlock : UInt32) (segno : ℕ) : Prop :=
  limitBlock ≠ invalidBlockNumber ∧ (segno + 1) * relsegSize < limitBlock.toNat

theorem truncationBlockLength_le_iff {limitBlock : UInt32} (hsize : size / blcksz ≤ relsegSize) :
    truncationBlockLength limitBlock (segno * relsegSize) size ≤ relsegSize ↔
      ¬ LimitBehind limitBlock segno := by
  rw [truncationBlockLength, LimitBehind, relsegSize] at *
  by_cases hvalid : limitBlock = invalidBlockNumber
  · rw [if_neg (not_not.mpr hvalid)]
    exact iff_of_true hsize fun h => h.1 hvalid
  · rw [if_pos hvalid, and_iff_right hvalid]
    dsimp only
    split_ifs <;> omega

/-- What the server tells about an incremental file: the blocks are in order and within the file,
and the reader accepts the header unless the limit block lies behind the segment. -/
structure HeaderSpec (limitBlock : UInt32) (segno size : ℕ) (numbers : List ℕ) (truncation : ℕ) :
    Prop where
  increasing : numbers.Pairwise (· < ·)
  within : ∀ r ∈ numbers, r < size / blcksz
  length_eq : headerLength numbers.length = getIncrementalHeaderSize numbers.length
  accepted_iff : makeIncrementalRfile numbers truncation = .ok () ↔ ¬ LimitBehind limitBlock segno

theorem length_le_of_increasing {bound : ℕ} (h : numbers.Pairwise (· < ·))
    (hlt : ∀ r ∈ numbers, r < bound) : numbers.length ≤ bound := by
  have hnodup : numbers.Nodup := h.imp Nat.ne_of_lt
  have hle := (hnodup.subperm fun r hr => mem_range.mpr (hlt r hr)).length_le
  rwa [length_range] at hle

theorem headerSpec {limitBlock : UInt32}
    (hsize : size / blcksz ≤ relsegSize) (hincreasing : numbers.Pairwise (· < ·))
    (hwithin : ∀ r ∈ numbers, r < size / blcksz) :
    HeaderSpec limitBlock segno size numbers
      (truncationBlockLength limitBlock (segno * relsegSize) size) := by
  refine ⟨hincreasing, hwithin, headerLength_eq _, ?_⟩
  have hcount := (length_le_of_increasing hincreasing hwithin).trans hsize
  rw [makeIncrementalRfile_eq_ok_iff, truncationBlockLength_le_iff hsize, and_iff_right hcount]

/-- What is sent of a relation fork with an entry, whatever the entry. -/
theorem headerSpec_of_entry {entry : BlockRefTableEntry} (htidy : entry.Tidy)
    {truncation : ℕ} (hsize : size / blcksz ≤ relsegSize)
    (h : methodOfEntry entry segno size = .ok (.backUpFileIncrementally numbers truncation)) :
    HeaderSpec entry.limitBlock segno size numbers truncation := by
  rw [methodOfEntry] at h
  dsimp only at h
  split_ifs at h with hcut hoverflow
  · cases h
  -- there was no overflow
  have hstart : segno * relsegSize % 2 ^ 32 = segno * relsegSize := by
    rw [relsegSize] at hoverflow ⊢
    omega
  rw [hstart] at h hoverflow
  have hstop :
      (segno * relsegSize + size / blcksz) % 2 ^ 32 = segno * relsegSize + size / blcksz := by
    rw [relsegSize, blcksz] at hoverflow hsize ⊢
    omega
  have hrange : BlockRefTableEntry.SegmentRange (segno * relsegSize)
      (segno * relsegSize + size / blcksz) := by
    refine ⟨?_, Nat.le_add_right _ _, Nat.add_le_add_left hsize _⟩
    rw [relsegSize, blocksPerChunk]
    omega
  have hget : entry.entryGetBlocks (segno * relsegSize) (segno * relsegSize + size / blcksz)
      relsegSize = some (entry.found (segno * relsegSize) (segno * relsegSize + size / blcksz)) :=
    BlockRefTableEntry.entryGetBlocks_segment htidy hrange
  rw [hstop, hget] at h
  dsimp only at h
  split_ifs at h with hmany
  · cases h
  obtain ⟨rfl, rfl⟩ := FileBackupMethod.backUpFileIncrementally.inj (Except.ok.inj h)
  refine headerSpec hsize ?_ fun r hr => ?_
  · rw [pairwise_map]
    refine ((pairwise_mergeSort' (· ≤ ·) _).and ((mergeSort_perm _ _).nodup_iff.mpr
      (BlockRefTableEntry.nodup_found htidy))).imp_of_mem fun {a b} ha hb hab => ?_
    rw [mem_mergeSort, BlockRefTableEntry.mem_found] at ha hb
    omega
  · obtain ⟨b, hb, rfl⟩ := mem_map.mp hr
    rw [mem_mergeSort, BlockRefTableEntry.mem_found] at hb
    omega

/-- **Headers.** Whatever was recorded, when a file of any segment is sent incrementally, the block
numbers are in order and within the file, the reader and the server agree on the length of the
header, and the reader accepts it exactly when the limit block does not lie behind the segment. -/
theorem getFileBackupMethod_headerSpec (record : List (BlockRefTableKey × EntryOp))
    (inManifest incrementalInManifest : Bool) (key : BlockRefTableKey) (segno size : ℕ)
    {numbers : List ℕ} {truncation : ℕ}
    (h : getFileBackupMethod (.run record) inManifest incrementalInManifest key segno size =
      .ok (.backUpFileIncrementally numbers truncation)) :
    HeaderSpec (Fork.run (opsFor key record)).limitBlock segno size numbers truncation := by
  rcases BlockRefTable.lookup_run record key with ⟨hnil, hnone⟩ | ⟨hne, _, hentry, hrep, htidy⟩
  · rw [getFileBackupMethod, hnone] at h
    split_ifs at h with hsize
    case neg =>
      obtain ⟨rfl, rfl⟩ := FileBackupMethod.backUpFileIncrementally.inj (Except.ok.inj h)
      rw [hnil]
      exact headerSpec (by omega) .nil fun r hr => absurd hr not_mem_nil
    all_goals cases h
  · rw [getFileBackupMethod, hentry] at h
    dsimp only at h
    split_ifs at h with hsize
    case neg =>
      rw [← hrep.limitBlock]
      exact headerSpec_of_entry htidy (by omega) h
    all_goals cases h

/-- A relation that was truncated inside of its second segment and written again. -/
def rewrittenRecord : List (BlockRefTableKey × EntryOp) :=
  [.setLimitBlock 131172, .markBlockModified 131079, .markBlockModified 131077].map
    (⟨1663, 5, 16384, 0⟩, ·)

theorem method_rewritten :
    getFileBackupMethod (.run rewrittenRecord) true false ⟨1663, 5, 16384, 0⟩ 1 163840 =
      .ok (.backUpFileIncrementally [5, 7] 100) := by
  have hsorted : [131079, 131077].mergeSort (· ≤ ·) = [131077, 131079] := by simp [mergeSort]
  obtain ⟨entry, hlookup, hlimit, hblocks⟩ : ∃ entry,
      (BlockRefTable.run rewrittenRecord).lookup ⟨1663, 5, 16384, 0⟩ = some entry ∧
        entry.limitBlock = 131172 ∧
          entry.entryGetBlocks 131072 131092 131072 = some [131079, 131077] :=
    ⟨_, rfl, by decide +kernel, by decide +kernel⟩
  have hdatabase : (BlockRefTable.run rewrittenRecord).lookup
      (databaseKey ⟨1663, 5, 16384, 0⟩) = none := by decide +kernel
  rw [getFileBackupMethod, hdatabase, hlookup]
  simp [methodOfEntry, relsegSize, blcksz, fsmForknum, hlimit, hblocks, hsorted,
    truncationBlockLength, invalidBlockNumber]

/-- Two blocks of the second segment are sent, which has twenty, and the truncation length is that
of the limit. -/
theorem headerSpec_rewritten :
    getFileBackupMethod (.run rewrittenRecord) true false ⟨1663, 5, 16384, 0⟩ 1 163840 =
        .ok (.backUpFileIncrementally [5, 7] 100) ∧
      HeaderSpec (Fork.run (opsFor ⟨1663, 5, 16384, 0⟩ rewrittenRecord)).limitBlock 1 163840
        [5, 7] 100 :=
  ⟨method_rewritten, getFileBackupMethod_headerSpec rewrittenRecord true false
    ⟨1663, 5, 16384, 0⟩ 1 163840 method_rewritten⟩

/-- The relation was truncated to a length in its third segment. The truncation length for the first
segment is more than a segment, and the reader rejects the header. -/
theorem rejected_of_limit_behind :
    getFileBackupMethod (.run [(⟨1663, 5, 16384, 0⟩, .setLimitBlock 262145)]) true false
        ⟨1663, 5, 16384, 0⟩ 0 1073741824 = .ok (.backUpFileIncrementally [] 262145) ∧
      makeIncrementalRfile [] 262145 = .error (.truncationLength 262145) := by
  decide +kernel

/-!
## Chains of backups

A full backup of a segment file is followed by any number of incremental backups, and the file is
reconstructed from the newest one and the chain.
-/

variable {β : Type} [Zero β]

/-- What happens up to an incremental backup. A segment file without blocks may be missing when the
backup is taken. -/
structure Window (β : Type) where
  events : List (Event β)
  missing : Bool

/-- The file is in the manifest under its own name. -/
def BackupFile.isFull {β : Type} : BackupFile β → Bool
  | .full _ => true
  | .incremental _ _ _ => false

namespace SegmentFile

variable (seg : SegmentFile)

/-- The number of blocks of the segment file. -/
def fileLen (rel : Relation β) : ℕ := min relsegSize (rel.len - seg.start)

/-- The blocks of the segment file. -/
def contents (rel : Relation β) : List β :=
  (List.range (seg.fileLen rel)).map fun r => rel.block (seg.start + r)

/-- Whether there is a file for the segment. -/
def hasFile (rel : Relation β) (missing : Bool) : Bool := seg.fileLen rel ≠ 0 || !missing

/-- The file that a method puts into the backup. -/
def sendFile (rel : Relation β) : FileBackupMethod → BackupFile β
  | .backUpFileFully => .full (seg.contents rel)
  | .backUpFileIncrementally relativeBlockNumbers truncationBlockLength =>
    .incremental relativeBlockNumbers truncationBlockLength
      (relativeBlockNumbers.map fun r => rel.block (seg.start + r))

/-- The incremental backup of a segment file, of which the prior backup may have a file. -/
def incrementalBackup (record : List (BlockRefTableKey × EntryOp))
    (prior : Option (BackupFile β)) (rel : Relation β) : Except BackupError (BackupFile β) :=
  (getFileBackupMethod (.run record) (prior.any BackupFile.isFull) (prior.any (!·.isFull)) seg.key
    seg.segno (seg.fileLen rel * blcksz)).map (seg.sendFile rel)

/-- The relation after a full backup and some windows, the newest first, and the files in the
backups, the newest first. -/
def takeBackups (first : Relation β) (missing : Bool) :
    List (Window β) → Except BackupError (Relation β × List (Option (BackupFile β)))
  | [] =>
    .ok (first, [if seg.hasFile first missing then some (.full (seg.contents first)) else none])
  | window :: windows =>
    match takeBackups first missing windows with
    | .error e => .error e
    | .ok (rel, files) =>
      let next := runEvents seg.key rel window.events
      if seg.hasFile next.1 window.missing then
        (seg.incrementalBackup next.2 files.head?.join next.1).map fun file =>
          (next.1, some file :: files)
      else .ok (next.1, none :: files)

/-- The file that is reconstructed has the contents of the segment file. -/
def Restores (rel : Relation β) (relativeBlockNumbers : List ℕ) (truncationBlockLength : ℕ)
    (blocks : List β) (prior : List (Option (BackupFile β))) : Prop :=
  ∃ output, reconstructFromIncrementalFile relativeBlockNumbers truncationBlockLength blocks prior =
      .ok output ∧
    ∀ r < seg.fileLen rel, output[r]? = some (rel.block (seg.start + r))

/-! ### The history of a block -/

variable (first : Relation β) (missing : Bool)

/-- The relation at a backup. -/
def relationAt : List (Window β) → Relation β
  | [] => first
  | window :: windows => (runEvents seg.key (relationAt windows) window.events).1

/-- What is recorded in the newest window. -/
def recordAt (window : Window β) (windows : List (Window β)) : List (BlockRefTableKey × EntryOp) :=
  (runEvents seg.key (seg.relationAt first windows) window.events).2

/-- What is recorded for the relation fork in the newest window. -/
def opsAt (window : Window β) (windows : List (Window β)) : List EntryOp :=
  opsFor seg.key (seg.recordAt first window windows)

/-- Whether a backup has a file for the segment. -/
def presentAt : List (Window β) → Bool
  | [] => seg.hasFile first missing
  | window :: windows => seg.hasFile (seg.relationAt first (window :: windows)) window.missing

/-- The newest backup has the whole file. -/
def WholeAt (window : Window β) (windows : List (Window β)) : Prop :=
  seg.Whole (seg.presentAt first missing windows) (seg.recordAt first window windows)
    (seg.fileLen (seg.relationAt first (window :: windows)))

/-- The newest backup has a copy of a block: it has the whole file, or the block is recorded as
modified and not beyond the end of the relation. -/
def CopiedAt (window : Window β) (windows : List (Window β)) (b : ℕ) : Prop :=
  seg.WholeAt first missing window windows ∨
    b ∈ (Fork.run (seg.opsAt first window windows)).modified ∧
      b < (seg.relationAt first (window :: windows)).len

open Classical in
/-- The newest copy of a block in the backups. -/
noncomputable def lastCopy : List (Window β) → ℕ → β
  | [], b => first.block b
  | window :: windows, b =>
    if seg.CopiedAt first missing window windows b then
      (seg.relationAt first (window :: windows)).block b
    else lastCopy windows b

/-- A block was cut off by a truncation after the newest backup that has a copy of it. -/
def CutSinceCopy : List (Window β) → ℕ → Prop
  | [], _ => False
  | window :: windows, b =>
    ¬seg.CopiedAt first missing window windows b ∧
      (CutOff (seg.opsAt first window windows) b ∨ CutSinceCopy windows b)

/-- In each window since the newest backup with the whole file, the relation was not truncated, or
it was truncated to a length within the segment or below. -/
def LimitsWithin : List (Window β) → Prop
  | [] => True
  | window :: windows =>
    seg.WholeAt first missing window windows ∨
      ¬seg.LimitBeyond (seg.opsAt first window windows) ∧ LimitsWithin windows

end SegmentFile

/-! ### Contents and copies -/

section Copies

variable (seg : SegmentFile) (first : Relation β) (missing : Bool)

/-- A block that was cut off since its newest copy is zero, and any other block is as in its newest
copy. -/
theorem block_eq (windows : List (Window β)) (b : ℕ) :
    (¬seg.CutSinceCopy first missing windows b →
      (seg.relationAt first windows).block b = seg.lastCopy first missing windows b) ∧
    (seg.CutSinceCopy first missing windows b → (seg.relationAt first windows).block b = 0) := by
  induction windows with
  | nil => exact ⟨fun _ => rfl, False.elim⟩
  | cons window windows ih =>
    rw [SegmentFile.lastCopy]
    by_cases hcopied : seg.CopiedAt first missing window windows b
    · rw [if_pos hcopied]
      exact ⟨fun _ => rfl, fun h => absurd hcopied h.1⟩
    rw [if_neg hcopied]
    have htraced : Traced (seg.relationAt first windows)
        (seg.relationAt first (window :: windows)) (seg.opsAt first window windows) b :=
      traced_runEvents seg.key (seg.relationAt first windows) window.events b
    by_cases hmodified : b ∈ (Fork.run (seg.opsAt first window windows)).modified
    · -- a modified block without a copy is beyond the end of the relation
      have hend : (seg.relationAt first (window :: windows)).len ≤ b :=
        Nat.not_lt.mp fun hlt => hcopied (.inr ⟨hmodified, hlt⟩)
      have hcut := htraced.beyond hmodified hend
      exact ⟨fun h => absurd ⟨hcopied, .inl hcut⟩ h,
        fun _ => (seg.relationAt first (window :: windows)).block_eq_zero b hend⟩
    · by_cases hcut : CutOff (seg.opsAt first window windows) b
      · exact ⟨fun h => absurd ⟨hcopied, .inl hcut⟩ h, fun _ => htraced.zero hmodified hcut⟩
      · rw [htraced.unchanged hmodified hcut]
        exact ⟨fun h => ih.1 fun hold => h ⟨hcopied, .inr hold⟩,
          fun h => ih.2 (h.2.resolve_left hcut)⟩

end Copies

/-! ### The files in the backups -/

section Files

variable {seg : SegmentFile} {first : Relation β} {missing : Bool} {windows : List (Window β)}
  {files : List (Option (BackupFile β))}

/-- The files in the backups, in terms of the history. -/
structure ChainSpec (seg : SegmentFile) (first : Relation β) (missing : Bool)
    (windows : List (Window β)) (files : List (Option (BackupFile β))) : Prop where
  wellFormed : WellFormed files
  readable : Readable files ↔ seg.LimitsWithin first missing windows
  copy : ∀ r < relsegSize,
    chainCopy files r = seg.lastCopy first missing windows (seg.start + r)
  covers : ∀ numbers truncation blocks,
    files.head?.join = some (.incremental numbers truncation blocks) →
      seg.fileLen (seg.relationAt first windows) ≤ truncation

theorem SegmentFile.fileLen_le (seg : SegmentFile) (rel : Relation β) :
    seg.fileLen rel ≤ relsegSize := min_le_left _ _

theorem SegmentFile.lt_fileLen_iff {rel : Relation β} {r : ℕ} (hr : r < relsegSize) :
    r < seg.fileLen rel ↔ seg.start + r < rel.len := by
  rw [fileLen]
  omega

/-- Beyond the end of the file there are only zeroes. -/
theorem SegmentFile.getD_contents (rel : Relation β) {r : ℕ} (hr : r < relsegSize) :
    (seg.contents rel).getD r 0 = rel.block (seg.start + r) := by
  rw [contents, List.getD_eq_getElem?_getD]
  by_cases hlt : r < seg.fileLen rel
  · rw [List.getElem?_map, List.getElem?_range hlt]
    rfl
  · have hend : rel.len ≤ seg.start + r :=
      Nat.not_lt.mp fun h => hlt ((SegmentFile.lt_fileLen_iff hr).mpr h)
    rw [List.getElem?_eq_none (by simpa using Nat.not_lt.mp hlt), rel.block_eq_zero _ hend]
    rfl

theorem chainSpec_first (h : seg.hasFile first missing = true) :
    ChainSpec seg first missing []
      [if seg.hasFile first missing then some (.full (seg.contents first)) else none] := by
  rw [if_pos h]
  exact ⟨trivial, Iff.rfl, fun r hr => SegmentFile.getD_contents first hr, by simp⟩

theorem chainSpec_whole {window : Window β} (hwhole : seg.WholeAt first missing window windows) :
    ChainSpec seg first missing (window :: windows)
      (some (.full (seg.contents (seg.relationAt first (window :: windows)))) :: files) := by
  refine ⟨trivial, iff_of_true trivial (.inl hwhole), fun r hr => ?_, by simp⟩
  have hcopied : seg.CopiedAt first missing window windows (seg.start + r) := .inl hwhole
  rw [SegmentFile.lastCopy, if_pos hcopied]
  exact SegmentFile.getD_contents _ hr

theorem chainSpec_incremental (h : ChainSpec seg first missing windows files) {window : Window β}
    (hwhole : ¬seg.WholeAt first missing window windows) {numbers : List ℕ} {truncation : ℕ}
    (hspec : IncrementalSpec seg (seg.opsAt first window windows)
      (seg.fileLen (seg.relationAt first (window :: windows))) numbers truncation) :
    ChainSpec seg first missing (window :: windows)
      (some (.incremental numbers truncation
        (numbers.map fun r => (seg.relationAt first (window :: windows)).block (seg.start + r))) ::
          files) := by
  have hlength : numbers.length ≤ relsegSize := by
    have hsub : numbers ⊆ List.range (seg.fileLen (seg.relationAt first (window :: windows))) :=
      fun r hr => List.mem_range.mpr ((hspec.mem_iff r).mp hr).1
    have hle := (hspec.nodup.subperm hsub).length_le
    rw [List.length_range] at hle
    exact hle.trans (seg.fileLen_le _)
  refine ⟨⟨hspec.nodup, List.length_map _, h.wellFormed⟩, ?_, fun r hr => ?_, ?_⟩
  · have htruncation : truncation ≤ relsegSize ↔
        ¬seg.LimitBeyond (seg.opsAt first window windows) := by
      rw [← hspec.gt_iff, Nat.not_lt]
    rw [Readable, SegmentFile.LimitsWithin, htruncation, h.readable]
    simp only [hlength, hwhole, true_and, false_or]
  · have hcopied : seg.CopiedAt first missing window windows (seg.start + r) ↔ r ∈ numbers := by
      rw [SegmentFile.CopiedAt, hspec.mem_iff, SegmentFile.lt_fileLen_iff hr]
      simp only [hwhole, false_or]
      exact and_comm
    rw [chainCopy, SegmentFile.lastCopy]
    cases hidx : numbers.idxOf? r with
    | none =>
      rw [if_neg fun hc => List.idxOf?_eq_none_iff.mp hidx (hcopied.mp hc)]
      exact h.copy r hr
    | some =>
      obtain ⟨hi, hget, -⟩ := List.idxOf?_eq_some_iff.mp hidx
      rw [if_pos (hcopied.mpr (hget ▸ List.getElem_mem hi))]
      dsimp only
      rw [List.getD_eq_getElem?_getD, List.getElem?_map, List.getElem?_eq_getElem hi, hget]
      rfl
  · rintro _ _ _ ⟨⟩
    exact hspec.le

theorem SegmentFile.start_add_fileLen_lt (seg : SegmentFile) (rel : Relation β) :
    seg.start + seg.fileLen rel < 2 ^ 32 := by
  have hlen := rel.len_lt
  have hstart := seg.start_lt
  rw [fileLen]
  rw [relsegSize] at *
  omega

/-- An incremental backup sends the whole file, or an incremental file with what is modified. -/
theorem incrementalBackup_eq (window : Window β) {prior : Option (BackupFile β)}
    (hprior : prior.isSome = seg.presentAt first missing windows) :
    (seg.WholeAt first missing window windows →
      seg.incrementalBackup (seg.recordAt first window windows) prior
        (seg.relationAt first (window :: windows)) =
          .ok (.full (seg.contents (seg.relationAt first (window :: windows))))) ∧
    (¬seg.WholeAt first missing window windows → ∃ numbers truncation,
      seg.incrementalBackup (seg.recordAt first window windows) prior
        (seg.relationAt first (window :: windows)) =
          .ok (.incremental numbers truncation (numbers.map fun r =>
            (seg.relationAt first (window :: windows)).block (seg.start + r))) ∧
      IncrementalSpec seg (seg.opsAt first window windows)
        (seg.fileLen (seg.relationAt first (window :: windows))) numbers truncation) := by
  obtain ⟨hfull, hincremental⟩ := getFileBackupMethod_eq seg (prior.any BackupFile.isFull)
    (prior.any (!·.isFull)) (seg.recordAt first window windows)
    (seg.fileLen_le (seg.relationAt first (window :: windows)))
    (seg.start_add_fileLen_lt (seg.relationAt first (window :: windows)))
    (fun n hn => ne_invalid_of_truncated seg.key (seg.relationAt first windows) window.events hn)
  have hmanifest : (prior.any BackupFile.isFull || prior.any (!·.isFull)) =
      seg.presentAt first missing windows := by
    rw [← hprior]
    cases prior with
    | none => rfl
    | some file => cases file <;> rfl
  rw [hmanifest] at hfull hincremental
  rw [SegmentFile.incrementalBackup]
  constructor
  all_goals intro hwhole
  · rw [hfull hwhole]
    rfl
  · obtain ⟨numbers, truncation, hmethod, hspec⟩ := hincremental hwhole
    rw [hmethod]
    exact ⟨numbers, truncation, rfl, hspec⟩

theorem takeBackups_eq (seg : SegmentFile) (first : Relation β) (missing : Bool)
    (windows : List (Window β)) :
    ∃ files, seg.takeBackups first missing windows = .ok (seg.relationAt first windows, files) ∧
      files.head?.join.isSome = seg.presentAt first missing windows ∧
      (seg.presentAt first missing windows = true → ChainSpec seg first missing windows files) := by
  induction windows with
  | nil =>
    refine ⟨_, rfl, ?_, chainSpec_first⟩
    rw [SegmentFile.presentAt]
    cases seg.hasFile first missing <;> rfl
  | cons window windows ih =>
    obtain ⟨files, htake, hhead, hspec⟩ := ih
    obtain ⟨hfull, hincremental⟩ := incrementalBackup_eq window hhead
    rw [SegmentFile.takeBackups, htake]
    change ∃ files', (if seg.hasFile (seg.relationAt first (window :: windows)) window.missing then
      (seg.incrementalBackup (seg.recordAt first window windows) files.head?.join
        (seg.relationAt first (window :: windows))).map _ else .ok (_, none :: files)) = _ ∧ _
    by_cases hfile : seg.hasFile (seg.relationAt first (window :: windows)) window.missing = true
    · have hpresent : seg.presentAt first missing (window :: windows) = true := hfile
      rw [if_pos hfile, hpresent]
      by_cases hwhole : seg.WholeAt first missing window windows
      · rw [hfull hwhole]
        exact ⟨_, rfl, rfl, fun _ => chainSpec_whole hwhole⟩
      · -- the prior backup has the file, or this one would have the whole of it
        have hprior : seg.presentAt first missing windows = true := by
          by_contra hnot
          exact hwhole (.inr (.inl ((Bool.not_eq_true _).mp hnot)))
        obtain ⟨_, _, hbackup, hnumbers⟩ := hincremental hwhole
        rw [hbackup]
        exact ⟨_, rfl, rfl, fun _ => chainSpec_incremental (hspec hprior) hwhole hnumbers⟩
    · have hpresent : seg.presentAt first missing (window :: windows) = false :=
        (Bool.not_eq_true _).mp hfile
      rw [if_neg hfile, hpresent]
      exact ⟨_, rfl, rfl, fun h => absurd h Bool.false_ne_true⟩

theorem takeBackups_of_files
    (h : (seg.takeBackups first missing windows).map Prod.snd = .ok files) :
    seg.takeBackups first missing windows = .ok (seg.relationAt first windows, files) := by
  obtain ⟨_, htake, -⟩ := takeBackups_eq seg first missing windows
  rw [htake] at h ⊢
  cases h
  rfl

end Files

/-- A segment file is restored from its newest incremental file and the chain of backups exactly
when no truncation length is too large, and each block of the file that was cut off by a truncation
since its newest copy is zero in that copy. -/
theorem restores_iff (seg : SegmentFile) (first : Relation β) (missing : Bool)
    (windows : List (Window β)) {rel : Relation β} {numbers : List ℕ} {truncation : ℕ}
    {blocks : List β} {prior : List (Option (BackupFile β))}
    (h : seg.takeBackups first missing windows =
      .ok (rel, some (.incremental numbers truncation blocks) :: prior)) :
    seg.Restores rel numbers truncation blocks prior ↔
      seg.LimitsWithin first missing windows ∧
        ∀ b, seg.start ≤ b → b < seg.start + seg.fileLen rel →
          seg.CutSinceCopy first missing windows b → seg.lastCopy first missing windows b = 0 := by
  obtain ⟨files, htake, hhead, hspec⟩ := takeBackups_eq seg first missing windows
  rw [h] at htake
  obtain ⟨rfl, rfl⟩ : rel = seg.relationAt first windows ∧
      some (BackupFile.incremental numbers truncation blocks) :: prior = files := by
    simpa using htake
  have hchain := hspec (hhead.symm.trans rfl)
  have hcovers := hchain.covers _ _ _ rfl
  -- a block is restored when its newest copy has its contents
  have hblock : ∀ r < seg.fileLen (seg.relationAt first windows),
      chainCopy (some (.incremental numbers truncation blocks) :: prior) r =
          (seg.relationAt first windows).block (seg.start + r) ↔
        (seg.CutSinceCopy first missing windows (seg.start + r) →
          seg.lastCopy first missing windows (seg.start + r) = 0) := by
    intro r hr
    obtain ⟨hsame, hzero⟩ := block_eq seg first missing windows (seg.start + r)
    rw [hchain.copy r (hr.trans_le (seg.fileLen_le _))]
    by_cases hcut : seg.CutSinceCopy first missing windows (seg.start + r)
    · rw [hzero hcut]
      exact (imp_iff_right hcut).symm
    · exact iff_of_true (hsame hcut).symm fun h => absurd h hcut
  rw [← hchain.readable]
  constructor
  · rintro ⟨output, houtput, hcontents⟩
    by_cases hreadable : Readable (some (.incremental numbers truncation blocks) :: prior)
    · obtain ⟨output', houtput', -, hcopies⟩ :=
        reconstructFromIncrementalFile_eq hchain.wellFormed hreadable
      obtain rfl : output = output' := Except.ok.inj (houtput.symm.trans houtput')
      refine ⟨hreadable, fun b hstart hend => ?_⟩
      obtain ⟨r, rfl⟩ := Nat.exists_eq_add_of_le hstart
      have hr : r < seg.fileLen (seg.relationAt first windows) := by omega
      refine (hblock r hr).mp (Option.some.inj ?_)
      rw [← hcopies r (hr.trans_le hcovers), hcontents r hr]
    · obtain ⟨e, he⟩ := reconstructFromIncrementalFile_of_not_readable hreadable
      rw [he] at houtput
      cases houtput
  · rintro ⟨hreadable, hzero⟩
    obtain ⟨output, houtput, -, hcopies⟩ :=
      reconstructFromIncrementalFile_eq hchain.wellFormed hreadable
    refine ⟨output, houtput, fun r hr => ?_⟩
    rw [hcopies r (hr.trans_le hcovers),
      (hblock r hr).mpr (hzero _ (Nat.le_add_right _ _) (Nat.add_lt_add_left hr _))]

/-- The first segment of the main fork of a relation. -/
def firstSegment : SegmentFile := ⟨⟨1663, 5, 16384, 0⟩, 0, by decide, by decide⟩

/-- A relation of two blocks that are not zero. -/
def twoBlocks : Relation ℕ where
  len := 2
  block b := if b < 2 then b + 7 else 0
  len_lt := by decide
  block_eq_zero _ hb := if_neg (Nat.not_lt.mpr hb)

/-- The relation is truncated to one block, and the second block is written anew. -/
def truncatedAndWritten : List (Window ℕ) := [⟨[.truncate 1, .write 1 9], false⟩]

/-- A history that meets the condition, as the restored file shows. -/
theorem restores_iff_written :
    ∃ rel, firstSegment.takeBackups twoBlocks false truncatedAndWritten =
        .ok (rel, [some (.incremental [1] 2 [9]), some (.full [7, 8])]) ∧
      firstSegment.LimitsWithin twoBlocks false truncatedAndWritten ∧
        ∀ b, firstSegment.start ≤ b → b < firstSegment.start + firstSegment.fileLen rel →
          firstSegment.CutSinceCopy twoBlocks false truncatedAndWritten b →
            firstSegment.lastCopy twoBlocks false truncatedAndWritten b = 0 := by
  have htake : firstSegment.takeBackups twoBlocks false truncatedAndWritten = .ok
      (firstSegment.relationAt twoBlocks truncatedAndWritten,
        [some (.incremental [1] 2 [9]), some (.full [7, 8])]) :=
    takeBackups_of_files (by decide +kernel)
  refine ⟨_, htake, (restores_iff _ _ _ _ htake).mp ⟨[7, 9], by decide +kernel, ?_⟩⟩
  decide +kernel

/-- The relation is truncated to one block and extended again by a block of zeroes. The truncation
length is the length of the file, so the old contents of the second block are taken from the full
backup. -/
theorem not_restores_cut_off :
    ∃ rel, firstSegment.takeBackups twoBlocks false [⟨[.truncate 1, .extend 1], false⟩] =
        .ok (rel, [some (.incremental [] 2 []), some (.full [7, 8])]) ∧
      ¬firstSegment.Restores rel [] 2 [] [some (.full [7, 8])] := by
  refine ⟨_, takeBackups_of_files (by decide +kernel), ?_⟩
  rintro ⟨output, houtput, hcontents⟩
  have hold : reconstructFromIncrementalFile [] 2 [] [some (.full [7, 8])] = .ok [7, 8] := by
    decide +kernel
  obtain rfl : output = [7, 8] := Except.ok.inj (houtput.symm.trans hold)
  have hzero := hcontents 1 (by decide +kernel)
  revert hzero
  decide +kernel

end PgCutover.IncrBackup
