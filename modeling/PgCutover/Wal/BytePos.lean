import PgCutover.Lib.PagedStream
import PgCutover.Wal.RecPtr

/-!
# Byte positions

The space of the write-ahead log is reserved in usable bytes, which leave out the page headers: a
long one on the first page of a segment, a short one on the others.
-/

namespace PgCutover.Wal

open Lib

/-- The size of the header of a page. -/
def sizeOfXLogShortPHD : ℕ := 24

/-- The size of the header of the first page of a segment. -/
def sizeOfXLogLongPHD : ℕ := 40

/-- `MAXALIGN`. -/
def maxAlign (len : ℕ) : ℕ := (len + 7) / 8 * 8

/-- The sizes of pages and of segments. -/
structure WalLayout where
  xlogBlcksz : ℕ
  walSegmentSize : ℕ
  maxAlign_dvd : 8 ∣ xlogBlcksz
  longPHD_lt : sizeOfXLogLongPHD < xlogBlcksz
  blcksz_dvd : xlogBlcksz ∣ walSegmentSize
  segmentSize_pos : 0 < walSegmentSize

namespace WalLayout

variable (L : WalLayout)

/-- `UsableBytesInPage`. -/
def usableBytesInPage : ℕ := L.xlogBlcksz - sizeOfXLogShortPHD

/-- `UsableBytesInSegment`. -/
def usableBytesInSegment : ℕ :=
  L.walSegmentSize / L.xlogBlcksz * L.usableBytesInPage - (sizeOfXLogLongPHD - sizeOfXLogShortPHD)

/-- `XLogSegmentOffset`. -/
def xLogSegmentOffset (ptr : ℕ) : ℕ := ptr % L.walSegmentSize

/-- `INSERT_FREESPACE`. -/
def insertFreespace (endptr : ℕ) : ℕ :=
  if endptr % L.xlogBlcksz = 0 then 0 else L.xlogBlcksz - endptr % L.xlogBlcksz

/-- `XLogBytePosToRecPtr`. -/
def xLogBytePosToRecPtr (bytepos : ℕ) : ℕ :=
  let fullsegs := bytepos / L.usableBytesInSegment
  let bytesleft := bytepos % L.usableBytesInSegment
  let segOffset :=
    if bytesleft < L.xlogBlcksz - sizeOfXLogLongPHD then
      -- fits on the first page of the segment
      bytesleft + sizeOfXLogLongPHD
    else
      let bytesleft := bytesleft - (L.xlogBlcksz - sizeOfXLogLongPHD)
      let fullpages := bytesleft / L.usableBytesInPage
      let bytesleft := bytesleft % L.usableBytesInPage
      L.xlogBlcksz + (fullpages * L.xlogBlcksz + bytesleft + sizeOfXLogShortPHD)
  fullsegs * L.walSegmentSize + segOffset

/-- `XLogBytePosToEndRecPtr`. -/
def xLogBytePosToEndRecPtr (bytepos : ℕ) : ℕ :=
  let fullsegs := bytepos / L.usableBytesInSegment
  let bytesleft := bytepos % L.usableBytesInSegment
  let segOffset :=
    if bytesleft < L.xlogBlcksz - sizeOfXLogLongPHD then
      if bytesleft = 0 then 0 else bytesleft + sizeOfXLogLongPHD
    else
      let bytesleft := bytesleft - (L.xlogBlcksz - sizeOfXLogLongPHD)
      let fullpages := bytesleft / L.usableBytesInPage
      let bytesleft := bytesleft % L.usableBytesInPage
      L.xlogBlcksz +
        if bytesleft = 0 then fullpages * L.xlogBlcksz + bytesleft
        else fullpages * L.xlogBlcksz + bytesleft + sizeOfXLogShortPHD
  fullsegs * L.walSegmentSize + segOffset

/-- `XLogRecPtrToBytePos`. -/
def xLogRecPtrToBytePos (ptr : ℕ) : ℕ :=
  let fullsegs := xlByteToSeg L.walSegmentSize ptr
  let fullpages := L.xLogSegmentOffset ptr / L.xlogBlcksz
  let offset := ptr % L.xlogBlcksz
  if fullpages = 0 then
    let result := fullsegs * L.usableBytesInSegment
    if offset > 0 then result + offset - sizeOfXLogLongPHD else result
  else
    let result := fullsegs * L.usableBytesInSegment + (L.xlogBlcksz - sizeOfXLogLongPHD) +
      (fullpages - 1) * L.usableBytesInPage
    if offset > 0 then result + offset - sizeOfXLogShortPHD else result

/-! ### The pages of the log -/

/-- The pages of a segment. -/
def segPages : ℕ := L.walSegmentSize / L.xlogBlcksz

theorem blcksz_pos : 0 < L.xlogBlcksz := Nat.zero_lt_of_lt L.longPHD_lt

theorem segPages_mul : L.segPages * L.xlogBlcksz = L.walSegmentSize :=
  Nat.div_mul_cancel L.blcksz_dvd

theorem segPages_pos : 0 < L.segPages :=
  Nat.div_pos (Nat.le_of_dvd L.segmentSize_pos L.blcksz_dvd) L.blcksz_pos

/-- The header of a page, by the number of the page. -/
def pageHeaderSize (p : ℕ) : ℕ :=
  if p % L.segPages = 0 then sizeOfXLogLongPHD else sizeOfXLogShortPHD

/-- The usable bytes as a stream on the pages of the log. -/
def paging : Paging where
  pageSize := L.xlogBlcksz
  hdr := L.pageHeaderSize
  hdr_pos p := by
    rw [pageHeaderSize]
    split_ifs
    · exact Nat.succ_pos 39
    · exact Nat.succ_pos 23
  hdr_lt p := by
    have hlt := L.longPHD_lt
    rw [pageHeaderSize]
    split_ifs
    · exact hlt
    · rw [sizeOfXLogLongPHD] at hlt
      rw [sizeOfXLogShortPHD]
      omega

variable {L}

theorem segment_mod {s i : ℕ} (hi : i < L.segPages) : (s * L.segPages + i) % L.segPages = i :=
  Nat.mul_add_mod_of_lt hi

/-- The first page of a segment has the long header. -/
theorem hdr_first (s : ℕ) : L.paging.hdr (s * L.segPages) = sizeOfXLogLongPHD := by
  show L.pageHeaderSize _ = _
  rw [pageHeaderSize, Nat.mul_mod_left, if_pos rfl]

/-- The other pages of a segment have the short header. -/
theorem hdr_later {s i : ℕ} (hi : i + 1 < L.segPages) :
    L.paging.hdr (s * L.segPages + (i + 1)) = sizeOfXLogShortPHD := by
  show L.pageHeaderSize _ = _
  rw [pageHeaderSize, segment_mod hi, if_neg (Nat.succ_ne_zero i)]

/-- The usable bytes before a page of a segment. -/
theorem before_later {s i : ℕ} (hi : i < L.segPages) :
    L.paging.before (s * L.segPages + (i + 1)) =
      L.paging.before (s * L.segPages) + (L.xlogBlcksz - sizeOfXLogLongPHD) +
        i * L.usableBytesInPage := by
  induction i with
  | zero =>
    have hbefore : L.paging.before (s * L.segPages + 1) =
        L.paging.before (s * L.segPages) + (L.xlogBlcksz - L.paging.hdr (s * L.segPages)) := rfl
    rw [hbefore, hdr_first, Nat.zero_mul, Nat.add_zero]
  | succ i ih =>
    have hbefore : L.paging.before (s * L.segPages + (i + 1 + 1)) =
        L.paging.before (s * L.segPages + (i + 1)) +
          (L.xlogBlcksz - L.paging.hdr (s * L.segPages + (i + 1))) := rfl
    rw [hbefore, ih (Nat.lt_of_succ_lt hi), hdr_later hi, Nat.succ_mul, ← Nat.add_assoc]
    rfl

/-- The usable bytes of a segment, page by page. -/
theorem usableBytesInSegment_eq :
    L.usableBytesInSegment =
      (L.xlogBlcksz - sizeOfXLogLongPHD) + (L.segPages - 1) * L.usableBytesInPage := by
  have hlt := L.longPHD_lt
  obtain ⟨m, hm⟩ := Nat.exists_eq_add_of_lt L.segPages_pos
  have hpages : L.walSegmentSize / L.xlogBlcksz = m + 1 := by
    rw [← Nat.zero_add m]
    exact hm
  rw [usableBytesInSegment, hpages, hm, Nat.zero_add, Nat.add_sub_cancel, Nat.succ_mul,
    usableBytesInPage]
  rw [sizeOfXLogLongPHD] at *
  rw [sizeOfXLogShortPHD]
  omega

theorem usableBytesInSegment_pos : 0 < L.usableBytesInSegment := by
  have hlt := L.longPHD_lt
  rw [usableBytesInSegment_eq]
  omega

/-- The usable bytes before a segment. -/
theorem before_first (s : ℕ) : L.paging.before (s * L.segPages) = s * L.usableBytesInSegment := by
  induction s with
  | zero => rw [Nat.zero_mul, Nat.zero_mul]; rfl
  | succ s ih =>
    have hpos := L.segPages_pos
    have hlast := before_later (s := s) (Nat.sub_lt hpos Nat.one_pos)
    rw [Nat.sub_add_cancel hpos, ← Nat.succ_mul, ih, Nat.add_assoc, ← usableBytesInSegment_eq,
      ← Nat.succ_mul] at hlast
    exact hlast

/-- The first usable bytes of a segment are on its first page. -/
theorem onPage_first {s left : ℕ} (hleft : left < L.xlogBlcksz - sizeOfXLogLongPHD) :
    L.paging.OnPage (s * L.segPages) (s * L.usableBytesInSegment + left) := by
  have hlater := before_later (s := s) L.segPages_pos
  rw [Nat.zero_mul, before_first] at hlater
  refine ⟨?_, ?_⟩
  · rw [before_first]
    exact Nat.le_add_right _ _
  · rw [hlater]
    exact Nat.add_lt_add_left hleft _

/-- The page that is computed lies in the segment. -/
theorem page_lt {left : ℕ} (hleft : left < L.usableBytesInSegment)
    (hfirst : ¬ left < L.xlogBlcksz - sizeOfXLogLongPHD) :
    (left - (L.xlogBlcksz - sizeOfXLogLongPHD)) / L.usableBytesInPage + 1 < L.segPages := by
  rw [usableBytesInSegment_eq] at hleft
  have hlt : left - (L.xlogBlcksz - sizeOfXLogLongPHD) <
      (L.segPages - 1) * L.usableBytesInPage := by omega
  have hdiv : (left - (L.xlogBlcksz - sizeOfXLogLongPHD)) / L.usableBytesInPage <
      L.segPages - 1 := Nat.div_lt_of_lt_mul (by rwa [Nat.mul_comm])
  exact Nat.add_lt_of_lt_sub hdiv

theorem usableBytesInPage_pos : 0 < L.usableBytesInPage := by
  have hlt := L.longPHD_lt
  rw [sizeOfXLogLongPHD] at hlt
  rw [usableBytesInPage, sizeOfXLogShortPHD]
  omega

/-- The other usable bytes are on the page that is computed. -/
theorem onPage_later {bytepos : ℕ}
    (hfirst : ¬ bytepos % L.usableBytesInSegment < L.xlogBlcksz - sizeOfXLogLongPHD) :
    let page := bytepos / L.usableBytesInSegment * L.segPages +
      ((bytepos % L.usableBytesInSegment - (L.xlogBlcksz - sizeOfXLogLongPHD)) /
        L.usableBytesInPage + 1)
    L.paging.OnPage page bytepos ∧
      L.paging.before page + (bytepos % L.usableBytesInSegment -
        (L.xlogBlcksz - sizeOfXLogLongPHD)) % L.usableBytesInPage = bytepos := by
  intro page
  have hpage := page_lt (Nat.mod_lt bytepos usableBytesInSegment_pos) hfirst
  have hseg := Nat.div_add_mod' bytepos L.usableBytesInSegment
  have hleft := Nat.div_add_mod' (bytepos % L.usableBytesInSegment -
    (L.xlogBlcksz - sizeOfXLogLongPHD)) L.usableBytesInPage
  have hlt := Nat.mod_lt (bytepos % L.usableBytesInSegment -
    (L.xlogBlcksz - sizeOfXLogLongPHD)) (usableBytesInPage_pos (L := L))
  have hbefore : L.paging.before page = _ := before_later (Nat.lt_of_succ_lt hpage)
  have hnext : L.paging.before (page + 1) = _ := before_later hpage
  rw [before_first] at hbefore hnext
  rw [Nat.succ_mul] at hnext
  exact ⟨⟨by omega, by omega⟩, by omega⟩

/-- `XLogBytePosToRecPtr` gives the place of a usable byte. -/
theorem storedAt_recPtr (bytepos : ℕ) :
    L.paging.StoredAt bytepos (L.xLogBytePosToRecPtr bytepos) := by
  rw [xLogBytePosToRecPtr]
  dsimp only
  split_ifs with hfirst
  · have hpage := onPage_first (s := bytepos / L.usableBytesInSegment) hfirst
    rw [Nat.div_add_mod'] at hpage
    refine ⟨_, hpage, ?_⟩
    have hseg := Nat.div_add_mod' bytepos L.usableBytesInSegment
    rw [hdr_first, before_first, ← segPages_mul, ← Nat.mul_assoc]
    show _ = _ * L.xlogBlcksz + _ + _
    omega
  · have hpage := page_lt (Nat.mod_lt bytepos usableBytesInSegment_pos) hfirst
    obtain ⟨hon, hsplit⟩ := onPage_later hfirst
    refine ⟨_, hon, ?_⟩
    rw [hdr_later hpage, ← segPages_mul, ← Nat.mul_assoc]
    show _ = _ * L.xlogBlcksz + _ + _
    rw [Nat.add_mul, Nat.succ_mul]
    omega

/-- `XLogBytePosToEndRecPtr` gives the end of the bytes before. -/
theorem endsAt_endRecPtr (bytepos : ℕ) :
    L.paging.EndsAt bytepos (L.xLogBytePosToEndRecPtr bytepos) := by
  rw [xLogBytePosToEndRecPtr]
  dsimp only
  by_cases hfirst : bytepos % L.usableBytesInSegment < L.xlogBlcksz - sizeOfXLogLongPHD
  · have hpage := onPage_first (s := bytepos / L.usableBytesInSegment) hfirst
    rw [Nat.div_add_mod'] at hpage
    refine ⟨_, hpage, ?_⟩
    have hseg := Nat.div_add_mod' bytepos L.usableBytesInSegment
    rw [if_pos hfirst, hdr_first, before_first, ← segPages_mul, ← Nat.mul_assoc]
    show _ = _ * L.xlogBlcksz + _
    split_ifs <;> omega
  · have hpage := page_lt (Nat.mod_lt bytepos usableBytesInSegment_pos) hfirst
    obtain ⟨hon, hsplit⟩ := onPage_later hfirst
    refine ⟨_, hon, ?_⟩
    rw [hdr_later hpage, ← segPages_mul, ← Nat.mul_assoc]
    show _ = _ * L.xlogBlcksz + _
    rw [Nat.add_mul, Nat.succ_mul]
    split_ifs <;> omega

/-- Between the page header and the end of the page, or before the header. -/
def PlacedOnPage (L : WalLayout) (ptr : ℕ) : Prop :=
  ptr % L.xlogBlcksz = 0 ∨ L.pageHeaderSize (ptr / L.xlogBlcksz) ≤ ptr % L.xlogBlcksz

/-- `XLogRecPtrToBytePos` gives the number of a byte on a page. -/
theorem xLogRecPtrToBytePos_eq {ptr : ℕ} (h : L.PlacedOnPage ptr) :
    L.xLogRecPtrToBytePos ptr = L.paging.position ptr := by
  have hsegment : ptr / L.xlogBlcksz =
      ptr / L.walSegmentSize * L.segPages + ptr % L.walSegmentSize / L.xlogBlcksz := by
    conv_lhs => rw [← Nat.div_add_mod' ptr L.walSegmentSize, ← segPages_mul, ← Nat.mul_assoc]
    rw [Nat.mul_comm (_ * L.segPages), Nat.mul_add_div L.blcksz_pos, segPages_mul]
  have hpage : ptr % L.walSegmentSize / L.xlogBlcksz < L.segPages := by
    apply Nat.div_lt_of_lt_mul
    rw [Nat.mul_comm, segPages_mul]
    exact Nat.mod_lt _ L.segmentSize_pos
  rw [PlacedOnPage] at h
  show _ = L.paging.before (ptr / L.xlogBlcksz) +
    (ptr % L.xlogBlcksz - L.pageHeaderSize (ptr / L.xlogBlcksz))
  rw [hsegment] at h ⊢
  rw [xLogRecPtrToBytePos, xLogSegmentOffset, xlByteToSeg]
  cases hi : ptr % L.walSegmentSize / L.xlogBlcksz with
  | zero =>
    rw [hi, Nat.add_zero, show L.pageHeaderSize _ = _ from hdr_first _] at h
    rw [Nat.add_zero, before_first, show L.pageHeaderSize _ = _ from hdr_first _]
    dsimp only
    rw [if_pos rfl]
    split_ifs <;> omega
  | succ i =>
    rw [hi] at hpage h
    rw [show L.pageHeaderSize _ = _ from hdr_later hpage] at h ⊢
    rw [before_later (Nat.lt_of_succ_lt hpage), before_first]
    dsimp only
    rw [if_neg (Nat.succ_ne_zero i), Nat.add_sub_cancel]
    split_ifs <;> omega

theorem placedOnPage_of_denotes {b ptr : ℕ} (h : L.paging.Denotes b ptr) : L.PlacedOnPage ptr := by
  rcases h.cases with ⟨p, hp, rfl⟩ | ⟨p, -, rfl⟩
  · right
    rw [show L.xlogBlcksz = L.paging.pageSize from rfl, Paging.mul_add_mod hp.offset_lt,
      Paging.mul_add_div hp.offset_lt]
    exact Nat.le_add_right _ _
  · exact .inl (Nat.mul_mod_left _ _)

/-- `XLogRecPtrToBytePos` is the inverse of `XLogBytePosToRecPtr`. -/
theorem xLogRecPtrToBytePos_recPtr (bytepos : ℕ) :
    L.xLogRecPtrToBytePos (L.xLogBytePosToRecPtr bytepos) = bytepos := by
  have hstored := storedAt_recPtr (L := L) bytepos
  rw [xLogRecPtrToBytePos_eq (placedOnPage_of_denotes (.inl hstored)), hstored.position_eq]

/-- It is the inverse of `XLogBytePosToEndRecPtr` too. -/
theorem xLogRecPtrToBytePos_endRecPtr (bytepos : ℕ) :
    L.xLogRecPtrToBytePos (L.xLogBytePosToEndRecPtr bytepos) = bytepos := by
  have hends := endsAt_endRecPtr (L := L) bytepos
  rw [xLogRecPtrToBytePos_eq (placedOnPage_of_denotes (.inr hends)), hends.position_eq]

end WalLayout

end PgCutover.Wal
